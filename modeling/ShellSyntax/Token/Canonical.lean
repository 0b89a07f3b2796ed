import ShellSyntax.Token

/-!
# Canonical lists and normal forms

The token lists that lexing can give are described without lexing. Each kind can be read from a
text, no two neighbours would be read as something else when they are written next to each other,
each span is the one that the source takes up, and the end comes last and only there.

Kinds that are written next to each other may run together: blanks with blanks, words with words,
and signs with the same sign. The normal form of a list joins such runs into the kinds that are
read from them, and has one end, which comes last.
-/

namespace ShellSyntax

def neighbours {α : Type} (xs : List α) : List (α × α) := xs.zip xs.tail

def isQuote (c : Char) : Bool :=
  match CharClass.of c with
  | .quote _ => true
  | _ => false

namespace Kind

def isReadable : Kind → Bool
  | .space text => !text.isEmpty && text.all isBlank
  | .word text => !text.isEmpty && text.all (!isDelimiter ·) && !text.head?.any isQuote
  | .quoted quote body => !body.contains quote.char
  | _ => true

/-- Whether two kinds that are written next to each other would be read as others. -/
def fuses : Kind → Kind → Bool
  | .space _, .space _ => true
  | .word _, .word _ | .word _, .quoted _ _ => true
  | .less, .less | .less, .doubleLess => true
  | .great, .great | .great, .doubleGreat => true
  | .pipe, .pipe | .pipe, .or => true
  | _, _ => false

end Kind

/-- Gives each kind of a list the span that its source takes up when they are written from `p`. -/
def place (p : Position) : List Kind → List Token
  | [] => []
  | kind :: kinds =>
    ⟨kind, .ofText p kind.source⟩ :: place (p.advance kind.source) kinds

def Separable (kinds : List Kind) : Prop :=
  .eof ∉ kinds ∧ (∀ k ∈ kinds, k.isReadable) ∧ ∀ pair ∈ neighbours kinds, ¬ pair.1.fuses pair.2

instance (kinds : List Kind) : Decidable (Separable kinds) :=
  inferInstanceAs (Decidable (_ ∧ _ ∧ _))

def Canonical (tokens : List Token) : Prop :=
  ∃ kinds, Separable kinds ∧ tokens = place .origin (kinds ++ [.eof])

@[simp] theorem map_kind_place (p : Position) (kinds : List Kind) :
    (place p kinds).map Token.kind = kinds := by
  induction kinds generalizing p with
  | nil => rfl
  | cons k ks ih => simp [place, ih]

inductive Family where
  | space
  | word
  | sign (lead : Lead)
deriving DecidableEq

namespace Kind

/-- The family in which a kind runs together with its neighbours. The double ampersand has none,
since it never meets a single one. -/
def family? : Kind → Option Family
  | .space _ => some .space
  | .word _ => some .word
  | .less | .doubleLess => some (.sign .less)
  | .great | .doubleGreat => some (.sign .great)
  | .pipe | .or => some (.sign .pipe)
  | _ => none

def runsWith (k l : Kind) : Bool := k.family?.isSome && k.family? == l.family?

end Kind

def readSigns (l : Lead) (count : Nat) : List Kind :=
  List.replicate (count / 2) l.doubled ++ if count % 2 = 1 then l.alone?.toList else []

def readRun (run : List Kind) : List Kind :=
  let source := run.flatMap Kind.source
  match run.head?.bind Kind.family? with
  | some .space => [.space source]
  | some .word => [.word source]
  | some (.sign l) => readSigns l source.length
  | none => run

def normalForm (kinds : List Kind) : List Kind :=
  ((kinds.filter (· != .eof)).splitBy Kind.runsWith).flatMap readRun ++ [.eof]

end ShellSyntax
