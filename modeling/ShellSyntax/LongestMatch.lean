import ShellSyntax.Token

/-!
# Longest match

What the tokens of a text are can be told by looking ahead. At each offset stands the longest
lexeme that begins there: a doubled sign before a single one, a run of blanks or of word
characters as far as it goes, a quoted body up to the next quote of its kind. The next lexeme
begins where it ends. Positions are those of the offsets.
-/

namespace ShellSyntax

inductive Fault where
  | unpaired
  | unclosed
deriving DecidableEq

/-- The kind of the longest lexeme that begins with `c` when `rest` follows. -/
def lexeme (c : Char) (rest : Text) : Except Fault Kind :=
  match CharClass.of c with
  | .lead l =>
    if rest.head? = some l.char then .ok l.doubled
    else
      match l.alone? with
      | some kind => .ok kind
      | none => .error .unpaired
  | .leftParen => .ok .leftParen
  | .rightParen => .ok .rightParen
  | .quote q =>
    if q.char ∈ rest then .ok (.quoted q (rest.takeWhile (· != q.char)))
    else .error .unclosed
  | .blank => .ok (.space (c :: rest.takeWhile isBlank))
  | .plain => .ok (.word (c :: rest.takeWhile (!isDelimiter ·)))

theorem source_ne_nil_of_lexeme {c : Char} {rest : Text} {kind : Kind}
    (h : lexeme c rest = .ok kind) : kind.source ≠ [] := by
  unfold lexeme at h
  split at h
  case h_1 l _ =>
    cases l <;> split at h <;> cases h <;> simp [Lead.doubled, Kind.source]
  case h_4 q _ =>
    split at h <;> cases h
    simp [Kind.source]
  all_goals
    cases h
    simp [Kind.source]

def Fault.error (text : Text) (i : Nat) : Fault → LexError
  | .unpaired => .unrecognized (.ofOffset text (i + 1))
  | .unclosed => .unterminated ⟨.ofOffset text i, .ofOffset text (text.length - 1)⟩

def LexError.fault : LexError → Fault
  | .unrecognized _ => .unpaired
  | .unterminated _ => .unclosed

def tokensFrom (text : Text) (i : Nat) : Except LexError (List Token) :=
  match _rest : text.drop i with
  | [] => .ok [⟨.eof, .point (.ofOffset text i)⟩]
  | c :: cs =>
    match found : lexeme c cs with
    | .ok kind =>
      let stop := i + kind.source.length
      let token : Token := ⟨kind, ⟨.ofOffset text i, .ofOffset text (stop - 1)⟩⟩
      (tokensFrom text stop).map (token :: ·)
    | .error fault => .error (fault.error text i)
termination_by text.length - i
decreasing_by
  have := List.length_pos_iff.mpr (source_ne_nil_of_lexeme found)
  have := congrArg List.length _rest
  simp only [List.length_drop, List.length_cons] at this
  omega

def longestMatch (text : Text) : Except LexError (List Token) := tokensFrom text 0

end ShellSyntax
