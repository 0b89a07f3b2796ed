import ShellSyntax.Position

/-!
# Character classes

Outside quotes the lexer tells characters apart by their class alone. Four characters lead an
operator that may be doubled, two are parentheses, two are quotes, six are blank, and every other
character is plain, whatever alphabet it belongs to.
-/

namespace ShellSyntax

inductive Lead where
  | less
  | great
  | amp
  | pipe
deriving DecidableEq

def Lead.char : Lead → Char
  | .less => '<'
  | .great => '>'
  | .amp => '&'
  | .pipe => '|'

inductive Quote where
  | single
  | double
deriving DecidableEq

def Quote.char : Quote → Char
  | .single => '\x27'
  | .double => '\x22'

inductive CharClass where
  | lead (lead : Lead)
  | leftParen
  | rightParen
  | quote (quote : Quote)
  | blank
  | plain
deriving DecidableEq

namespace CharClass

def of (c : Char) : CharClass :=
  match c with
  | '<' => .lead .less
  | '>' => .lead .great
  | '&' => .lead .amp
  | '|' => .lead .pipe
  | '(' => .leftParen
  | ')' => .rightParen
  | '\x27' => .quote .single
  | '\x22' => .quote .double
  | ' ' | '\t' | '\n' | '\x0b' | '\x0c' | '\r' => .blank
  | _ => .plain

def delimits : CharClass → Bool
  | .lead _ | .leftParen | .rightParen | .blank => true
  | .quote _ | .plain => false

theorem of_eq_lead_iff {c : Char} {l : Lead} : of c = .lead l ↔ c = l.char := by
  constructor
  · intro h
    unfold of at h
    split at h <;> simp_all [Lead.char] <;> subst h <;> rfl
  · rintro rfl
    cases l <;> rfl

theorem of_eq_quote_iff {c : Char} {q : Quote} : of c = .quote q ↔ c = q.char := by
  constructor
  · intro h
    unfold of at h
    split at h <;> simp_all [Quote.char] <;> subst h <;> rfl
  · rintro rfl
    cases q <;> rfl

end CharClass

def isBlank (c : Char) : Bool := CharClass.of c == .blank

def isDelimiter (c : Char) : Bool := (CharClass.of c).delimits

end ShellSyntax
