import Mathlib.Logic.Equiv.Basic
import ShellSyntax.Proofs.Relabelling

/-!
# Twins among the characters

The two quotes are read in the same way, and so are the two angle signs. When the characters of such
a pair are exchanged throughout a text, bodies and words included, its tokens are exchanged with
them and stay where they are, and an error stays as it is.
-/

namespace ShellSyntax

def quoteSwap : Equiv.Perm Char := Equiv.swap Quote.single.char Quote.double.char

def angleSwap : Equiv.Perm Char := Equiv.swap Lead.less.char Lead.great.char

def Quote.other : Quote → Quote
  | .single => .double
  | .double => .single

def Lead.mirrored : Lead → Lead
  | .less => .great
  | .great => .less
  | l => l

namespace Kind

def exchangeQuotes : Kind → Kind
  | .quoted q body => .quoted q.other body
  | kind => kind

def exchangeAngles : Kind → Kind
  | .less => .great
  | .great => .less
  | .doubleLess => .doubleGreat
  | .doubleGreat => .doubleLess
  | kind => kind

end Kind

section Swap

variable {a b : Char} {lead : Lead → Lead} {quote : Quote → Quote}

theorem CharClass.of_swap (first : of b = (of a).relabel lead quote)
    (second : of a = (of b).relabel lead quote)
    (others : ∀ c, c ≠ a → c ≠ b → of c = (of c).relabel lead quote) (c : Char) :
    of (Equiv.swap a b c) = (of c).relabel lead quote := by
  rcases eq_or_ne c a with rfl | notFirst
  · rw [Equiv.swap_apply_left]
    exact first
  · rcases eq_or_ne c b with rfl | notSecond
    · rw [Equiv.swap_apply_right]
      exact second
    · rw [Equiv.swap_apply_of_ne_of_ne notFirst notSecond]
      exact others c notFirst notSecond

theorem swap_eq_newline_iff (first : '\n' ≠ a) (second : '\n' ≠ b) (c : Char) :
    Equiv.swap a b c = '\n' ↔ c = '\n' := by
  rw [Equiv.swap_apply_eq_iff, Equiv.swap_apply_of_ne_of_ne first second]

end Swap

namespace Relabelling

def quotes : Relabelling where
  char := quoteSwap
  lead := id
  quote := Quote.other
  kind k := (k.mapText quoteSwap).exchangeQuotes
  newline := swap_eq_newline_iff (by decide) (by decide)
  charClass := by
    refine CharClass.of_swap rfl rfl fun c notSingle notDouble => ?_
    cases charClass : CharClass.of c with
    | quote q =>
      have char := CharClass.of_eq_quote_iff.mp charClass
      cases q with
      | single => exact (notSingle char).elim
      | double => exact (notDouble char).elim
    | _ => rfl
  lead_injective := Function.injective_id
  quote_injective q q' same := by cases q <;> cases q' <;> trivial
  doubled l := by cases l <;> rfl
  alone l := by cases l <;> rfl
  leftParen := rfl
  rightParen := rfl
  space _ := rfl
  word _ := rfl
  quoted _ _ := rfl
  eof := rfl

def angles : Relabelling where
  char := angleSwap
  lead := Lead.mirrored
  quote := id
  kind k := (k.mapText angleSwap).exchangeAngles
  newline := swap_eq_newline_iff (by decide) (by decide)
  charClass := by
    refine CharClass.of_swap rfl rfl fun c notLess notGreat => ?_
    cases charClass : CharClass.of c with
    | lead l =>
      have char := CharClass.of_eq_lead_iff.mp charClass
      cases l with
      | less => exact (notLess char).elim
      | great => exact (notGreat char).elim
      | _ => rfl
    | _ => rfl
  lead_injective l l' same := by cases l <;> cases l' <;> trivial
  quote_injective := Function.injective_id
  doubled l := by cases l <;> rfl
  alone l := by cases l <;> rfl
  leftParen := rfl
  rightParen := rfl
  space _ := rfl
  word _ := rfl
  quoted _ _ := rfl
  eof := rfl

end Relabelling

/-- Exchanging the two quotes throughout a text, or the two angle signs, exchanges the kinds of the
tokens and the characters they carry, and changes neither a span nor an error. -/
theorem tokenize_exchange (text : Text) :
    tokenize text ≠ .stuck ∧
    (tokenize (text.map quoteSwap) =
        (tokenize text).map
          (List.map (Token.mapKind fun k => (k.mapText quoteSwap).exchangeQuotes)) ∧
      ∀ e, tokenize (text.map quoteSwap) = .error e ↔ tokenize text = .error e) ∧
    (tokenize (text.map angleSwap) =
        (tokenize text).map
          (List.map (Token.mapKind fun k => (k.mapText angleSwap).exchangeAngles)) ∧
      ∀ e, tokenize (text.map angleSwap) = .error e ↔ tokenize text = .error e) :=
  ⟨tokenize_ne_stuck text,
    ⟨Relabelling.quotes.tokenize_map text, Relabelling.quotes.tokenize_map_eq_error_iff text⟩,
    Relabelling.angles.tokenize_map text, Relabelling.angles.tokenize_map_eq_error_iff text⟩

example : ((Kind.quoted .double "a'".toList).mapText quoteSwap).exchangeQuotes =
    .quoted .single "a\x22".toList := rfl

end ShellSyntax
