import Mathlib.Data.List.Basic
import ShellSyntax.Proofs.Reader.Items
import ShellSyntax.Proofs.Shift

/-!
# Reading a text in parts

The tokens of an accepted text are settled up to the last one before the end: whatever is appended,
reading may begin again at any of them, and only the last can change. It does change where the
appended text glues to it. Everywhere else the two texts are read together as they are read apart.
-/

namespace ShellSyntax

def charactersFrom (p : Position) (items : List Item) : Text :=
  items.filterMap fun item => if p ≤ item.position then item.char? else none

/-- Whether the text begins with a character that is read together with the last token. -/
def Glued (tokens : List Token) (text : Text) : Prop :=
  ∃ t ∈ tokens.getLast?, ∃ c ∈ text.head?, t.kind.glues c

instance (tokens : List Token) (text : Text) : Decidable (Glued tokens text) :=
  decidable_of_iff (tokens.getLast?.any fun t => text.head?.any t.kind.glues)
    (by simp [Glued, Option.any_eq_true])

theorem charactersFrom_advance (p : Position) (u v : Text) :
    charactersFrom (p.advance u) (Reader.itemsFrom p (u ++ v)) = v := by
  have before : ∀ item ∈ Reader.charItems p u,
      (if p.advance u ≤ item.position then item.char? else none) = none := fun item member =>
    if_neg (Reader.lt_of_mem_charItems member).not_ge
  have behind : ∀ item ∈ Reader.itemsFrom (p.advance u) v,
      (if p.advance u ≤ item.position then item.char? else none) = item.char? := fun item member =>
    if_pos (Reader.le_of_mem_itemsFrom member)
  rw [charactersFrom, Reader.itemsFrom_append, List.filterMap_append,
    List.filterMap_eq_nil_iff.mpr before, List.filterMap_congr behind, Reader.itemsFrom_eq_concat,
    List.filterMap_append, Reader.filterMap_charItems]
  simp

theorem prefix_of_resume_eq_ok {base : Position} {front tokens : List Token}
    {result : Result (List Token)} (read : resume base front result = .ok tokens) :
    front <+: tokens := by
  cases result with
  | ok later =>
    cases read
    exact List.prefix_append _ _
  | error e => cases read
  | stuck => cases read

theorem Legible.append_behind {ks ls : List Kind} {l : Kind} {rest : Text}
    (legible : Legible (ks ++ l :: ls) rest) (more : Text) :
    Legible ks (sources (l :: ls) ++ more) := by
  obtain ⟨first, later⟩ := append_iff.mp legible
  have source : sources (l :: ls) ≠ [] := by simp [later.1.source_ne_nil]
  apply first.congr_head
  rw [List.head?_append_of_ne_nil _ source, List.head?_append_of_ne_nil _ source]

theorem tokenize_append_from {text : Text} {front behind : List Token} {t : Token}
    (accepted : tokenize text = .ok (front ++ t :: behind)) (inner : behind ≠ []) (more : Text) :
    tokenize (text ++ more) =
      resume t.span.first front
        (tokenize (charactersFrom t.span.first (itemsOf text) ++ more)) := by
  obtain ⟨ks, ls, legible, rfl, rfl, tokens⟩ :=
    exists_of_tokenize_eq_ok_append accepted (List.cons_ne_nil t behind)
  cases ls with
  | nil => exact absurd (List.cons.inj tokens).2 inner
  | cons l ls =>
    obtain ⟨rfl, -⟩ := List.cons.inj tokens
    have ahead := (legible.append_behind more).tokenize_append
    rw [Span.first_ofText, itemsOf, Reader.ofText, Reader.items, charactersFrom_advance,
      List.append_assoc, ahead]

theorem dropLast_dropLast_prefix {text more : Text} {tokens later : List Token}
    (accepted : tokenize text = .ok tokens) (longer : tokenize (text ++ more) = .ok later) :
    tokens.dropLast.dropLast <+: later := by
  rcases List.eq_nil_or_concat' tokens with rfl | ⟨inside, last, rfl⟩
  · exact List.nil_prefix
  · rw [List.dropLast_concat]
    rcases List.eq_nil_or_concat' inside with rfl | ⟨front, t, rfl⟩
    · exact List.nil_prefix
    · rw [List.append_assoc] at accepted
      rw [tokenize_append_from accepted (List.cons_ne_nil last []) more] at longer
      rw [List.dropLast_concat]
      exact prefix_of_resume_eq_ok longer

/-- A text that is appended to an accepted one is read, to its end or to an error, from any of its
tokens on, and it leaves all of them as they are but the last before the end. -/
theorem tokenize_append_resumes {text : Text} {tokens : List Token}
    (accepted : tokenize text = .ok tokens) (more : Text) :
    tokenize (text ++ more) ≠ .stuck ∧
    (∀ front t behind, tokens = front ++ t :: behind → behind ≠ [] →
      tokenize (text ++ more) =
        resume t.span.first front
          (tokenize (charactersFrom t.span.first (itemsOf text) ++ more))) ∧
    ∀ later, tokenize (text ++ more) = .ok later → tokens.dropLast.dropLast <+: later := by
  refine ⟨tokenize_ne_stuck _, ?_, fun later longer => dropLast_dropLast_prefix accepted longer⟩
  intro front t behind split inner
  exact tokenize_append_from (split ▸ accepted) inner more

theorem tokenize_append_resumes_sign :
    let text : Text := "a\n b<".toList
    let front : List Token :=
      [⟨.word ['a'], .point ⟨1, 0⟩⟩, ⟨.space ['\n', ' '], ⟨⟨1, 1⟩, ⟨2, 0⟩⟩⟩,
        ⟨.word ['b'], .point ⟨2, 1⟩⟩]
    let tokens : List Token := front ++ [⟨.less, .point ⟨2, 2⟩⟩, ⟨.eof, .point ⟨2, 3⟩⟩]
    let longer : List Token :=
      front ++ [⟨.doubleLess, ⟨⟨2, 2⟩, ⟨2, 3⟩⟩⟩, ⟨.space ['\n'], .point ⟨2, 4⟩⟩,
        ⟨.eof, .point ⟨3, 0⟩⟩]
    tokenize text = .ok tokens ∧
      tokenize (text ++ "<\n".toList) = resume ⟨2, 2⟩ front (tokenize "<<\n".toList) ∧
      tokenize (text ++ "<\n".toList) = .ok longer ∧ front <+: longer ∧
      tokenize (text ++ "\n&".toList) =
        resume ⟨1, 1⟩ (front.take 1) (tokenize "\n b<\n&".toList) := by
  intro text front tokens longer
  have accepted : tokenize text = .ok tokens := rfl
  have read : tokenize (text ++ "<\n".toList) = .ok longer := rfl
  exact ⟨accepted, (tokenize_append_resumes accepted _).2.1 front _ _ rfl (by decide), read,
    (tokenize_append_resumes accepted _).2.2 longer read,
    (tokenize_append_resumes accepted _).2.1 (front.take 1) _ _ rfl (by decide)⟩

section Concatenation

variable {u v : Text} {us : List Token} {p : Position}

theorem exists_of_tokenize_eq_ok_concat (accepted : tokenize u = .ok (us ++ [⟨.eof, .point p⟩])) :
    ∃ kinds, Legible kinds [] ∧ u = sources kinds ∧ us = place .origin kinds ∧
      p = Position.origin.advance u := by
  obtain ⟨kinds, legible, text, tokens⟩ := exists_of_tokenize_eq_ok accepted
  rw [place_append, place_eof] at tokens
  obtain ⟨front, last⟩ := List.append_inj' tokens rfl
  have ends : Span.point p = .point (Position.origin.advance (sources kinds)) :=
    congrArg Token.span (List.cons.inj last).1
  exact ⟨kinds, legible, text, front, text ▸ congrArg Span.first ends⟩

theorem glued_place_iff {base : Position} {kinds : List Kind} :
    Glued (place base kinds) v ↔ ∃ k ∈ kinds.getLast?, ∃ c ∈ v.head?, k.glues c := by
  rw [Glued, ← getLast?_place base kinds]
  simp

theorem kind_shift (base : Position) (t : Token) : (t.shift base).kind = t.kind := rfl

theorem tokenize_append_of_not_glued (accepted : tokenize u = .ok (us ++ [⟨.eof, .point p⟩]))
    (apart : ¬ Glued us v) : tokenize (u ++ v) = resume p us (tokenize v) := by
  obtain ⟨kinds, legible, rfl, rfl, rfl⟩ := exists_of_tokenize_eq_ok_concat accepted
  rw [glued_place_iff] at apart
  apply Legible.tokenize_append
  apply legible.before
  intro k last c first glues
  exact apart ⟨k, last, c, first, glues⟩

theorem tokenize_append_ne_of_glued (accepted : tokenize u = .ok (us ++ [⟨.eof, .point p⟩]))
    {vs : List Token} (other : tokenize v = .ok vs) (glued : Glued us v) :
    tokenize (u ++ v) ≠ .ok (us ++ vs.map (Token.shift p)) := by
  obtain ⟨kinds, -, rfl, rfl, rfl⟩ := exists_of_tokenize_eq_ok_concat accepted
  obtain ⟨ks, -, rfl, rfl⟩ := exists_of_tokenize_eq_ok other
  obtain ⟨k, last, c, first, glues⟩ := glued_place_iff.mp glued
  intro whole
  obtain ⟨all, legible, -, tokens⟩ := exists_of_tokenize_eq_ok whole
  have same : kinds ++ ks ++ [.eof] = all ++ [.eof] := by
    simpa [Function.comp_def, kind_shift] using congrArg (List.map Token.kind) tokens
  obtain rfl := List.append_cancel_right same
  have apart := (Legible.append_iff.mp legible).1.last_apart k last c
  rw [List.append_nil] at apart
  exact apart first glues

/-- Two texts are read together as they are read apart unless the second one glues to the first. -/
theorem tokenize_append_unless_glued (accepted : tokenize u = .ok (us ++ [⟨.eof, .point p⟩]))
    (v : Text) :
    tokenize (u ++ v) ≠ .stuck ∧
    (¬ Glued us v → tokenize (u ++ v) = resume p us (tokenize v)) ∧
    ∀ vs, tokenize v = .ok vs → Glued us v →
      tokenize (u ++ v) ≠ .ok (us ++ vs.map (Token.shift p)) :=
  ⟨tokenize_ne_stuck _, tokenize_append_of_not_glued accepted,
    fun _ other glued => tokenize_append_ne_of_glued accepted other glued⟩

theorem tokenize_append_unless_glued_sign :
    let us : List Token := [⟨.space ['\n'], .point ⟨1, 0⟩⟩, ⟨.great, .point ⟨2, 0⟩⟩]
    tokenize "\n>".toList = .ok (us ++ [⟨.eof, .point ⟨2, 1⟩⟩]) ∧
      (¬ Glued us "'a\nb".toList ∧
        tokenize "\n>'a\nb".toList = .error (.unterminated ⟨⟨2, 1⟩, ⟨3, 0⟩⟩)) ∧
      (Glued us ">".toList ∧ tokenize "\n>>".toList ≠
        .ok (us ++ [⟨.great, .point ⟨2, 1⟩⟩, ⟨.eof, .point ⟨2, 2⟩⟩])) := by
  intro us
  have accepted : tokenize "\n>".toList = .ok (us ++ [⟨.eof, .point ⟨2, 1⟩⟩]) := rfl
  have apart : ¬ Glued us "'a\nb".toList := by decide
  have glued : Glued us ">".toList := by decide
  have other : tokenize ">".toList = .ok [⟨.great, .point ⟨1, 0⟩⟩, ⟨.eof, .point ⟨1, 1⟩⟩] := rfl
  exact ⟨accepted, ⟨apart, (tokenize_append_unless_glued accepted _).2.1 apart⟩,
    ⟨glued, (tokenize_append_unless_glued accepted _).2.2 _ other glued⟩⟩

end Concatenation

end ShellSyntax
