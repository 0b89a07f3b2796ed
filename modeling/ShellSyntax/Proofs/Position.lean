import Mathlib.Data.List.Induction
import Mathlib.Order.Basic
import ShellSyntax.Position

/-!
# Positions in a text

Positions are linearly ordered, and reading moves forward in this order. The span of a text ends
where its last character stands, before the position which follows the text.

Reading a part of a text leads from the position of the offset where it begins to that of the
offset where it ends, so the span of the part can be told from the two offsets. Within a text the
positions of offsets are in the order of the offsets, so a position identifies its offset.

Splitting a text at its newlines gives its lines. The line of a position is one of them, and the
column a place in it: there stands the character that is read at the position. What is left of the
text lies in the rest of that line and in the lines behind it.
-/

namespace ShellSyntax

namespace Position

instance : LinearOrder Position where
  le_refl p := by
    rw [le_def]
    omega
  le_trans p q r hpq hqr := by
    rw [le_def] at hpq hqr ⊢
    omega
  le_antisymm p q hpq hqp := by
    rw [le_def] at hpq hqp
    obtain ⟨l, c⟩ := p
    obtain ⟨m, d⟩ := q
    obtain ⟨rfl, rfl⟩ : l = m ∧ c = d := by
      dsimp only at hpq hqp
      omega
    rfl
  le_total p q := by
    rw [le_def, le_def]
    omega
  lt_iff_le_not_ge p q := by
    rw [lt_def, le_def, le_def]
    omega
  toDecidableLE := inferInstance
  toDecidableLT := inferInstance
  toDecidableEq := inferInstance
  min_def _ _ := rfl
  max_def _ _ := rfl
  compare_eq_compareOfLessAndEq _ _ := rfl

theorem lt_next (p : Position) (c : Char) : p < p.next c := by
  rw [lt_def, next]
  split_ifs
  · exact Or.inl (Nat.lt_succ_self _)
  · exact Or.inr ⟨rfl, Nat.lt_succ_self _⟩

theorem le_advance (p : Position) (text : Text) : p ≤ p.advance text := by
  induction text generalizing p with
  | nil => exact le_rfl
  | cons c rest ih => exact (lt_next p c).le.trans (ih (p.next c))

theorem lt_advance (p : Position) {text : Text} (h : text ≠ []) : p < p.advance text := by
  cases text with
  | nil => contradiction
  | cons c rest => exact (lt_next p c).trans_le (le_advance _ rest)

end Position

namespace Span

theorem last_ofText_append (p : Position) (u : Text) {v : Text} (h : v ≠ []) :
    (ofText p (u ++ v)).last = (ofText (p.advance u) v).last := by
  simp only [ofText, List.dropLast_append_of_ne_nil h, Position.advance_append]

theorem first_le_last_ofText (p : Position) (text : Text) : p ≤ (ofText p text).last :=
  p.le_advance text.dropLast

theorem last_ofText_lt (p : Position) {text : Text} (h : text ≠ []) :
    (ofText p text).last < p.advance text := by
  have split : text.dropLast ++ [text.getLast h] = text := List.dropLast_concat_getLast h
  calc
    p.advance text.dropLast < (p.advance text.dropLast).next (text.getLast h) :=
      Position.lt_next _ _
    _ = p.advance text := by rw [← Position.advance_concat, split]

end Span

section Offsets

variable {text part rest : Text} {i j : Nat}

namespace Position

theorem advance_ofOffset (here : text.drop i = part ++ rest) :
    (ofOffset text i).advance part = ofOffset text (i + part.length) := by
  have lengths := congrArg List.length here
  rw [List.length_drop, List.length_append] at lengths
  by_cases within : i ≤ text.length
  · have prefixes : text.take (i + part.length) = text.take i ++ part := by
      rw [List.take_add, here, List.take_left]
    rw [← advance_take text i within, ← advance_append, ← prefixes,
      advance_take text _ (by omega)]
  · have empty : part = [] := List.length_eq_zero_iff.mp (by omega)
    simp [empty]

theorem ofOffset_lt_ofOffset (before : i < j) (within : j ≤ text.length) :
    ofOffset text i < ofOffset text j := by
  have here : text.drop i = (text.drop i).take (j - i) ++ (text.drop i).drop (j - i) :=
    (List.take_append_drop _ _).symm
  have size : ((text.drop i).take (j - i)).length = j - i := by
    rw [List.length_take, List.length_drop]
    omega
  have nonempty : (text.drop i).take (j - i) ≠ [] := by
    rw [← List.length_pos_iff, size]
    omega
  have further := lt_advance (ofOffset text i) nonempty
  rwa [advance_ofOffset here, size, Nat.add_sub_cancel' (Nat.le_of_lt before)] at further

theorem ofOffset_inj (hi : i ≤ text.length) (hj : j ≤ text.length) :
    ofOffset text i = ofOffset text j ↔ i = j := by
  constructor
  · intro same
    rcases Nat.lt_trichotomy i j with less | equal | greater
    · exact absurd same (ofOffset_lt_ofOffset less hj).ne
    · exact equal
    · exact absurd same (ofOffset_lt_ofOffset greater hi).ne'
  · exact congrArg (ofOffset text)

theorem ofOffset_take (text : Text) (within : j ≤ i) :
    ofOffset (text.take i) j = ofOffset text j := by
  simp only [ofOffset, List.take_take, Nat.min_eq_left within]

theorem ofOffset_append (u v : Text) : ofOffset (u ++ v) u.length = origin.advance u := by
  rw [← advance_take _ _ (by simp), List.take_left]

end Position

theorem Span.ofText_ofOffset (here : text.drop i = part ++ rest) (nonempty : part ≠ []) :
    Span.ofText (.ofOffset text i) part =
      ⟨.ofOffset text i, .ofOffset text (i + part.length - 1)⟩ := by
  have split : text.drop i = part.dropLast ++ (part.getLast nonempty :: rest) := by
    rw [here, List.append_cons, List.dropLast_concat_getLast]
  have size : i + part.dropLast.length = i + part.length - 1 := by
    have positive := List.length_pos_iff.mpr nonempty
    rw [List.length_dropLast]
    omega
  rw [Span.ofText, Position.advance_ofOffset split, size]

end Offsets

section Lines

def lines (text : Text) : List Text := text.splitOn '\n'

theorem lines_append_newline (u v : Text) : lines (u ++ '\n' :: v) = lines u ++ lines v :=
  List.splitOn_append_cons_self u v

theorem lines_eq_singleton {text : Text} (within : '\n' ∉ text) : lines text = [text] :=
  List.splitOn_eq_singleton within

theorem subset_of_mem_lines {text line : Text} (member : line ∈ lines text) : line ⊆ text := by
  by_cases newline : '\n' ∈ text
  · obtain ⟨first, rest, split, within⟩ := List.eq_append_cons_of_mem newline
    have shorter : rest.length < text.length := by
      rw [split, List.length_append, List.length_cons]
      omega
    rw [split, lines_append_newline, lines_eq_singleton within, List.singleton_append] at member
    rw [split]
    rcases List.mem_cons.mp member with rfl | later
    · exact List.subset_append_left _ _
    · have inRest : line ⊆ rest := subset_of_mem_lines later
      exact List.subset_append_of_subset_right _ (List.subset_cons_of_subset _ inRest)
  · rw [lines_eq_singleton newline] at member
    rw [List.mem_singleton.mp member]
    exact List.Subset.refl _
termination_by text.length

theorem exists_line_of_advance (u : Text) :
    ∃ earlier before, Position.origin.advance u = ⟨earlier.length + 1, before.length⟩ ∧
      '\n' ∉ before ∧ (u = before ∨ ∃ a, u = a ++ '\n' :: before) ∧
      ∀ v, lines (u ++ v) = earlier ++ lines (before ++ v) := by
  induction u using List.reverseRecOn with
  | nil => exact ⟨[], [], rfl, List.not_mem_nil, .inl rfl, fun _ => rfl⟩
  | append_singleton u c ih =>
    obtain ⟨earlier, before, position, within, split, behind⟩ := ih
    rw [Position.advance_concat, position, Position.next]
    by_cases newline : c = '\n'
    · subst newline
      refine ⟨earlier ++ [before], [], by simp, List.not_mem_nil, .inr ⟨u, rfl⟩, ?_⟩
      intro v
      rw [List.append_assoc, List.singleton_append, behind, lines_append_newline,
        lines_eq_singleton within, List.append_assoc, List.nil_append]
    · refine ⟨earlier, before ++ [c], by simp [newline], ?_, ?_, ?_⟩
      · simp [within, Ne.symm newline]
      · rcases split with rfl | ⟨a, rfl⟩
        · exact .inl rfl
        · exact .inr ⟨a, by simp⟩
      · intro v
        rw [List.append_assoc, List.append_assoc, behind]

theorem exists_lines_append {before : Text} (within : '\n' ∉ before) (v : Text) :
    ∃ after later, lines (before ++ v) = (before ++ after) :: later ∧ after <+: v ∧
      ∀ line ∈ later, line ⊆ v := by
  by_cases newline : '\n' ∈ v
  · obtain ⟨after, rest, rfl, inLine⟩ := List.eq_append_cons_of_mem newline
    refine ⟨after, lines rest, ?_, List.prefix_append _ _, ?_⟩
    · rw [← List.append_assoc, lines_append_newline, lines_eq_singleton, List.singleton_append]
      simp [within, inLine]
    · intro line member
      exact List.subset_append_of_subset_right _
        (List.subset_cons_of_subset _ (subset_of_mem_lines member))
  · refine ⟨v, [], lines_eq_singleton ?_, List.prefix_rfl, by simp⟩
    simp [within, newline]

theorem exists_line_of_char (u v : Text) {c : Char} (inLine : c ≠ '\n') :
    ∃ earlier before after later,
      lines (u ++ c :: v) = earlier ++ (before ++ c :: after) :: later ∧
      Position.origin.advance u = ⟨earlier.length + 1, before.length⟩ ∧
      (u = before ∨ ∃ a, u = a ++ '\n' :: before) ∧ after <+: v ∧
      ∀ line ∈ later, line ⊆ v := by
  obtain ⟨earlier, before, position, within, split, behind⟩ := exists_line_of_advance u
  have further : '\n' ∉ before ++ [c] := by simp [within, Ne.symm inLine]
  obtain ⟨after, later, here, rest, others⟩ := exists_lines_append further v
  refine ⟨earlier, before, after, later, ?_, position, split, rest, others⟩
  rw [behind, List.append_cons, here, List.append_assoc, List.singleton_append]

end Lines

end ShellSyntax
