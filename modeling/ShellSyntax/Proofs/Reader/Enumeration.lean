import Mathlib.Algebra.Group.Nat.Defs
import ShellSyntax.Proofs.Reader.Items

/-!
# Reading a text through

A reader of a text gives its characters one after the other, each at the position of its offset,
then the closing item, and from then on nothing. The counters of its position are bounded by the
offset, so in a text that fits into memory they never outgrow a machine word.
-/

namespace ShellSyntax

namespace Position

/-- Whether both counters fit into a machine word of 64 bits. -/
def Fits (p : Position) : Prop := p.line < UInt64.size ∧ p.column < UInt64.size

variable {text : Text} {i j : Nat}

theorem ofOffset_lt_iff (hi : i ≤ text.length) (hj : j ≤ text.length) :
    ofOffset text i < ofOffset text j ↔ i < j := by
  constructor
  · intro less
    by_contra notLess
    rcases Nat.lt_or_eq_of_le (Nat.le_of_not_lt notLess) with greater | rfl
    · exact (ofOffset_lt_ofOffset greater hi).not_gt less
    · exact lt_irrefl _ less
  · intro less
    exact ofOffset_lt_ofOffset less hj

theorem line_add_column_le (within : i ≤ text.length) :
    (ofOffset text i).line - 1 + (ofOffset text i).column ≤ i := by
  induction i with
  | zero => exact Nat.le_refl _
  | succ i ih =>
    have before := ih (Nat.le_of_succ_le within)
    rw [← next_eq_ofOffset text i within, next]
    split_ifs
    · dsimp only
      omega
    · dsimp only
      omega

theorem fits_ofOffset (within : i ≤ text.length) (size : text.length < 2 ^ 63) :
    (ofOffset text i).Fits := by
  have bound := line_add_column_le within
  rw [Fits, UInt64.size]
  omega

end Position

theorem length_le_utf8ByteSize (text : Text) :
    text.length ≤ (String.ofList text).utf8ByteSize := by
  induction text with
  | nil => exact Nat.zero_le _
  | cons c rest ih =>
    have split : String.ofList (c :: rest) = String.singleton c ++ String.ofList rest := by
      rw [String.singleton_eq_ofList, ← String.ofList_append, List.singleton_append]
    have positive := c.utf8Size_pos
    rw [split, String.utf8ByteSize_append, String.utf8ByteSize_singleton, List.length_cons]
    omega

namespace Reader

variable {text : Text} {i : Nat}

theorem next_skip_ofText (within : i ≤ text.length) :
    ((ofText text).skip i).next.1 = some ⟨text[i]?, .ofOffset text i⟩ := by
  rw [skip_ofText within, next_eq_head?]
  rcases Nat.lt_or_eq_of_le within with inside | rfl
  · rw [List.drop_eq_getElem_cons inside, List.getElem?_eq_getElem inside]
    rfl
  · rw [List.drop_length, List.getElem?_eq_none (Nat.le_refl _)]
    rfl

theorem skip_ofText_eq_exhausted (beyond : text.length < i) :
    (ofText text).skip i = .exhausted := by
  apply skip_eq_exhausted
  rw [ofText, items, length_itemsFrom]
  exact beyond

theorem position_eq_of_skip {rest : Text} {p : Position}
    (left : (ofText text).skip i = .reading rest p) : i ≤ text.length ∧ p = .ofOffset text i := by
  have within : i ≤ text.length := by
    by_contra beyond
    rw [skip_ofText_eq_exhausted (Nat.lt_of_not_le beyond)] at left
    cases left
  rw [skip_ofText within] at left
  exact ⟨within, (Reader.reading.inj left).2.symm⟩

end Reader

/-- A text is read as its characters and a closing item, each at the position of its offset. The
positions are in the order of the offsets and tell them apart. Neither counter of a position runs
ahead of the offset, and while the bytes of the text can be counted in a machine word, so can its
lines and columns. -/
theorem reading_enumerates_offsets (text : Text) :
    (∀ i (h : i < text.length),
      ((Reader.ofText text).skip i).next.1 = some ⟨some text[i], .ofOffset text i⟩) ∧
    ((Reader.ofText text).skip text.length).next.1 =
      some ⟨none, .ofOffset text text.length⟩ ∧
    (∀ i, text.length < i → ((Reader.ofText text).skip i).next.1 = none) ∧
    (∀ i ≤ text.length, ∀ j ≤ text.length,
      (Position.ofOffset text i < .ofOffset text j ↔ i < j) ∧
      (Position.ofOffset text i = .ofOffset text j ↔ i = j)) ∧
    (∀ i ≤ text.length,
      (Position.ofOffset text i).line - 1 + (Position.ofOffset text i).column ≤ i) ∧
    ((String.ofList text).utf8ByteSize < 2 ^ 63 →
      ∀ i rest p, (Reader.ofText text).skip i = .reading rest p → p.Fits) := by
  refine ⟨?_, ?_, ?_, ?_, fun i => Position.line_add_column_le, ?_⟩
  · intro i inside
    rw [Reader.next_skip_ofText (Nat.le_of_lt inside), List.getElem?_eq_getElem inside]
  · rw [Reader.next_skip_ofText (Nat.le_refl _), List.getElem?_eq_none (Nat.le_refl _)]
  · intro i beyond
    rw [Reader.skip_ofText_eq_exhausted beyond]
    rfl
  · intro i hi j hj
    exact ⟨Position.ofOffset_lt_iff hi hj, Position.ofOffset_inj hi hj⟩
  · intro small i rest p left
    obtain ⟨within, rfl⟩ := Reader.position_eq_of_skip left
    exact Position.fits_ofOffset within (Nat.lt_of_le_of_lt (length_le_utf8ByteSize text) small)

theorem reading_enumerates_offsets_lines :
    let text : Text := "é\n\nb".toList
    let reader := Reader.ofText text
    (reader.skip 3).next.1 = some ⟨some 'b', ⟨3, 0⟩⟩ ∧
      (reader.skip 4).next.1 = some ⟨none, ⟨3, 1⟩⟩ ∧
      (reader.skip 7).next.1 = none ∧
      (Position.ofOffset text 2 < .ofOffset text 3 ↔ 2 < 3) ∧
      (Position.ofOffset text 3).line - 1 + (Position.ofOffset text 3).column ≤ 3 ∧
      (String.ofList text).utf8ByteSize = 5 ∧
      Position.Fits ⟨3, 1⟩ := by
  intro text reader
  have bytes : (String.ofList text).utf8ByteSize = 5 := by decide
  obtain ⟨inside, closing, beyond, order, bound, fits⟩ := reading_enumerates_offsets text
  exact ⟨inside 3 (by decide), closing, beyond 7 (by decide), (order 2 (by decide) 3 (by decide)).1,
    bound 3 (by decide), bytes, fits (by rw [bytes]; decide) 4 [] _ rfl⟩

end ShellSyntax
