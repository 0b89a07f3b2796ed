import Mathlib.Logic.Function.Iterate
import ShellSyntax.Proofs.Position
import ShellSyntax.Reader

/-!
# The items of a text

The items of a text are those of its characters, in order, and a closing one where the text ends.
Those of a part stand between the positions where the part begins and ends.

A reader is read one item at a time, and whatever else is asked of it comes down to that. The items
of a reader are those that repeated reading gives, and picking one of them or taking several leaves
the reader where reading all of them would have left it.
-/

namespace ShellSyntax.Reader

section Items

variable {p : Position} {text : Text} {item : Item}

def charItems (p : Position) : Text → List Item
  | [] => []
  | c :: rest => ⟨some c, p⟩ :: charItems (p.next c) rest

theorem itemsFrom_append (p : Position) (u v : Text) :
    itemsFrom p (u ++ v) = charItems p u ++ itemsFrom (p.advance u) v := by
  induction u generalizing p with
  | nil => rfl
  | cons c u ih => simp [itemsFrom, charItems, ih]

theorem itemsFrom_eq_concat (p : Position) (text : Text) :
    itemsFrom p text = charItems p text ++ [⟨none, p.advance text⟩] := by
  have whole := itemsFrom_append p text []
  rwa [List.append_nil] at whole

theorem charItems_append (p : Position) (u v : Text) :
    charItems p (u ++ v) = charItems p u ++ charItems (p.advance u) v := by
  induction u generalizing p with
  | nil => rfl
  | cons c u ih => simp [charItems, ih]

@[simp] theorem length_charItems (p : Position) (text : Text) :
    (charItems p text).length = text.length := by
  induction text generalizing p with
  | nil => rfl
  | cons c rest ih => simp [charItems, ih]

theorem take_itemsOf {text : Text} {i : Nat} (within : i ≤ text.length) :
    (itemsOf text).take i = charItems .origin (text.take i) := by
  have size : (charItems .origin (text.take i)).length = i := by
    rw [length_charItems, List.length_take_of_le within]
  have split := itemsFrom_append .origin (text.take i) (text.drop i)
  rw [List.take_append_drop] at split
  rw [itemsOf, ofText, items, split, List.take_left' size]

theorem filterMap_charItems (p : Position) (text : Text) :
    (charItems p text).filterMap Item.char? = text := by
  induction text generalizing p with
  | nil => rfl
  | cons c rest ih => simp [charItems, ih]

theorem le_of_mem_itemsFrom (member : item ∈ itemsFrom p text) : p ≤ item.position := by
  induction text generalizing p with
  | nil =>
    obtain rfl := List.mem_singleton.mp member
    exact le_rfl
  | cons c rest ih =>
    rcases List.mem_cons.mp member with rfl | later
    · exact le_rfl
    · exact (p.lt_next c).le.trans (ih later)

theorem ne_nil_of_mem_charItems (member : item ∈ charItems p text) : text ≠ [] := by
  intro empty
  subst empty
  cases member

theorem le_last_of_mem_charItems (member : item ∈ charItems p text) :
    item.position ≤ (Span.ofText p text).last := by
  induction text generalizing p with
  | nil => cases member
  | cons c rest ih =>
    rcases List.mem_cons.mp member with rfl | later
    · exact Span.first_le_last_ofText p _
    · have last := Span.last_ofText_append p [c] (ne_nil_of_mem_charItems later)
      rw [List.singleton_append] at last
      rw [last]
      exact ih later

theorem le_of_mem_charItems (member : item ∈ charItems p text) : p ≤ item.position := by
  have listed : item ∈ itemsFrom p text := by
    rw [itemsFrom_eq_concat]
    exact List.mem_append_left _ member
  exact le_of_mem_itemsFrom listed

theorem lt_of_mem_charItems (member : item ∈ charItems p text) :
    item.position < p.advance text := by
  have nonempty := ne_nil_of_mem_charItems member
  exact (le_last_of_mem_charItems member).trans_lt (Span.last_ofText_lt p nonempty)

end Items

section Skipping

/-- The reader that is left when `n` items have been read, or all of them if there are fewer. -/
def skip (r : Reader) (n : Nat) : Reader := (Prod.snd ∘ next)^[n] r

theorem skip_succ (r : Reader) (n : Nat) : r.skip (n + 1) = r.next.2.skip n := rfl

theorem next_skip (r : Reader) (n : Nat) : (r.skip n).next.2 = r.skip (n + 1) :=
  (Function.iterate_succ_apply' (Prod.snd ∘ next) n r).symm

theorem skip_skip (r : Reader) (m n : Nat) : (r.skip m).skip n = r.skip (m + n) := by
  rw [Nat.add_comm]
  exact (Function.iterate_add_apply (Prod.snd ∘ next) n m r).symm

theorem next_eq_head? (r : Reader) : r.next.1 = r.items.head? := by
  rcases r with ⟨_ | ⟨c, rest⟩, p⟩ | _ <;> rfl

theorem items_next (r : Reader) : r.next.2.items = r.items.tail := by
  rcases r with ⟨_ | ⟨c, rest⟩, p⟩ | _ <;> rfl

theorem items_skip (r : Reader) (n : Nat) : (r.skip n).items = r.items.drop n := by
  induction n generalizing r with
  | zero => rfl
  | succ n ih => rw [skip_succ, ih, items_next, List.drop_tail]

theorem getElem?_items (r : Reader) (n : Nat) : r.items[n]? = (r.skip n).next.1 := by
  rw [next_eq_head?, items_skip, List.head?_drop]

theorem eq_exhausted {r : Reader} (none : r.items = []) : r = .exhausted := by
  cases r with
  | reading text p =>
    have length : (reading text p).items.length = text.length + 1 := length_itemsFrom p text
    rw [none] at length
    cases length
  | exhausted => rfl

theorem skip_eq_exhausted {r : Reader} {n : Nat} (all : r.items.length ≤ n) :
    r.skip n = .exhausted := by
  apply eq_exhausted
  rw [items_skip, List.drop_eq_nil_of_le all]

theorem skip_min (r : Reader) (n : Nat) : r.skip (min n r.items.length) = r.skip n := by
  rcases Nat.le_total n r.items.length with within | beyond
  · rw [Nat.min_eq_left within]
  · rw [Nat.min_eq_right beyond, skip_eq_exhausted (Nat.le_refl _), skip_eq_exhausted beyond]

theorem nth_eq (r : Reader) (n : Nat) : r.nth n = (r.skip n).next := by
  induction n generalizing r with
  | zero => exact nth_zero r
  | succ n ih => rw [nth_succ, ih, skip_succ]

theorem take_succ (r : Reader) (n : Nat) :
    r.take (n + 1) = (r.next.1.toList ++ (r.next.2.take n).1, (r.next.2.take n).2) := by
  cases r with
  | reading text p => rfl
  | exhausted => cases n <;> rfl

theorem take_eq (r : Reader) (n : Nat) : r.take n = (r.items.take n, r.skip n) := by
  induction n generalizing r with
  | zero => cases r <;> rfl
  | succ n ih =>
    rw [take_succ, ih, skip_succ, items_next, next_eq_head?]
    cases r.items with
    | nil => simp
    | cons item items => rfl

theorem skip_ofText {text : Text} {i : Nat} (within : i ≤ text.length) :
    (ofText text).skip i = .reading (text.drop i) (.ofOffset text i) := by
  induction i with
  | zero => rfl
  | succ i ih =>
    rw [← next_skip, ih (Nat.le_of_succ_le within), List.drop_eq_getElem_cons within, next,
      Position.next_eq_ofOffset text i within]

end Skipping

end ShellSyntax.Reader
