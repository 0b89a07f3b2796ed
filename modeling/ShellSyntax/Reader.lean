import ShellSyntax.Position

/-!
# Readers

A reader goes through a text one item at a time. It gives each character with its position, then
one closing item that holds no character and stands just past the last one, and after that
nothing. A reader is a value: whoever keeps an earlier one can read on from there.
-/

namespace ShellSyntax

structure Item where
  char? : Option Char
  position : Position
deriving DecidableEq

inductive Reader where
  | reading (rest : Text) (position : Position)
  | exhausted
deriving DecidableEq

namespace Reader

def ofText (text : Text) : Reader := .reading text .origin

def next : Reader → Option Item × Reader
  | .reading [] p => (some ⟨none, p⟩, .exhausted)
  | .reading (c :: rest) p => (some ⟨some c, p⟩, .reading rest (p.next c))
  | .exhausted => (none, .exhausted)

def nth : Reader → Nat → Option Item × Reader
  | .exhausted, _ => (none, .exhausted)
  | .reading text p, 0 => (reading text p).next
  | .reading text p, n + 1 => (reading text p).next.2.nth n

def take : Reader → Nat → List Item × Reader
  | .exhausted, _ => ([], .exhausted)
  | .reading text p, 0 => ([], .reading text p)
  | .reading text p, n + 1 =>
      let (item?, later) := (reading text p).next
      let (items, last) := later.take n
      (item?.toList ++ items, last)

def itemsFrom (p : Position) : Text → List Item
  | [] => [⟨none, p⟩]
  | c :: rest => ⟨some c, p⟩ :: itemsFrom (p.next c) rest

def items : Reader → List Item
  | .reading text p => itemsFrom p text
  | .exhausted => []

theorem nth_zero (r : Reader) : r.nth 0 = r.next := by
  cases r <;> rfl

theorem nth_succ (r : Reader) (n : Nat) : r.nth (n + 1) = r.next.2.nth n := by
  cases r with
  | reading text p => rfl
  | exhausted => cases n <;> rfl

@[simp] theorem length_itemsFrom (p : Position) (text : Text) :
    (itemsFrom p text).length = text.length + 1 := by
  induction text generalizing p with
  | nil => rfl
  | cons c rest ih => simp [itemsFrom, ih]

end Reader

def itemsOf (text : Text) : List Item := (Reader.ofText text).items

end ShellSyntax
