/-!
# Positions and spans

A position names a character of a text by line and column. Lines count from one, columns from
zero and in characters, and a line ends with its newline. Positions are ordered as they are read:
by line, and within a line by column. A span holds the positions of a first and a last character.

The position of an offset can be told without going through the text character by character: the
line is one more than the newlines before it, the column the number of characters since the last
of them. Moving a text to another place shifts its positions.
-/

namespace ShellSyntax

abbrev Text := List Char

structure Position where
  line : Nat
  column : Nat
deriving DecidableEq

namespace Position

def origin : Position := ⟨1, 0⟩

def next (p : Position) (c : Char) : Position :=
  if c = '\n' then ⟨p.line + 1, 0⟩ else ⟨p.line, p.column + 1⟩

def advance (p : Position) (text : Text) : Position :=
  text.foldl next p

@[simp] theorem advance_nil (p : Position) : p.advance [] = p := rfl

@[simp] theorem advance_cons (p : Position) (c : Char) (text : Text) :
    p.advance (c :: text) = (p.next c).advance text := rfl

@[simp] theorem advance_append (p : Position) (u v : Text) :
    p.advance (u ++ v) = (p.advance u).advance v :=
  List.foldl_append

theorem advance_concat (p : Position) (text : Text) (c : Char) :
    p.advance (text ++ [c]) = (p.advance text).next c :=
  advance_append p text [c]

instance : LE Position :=
  ⟨fun p q => p.line < q.line ∨ p.line = q.line ∧ p.column ≤ q.column⟩

instance : LT Position :=
  ⟨fun p q => p.line < q.line ∨ p.line = q.line ∧ p.column < q.column⟩

theorem le_def {p q : Position} :
    p ≤ q ↔ p.line < q.line ∨ p.line = q.line ∧ p.column ≤ q.column := Iff.rfl

theorem lt_def {p q : Position} :
    p < q ↔ p.line < q.line ∨ p.line = q.line ∧ p.column < q.column := Iff.rfl

instance (p q : Position) : Decidable (p ≤ q) :=
  inferInstanceAs (Decidable (p.line < q.line ∨ p.line = q.line ∧ p.column ≤ q.column))

instance (p q : Position) : Decidable (p < q) :=
  inferInstanceAs (Decidable (p.line < q.line ∨ p.line = q.line ∧ p.column < q.column))

instance : Ord Position :=
  ⟨fun p q => compareOfLessAndEq p q⟩

instance : Min Position := minOfLe

instance : Max Position := maxOfLe

def ofOffset (text : Text) (i : Nat) : Position :=
  ⟨1 + (text.take i).count '\n', ((text.take i).reverse.takeWhile (· != '\n')).length⟩

/-- Where a position comes to lie when its text begins at `base`. Only the first line changes
its columns. -/
def shift (base p : Position) : Position :=
  if p.line = 1 then ⟨base.line, base.column + p.column⟩
  else ⟨base.line + (p.line - 1), p.column⟩

theorem next_eq_ofOffset (text : Text) (i : Nat) (h : i < text.length) :
    (ofOffset text i).next text[i] = ofOffset text (i + 1) := by
  have split : text.take (i + 1) = text.take i ++ [text[i]] := List.take_succ_eq_append_getElem h
  simp only [ofOffset, split, next, List.count_append, List.reverse_append]
  by_cases newline : text[i] = '\n'
  · simp [newline]
    omega
  · simp [newline]

theorem advance_take (text : Text) (i : Nat) (h : i ≤ text.length) :
    origin.advance (text.take i) = ofOffset text i := by
  induction i with
  | zero => rfl
  | succ i ih =>
    rw [List.take_succ_eq_append_getElem h, advance_append, ih (by omega), advance_cons,
      advance_nil]
    exact next_eq_ofOffset text i h

end Position

structure Span where
  first : Position
  last : Position
deriving DecidableEq

def Span.point (p : Position) : Span := ⟨p, p⟩

def Span.ofText (p : Position) (text : Text) : Span := ⟨p, p.advance text.dropLast⟩

@[simp] theorem Span.first_ofText (p : Position) (text : Text) : (ofText p text).first = p := rfl

theorem Span.ofText_concat (p : Position) (text : Text) (c : Char) :
    ofText p (text ++ [c]) = ⟨p, p.advance text⟩ := by
  simp [ofText]

def Span.shift (base : Position) (s : Span) : Span := ⟨base.shift s.first, base.shift s.last⟩

end ShellSyntax
