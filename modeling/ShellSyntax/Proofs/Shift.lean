import ShellSyntax.Proofs.Legible

/-!
# Texts that begin elsewhere

Where a text begins shows in the positions alone. The tokens and the error of a text that begins
at some position are those of the same text at the origin, shifted there. So a text that is read
on behind a legible list of kinds gives what it gives by itself, behind the tokens of that list and
shifted to where they end.
-/

namespace ShellSyntax

namespace Position

variable {p : Position}

theorem shift_origin (base : Position) : base.shift origin = base := rfl

theorem shift_next (counted : 0 < p.line) (base : Position) (c : Char) :
    base.shift (p.next c) = (base.shift p).next c := by
  have later : p.line + 1 ≠ 1 := by omega
  by_cases newline : c = '\n'
  · by_cases first : p.line = 1
    · simp [next, newline, shift, first]
    · simp only [next, newline, if_true, shift, later, if_false, first]
      congr 1
      omega
  · by_cases first : p.line = 1
    · simp [next, newline, shift, first, Nat.add_assoc]
    · simp [next, newline, shift, first]

theorem line_next_pos (counted : 0 < p.line) (c : Char) : 0 < (p.next c).line := by
  rw [next]
  split_ifs
  · exact Nat.succ_pos p.line
  · exact counted

theorem shift_advance (counted : 0 < p.line) (base : Position) (text : Text) :
    base.shift (p.advance text) = (base.shift p).advance text := by
  induction text generalizing p with
  | nil => rfl
  | cons c rest ih => rw [advance_cons, ih (line_next_pos counted c), shift_next counted]; rfl

theorem shift_origin_advance (base : Position) (text : Text) :
    base.shift (origin.advance text) = base.advance text := by
  rw [shift_advance Nat.one_pos, shift_origin]

end Position

theorem Span.shift_ofText (base : Position) (u text : Text) :
    Span.shift base (.ofText (Position.origin.advance u) text) = .ofText (base.advance u) text := by
  simp only [Span.shift, Span.ofText, ← Position.advance_append, Position.shift_origin_advance]

def Token.shift (base : Position) (t : Token) : Token := ⟨t.kind, t.span.shift base⟩

def LexError.shift (base : Position) : LexError → LexError
  | .unrecognized p => .unrecognized (base.shift p)
  | .unterminated span => .unterminated (span.shift base)

def Outcome.shift (base : Position) (o : Outcome) : Outcome :=
  (o.1.map (Token.shift base), o.2.map (LexError.shift base))

/-- What is read from a text behind the tokens `front`, when `base` is where they end and the
text by itself has this result. -/
def resume (base : Position) (front : List Token) : Result (List Token) → Result (List Token)
  | .ok tokens => .ok (front ++ tokens.map (Token.shift base))
  | .error e => .error (e.shift base)
  | .stuck => .stuck

theorem Outcome.result_after_shift (base : Position) (front : List Token) (o : Outcome) :
    .ofExcept ((o.shift base).after front).result = resume base front (.ofExcept o.result) := by
  obtain ⟨tokens, _ | e⟩ := o <;> rfl

section Shift

variable (base : Position)

theorem map_shift_place (u : Text) (kinds : List Kind) :
    (place (Position.origin.advance u) kinds).map (Token.shift base) =
      place (base.advance u) kinds := by
  induction kinds generalizing u with
  | nil => rfl
  | cons k ks ih =>
    have later := ih (u ++ k.source)
    rw [Position.advance_append, Position.advance_append] at later
    rw [place, place, List.map_cons, later, Token.shift, Span.shift_ofText]

theorem shift_errorAt (fault : Fault) (u text : Text) :
    (fault.errorAt (Position.origin.advance u) text).shift base =
      fault.errorAt (base.advance u) text := by
  cases fault with
  | unpaired =>
    rw [Fault.errorAt, Fault.errorAt, LexError.shift, ← Position.advance_concat,
      ← Position.advance_concat, Position.shift_origin_advance]
  | unclosed => rw [Fault.errorAt, Fault.errorAt, LexError.shift, Span.shift_ofText]

theorem scan_eq_shift (text : Text) : scan base text = (scan .origin text).shift base := by
  obtain ⟨kinds, rest, rfl, legible, rfl | ⟨fault, heads⟩⟩ := exists_legible text
  · have placed := map_shift_place base [] (kinds ++ [.eof])
    rw [List.append_nil, legible.scan_end, legible.scan_end]
    exact Prod.ext placed.symm rfl
  · have placed := map_shift_place base [] kinds
    have error := shift_errorAt base fault (sources kinds) rest
    rw [legible.scan_fault heads, legible.scan_fault heads]
    exact Prod.ext placed.symm (congrArg some error.symm)

end Shift

theorem Legible.tokenize_append {kinds : List Kind} {rest : Text} (legible : Legible kinds rest) :
    tokenize (sources kinds ++ rest) =
      resume (Position.origin.advance (sources kinds)) (place .origin kinds) (tokenize rest) := by
  rw [tokenize_eq_result, legible.scan_append, scan_eq_shift, Outcome.result_after_shift,
    ← tokenize_eq_result]

end ShellSyntax
