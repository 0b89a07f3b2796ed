import Mathlib.Algebra.Ring.Parity
import ShellSyntax.Proofs.Canonical
import ShellSyntax.Proofs.FirstFault
import ShellSyntax.Proofs.Reader.Enumeration

/-!
# The line of an error

An error names a line and a column, and there the fault can be seen. An open quote stands at the
column itself, and no other of its kind follows in that line or in a later one. A lone ampersand
stands in front of the column. Side by side with others it is the last of an odd number, since all
that is read in front of it are pairs.
-/

namespace ShellSyntax

/-- The number of ampersands side by side at the end of a text. -/
def trailingAmps (text : Text) : Nat := (text.reverse.takeWhile (· == '&')).length

/-- What is seen of an error in the lines of its text, when `row` is the line of this number. -/
def LexError.ShowsIn (text : Text) (number : Nat) (row : Text) : LexError → Prop
  | .unrecognized p =>
    p.line = number ∧ 1 ≤ p.column ∧ p.column ≤ row.length ∧
      row[p.column - 1]? = some '&' ∧ row[p.column]? ≠ some '&' ∧
      Odd (trailingAmps (row.take p.column))
  | .unterminated span =>
    (∃ q : Quote, row[span.first.column]? = some q.char ∧
      q.char ∉ row.drop (span.first.column + 1) ∧
      ∀ later ∈ (lines text).drop number, q.char ∉ later) ∧
    span.first ≤ span.last ∧
    ∃ c, text.getLast? = some c ∧ (itemsOf text)[text.length - 1]? = some ⟨some c, span.last⟩

section Parity

variable {kinds : List Kind} {k : Kind}

theorem trailingAmps_concat (text : Text) (c : Char) :
    trailingAmps (text ++ [c]) = if c = '&' then trailingAmps text + 1 else 0 := by
  rw [trailingAmps, List.reverse_append, List.reverse_singleton, List.singleton_append,
    List.takeWhile_cons]
  by_cases amp : c = '&'
  · rw [if_pos (beq_iff_eq.mpr amp), if_pos amp]
    rfl
  · rw [if_neg (by simpa using amp), if_neg amp]
    rfl

theorem trailingAmps_newline (text line : Text) :
    trailingAmps (text ++ '\n' :: line) = trailingAmps line := by
  induction line using List.reverseRecOn with
  | nil => exact trailingAmps_concat text '\n'
  | append_singleton line c ih =>
    rw [trailingAmps_concat, ← ih, ← trailingAmps_concat, List.append_assoc, List.cons_append]

theorem exists_concat_of_forall {p : Char → Bool} {text : Text} (amp : p '&' = false)
    (nonempty : text ≠ []) (each : ∀ c ∈ text, p c) : ∃ front c, text = front ++ [c] ∧ c ≠ '&' := by
  refine ⟨text.dropLast, text.getLast nonempty, (List.dropLast_concat_getLast nonempty).symm, ?_⟩
  intro same
  have last := each _ (List.getLast_mem nonempty)
  rw [same, amp] at last
  cases last

theorem Kind.eq_and_or_ends (readable : k.isReadable) :
    k = .and ∨ k = .eof ∨ ∃ front c, k.source = front ++ [c] ∧ c ≠ '&' := by
  cases k with
  | and => exact .inl rfl
  | eof => exact .inr (.inl rfl)
  | space text =>
    obtain ⟨nonempty, blank⟩ := isReadable_space_iff.mp readable
    exact .inr (.inr (exists_concat_of_forall rfl nonempty blank))
  | word text =>
    obtain ⟨nonempty, inside, -⟩ := isReadable_word_iff.mp readable
    exact .inr (.inr (exists_concat_of_forall rfl nonempty inside))
  | quoted q body =>
    refine .inr (.inr ⟨q.char :: body, q.char, rfl, ?_⟩)
    cases q <;> decide
  | or => exact .inr (.inr ⟨['|'], '|', rfl, by decide⟩)
  | pipe => exact .inr (.inr ⟨[], '|', rfl, by decide⟩)
  | less => exact .inr (.inr ⟨[], '<', rfl, by decide⟩)
  | doubleLess => exact .inr (.inr ⟨['<'], '<', rfl, by decide⟩)
  | great => exact .inr (.inr ⟨[], '>', rfl, by decide⟩)
  | doubleGreat => exact .inr (.inr ⟨['>'], '>', rfl, by decide⟩)
  | leftParen => exact .inr (.inr ⟨[], '(', rfl, by decide⟩)
  | rightParen => exact .inr (.inr ⟨[], ')', rfl, by decide⟩)

theorem even_trailingAmps (readable : ∀ k ∈ kinds, k.isReadable) :
    Even (trailingAmps (sources kinds)) := by
  induction kinds using List.reverseRecOn with
  | nil => exact Even.zero
  | append_singleton ks k ih =>
    obtain ⟨before, last⟩ := List.forall_mem_append.mp readable
    have pairs := ih before
    have source : sources (ks ++ [k]) = sources ks ++ k.source := by simp
    rw [source]
    rcases Kind.eq_and_or_ends (last k (List.mem_singleton_self k)) with
      rfl | rfl | ⟨front, c, ends, other⟩
    · have two : sources ks ++ Kind.and.source = sources ks ++ ['&'] ++ ['&'] := by
        simp [Kind.source]
      rw [two, trailingAmps_concat, if_pos rfl, trailingAmps_concat, if_pos rfl]
      exact pairs.add even_two
    · rw [Kind.source, List.append_nil]
      exact pairs
    · rw [ends, ← List.append_assoc, trailingAmps_concat, if_neg other]
      exact Even.zero

end Parity

section Errors

variable {text u v : Text} {q : Quote}

theorem LoneAmp.exists_line (lone : LoneAmp text u v) :
    ∃ earlier before after later,
      lines text = earlier ++ (before ++ '&' :: after) :: later ∧
      Position.ofOffset text (u.length + 1) = ⟨earlier.length + 1, before.length + 1⟩ ∧
      after.head? ≠ some '&' ∧ Even (trailingAmps before) := by
  obtain ⟨rfl, ⟨tokens, accepted⟩, single⟩ := lone
  obtain ⟨kinds, legible, rfl, -⟩ := exists_of_tokenize_eq_ok accepted
  obtain ⟨earlier, before, after, later, here, position, within, ⟨rest, rfl⟩, -⟩ :=
    exists_line_of_char (sources kinds) v (c := '&') (by decide)
  refine ⟨earlier, before, after, later, here, ?_, ?_, ?_⟩
  · rw [← Position.next_eq_ofOffset _ _ (by simp), Position.ofOffset_append, position]
    simp [Position.next]
  · intro amp
    obtain ⟨others, rfl⟩ := List.head?_eq_some_iff.mp amp
    exact single rfl
  · have pairs := even_trailingAmps legible.readable
    rcases within with same | ⟨a, split⟩
    · rwa [same] at pairs
    · rwa [split, trailingAmps_newline] at pairs

theorem OpenQuote.exists_line (opened : OpenQuote text u q v) :
    ∃ earlier before after later,
      lines text = earlier ++ (before ++ q.char :: after) :: later ∧
      Position.ofOffset text u.length = ⟨earlier.length + 1, before.length⟩ ∧
      q.char ∉ after ∧ ∀ line ∈ later, q.char ∉ line := by
  obtain ⟨rfl, -, unclosed⟩ := opened
  have inLine : q.char ≠ '\n' := by cases q <;> decide
  obtain ⟨earlier, before, after, later, here, position, -, rest, others⟩ :=
    exists_line_of_char u v inLine
  refine ⟨earlier, before, after, later, here, ?_, ?_, ?_⟩
  · rw [Position.ofOffset_append, position]
  · exact fun member => unclosed (rest.subset member)
  · exact fun line member inside => unclosed (others line member inside)

theorem OpenQuote.ends (opened : OpenQuote text u q v) :
    Position.ofOffset text u.length ≤ .ofOffset text (text.length - 1) ∧
      ∃ c, text.getLast? = some c ∧
        (itemsOf text)[text.length - 1]? = some ⟨some c, .ofOffset text (text.length - 1)⟩ := by
  obtain ⟨rfl, -, -⟩ := opened
  have size : (u ++ q.char :: v).length = u.length + v.length + 1 := by simp [Nat.add_assoc]
  have last : (u ++ q.char :: v).length - 1 < (u ++ q.char :: v).length := by omega
  constructor
  · rcases Nat.eq_or_lt_of_le (show u.length ≤ (u ++ q.char :: v).length - 1 by omega) with
      same | before
    · rw [← same]
    · exact (Position.ofOffset_lt_ofOffset before (Nat.le_of_lt last)).le
  · refine ⟨(u ++ q.char :: v)[(u ++ q.char :: v).length - 1], ?_, ?_⟩
    · rw [List.getLast?_eq_getElem?, List.getElem?_eq_getElem last]
    · rw [itemsOf, Reader.getElem?_items, Reader.next_skip_ofText (Nat.le_of_lt last),
        List.getElem?_eq_getElem last]

variable {earlier later : List Text} {before after : Text}

theorem showsIn_of_amp (number : Nat) (single : after.head? ≠ some '&')
    (pairs : Even (trailingAmps before)) :
    (LexError.unrecognized ⟨number, before.length + 1⟩).ShowsIn text number
      (before ++ '&' :: after) := by
  have split : before ++ '&' :: after = (before ++ ['&']) ++ after := List.append_cons ..
  have size : (before ++ ['&']).length = before.length + 1 := List.length_append
  refine ⟨rfl, Nat.le_add_left _ _, by simp, by simp, ?_, ?_⟩
  · rwa [split, ← size, List.getElem?_append_right (Nat.le_refl _), Nat.sub_self,
      ← List.head?_eq_getElem?]
  · rw [split, ← size, List.take_left, trailingAmps_concat, if_pos rfl]
    exact pairs.add_one

theorem showsIn_of_quote {last : Position}
    (here : lines text = earlier ++ (before ++ q.char :: after) :: later)
    (rest : q.char ∉ after) (others : ∀ line ∈ later, q.char ∉ line)
    (order : ⟨earlier.length + 1, before.length⟩ ≤ last)
    (ends : ∃ c, text.getLast? = some c ∧ (itemsOf text)[text.length - 1]? = some ⟨some c, last⟩) :
    (LexError.unterminated ⟨⟨earlier.length + 1, before.length⟩, last⟩).ShowsIn text
      (earlier.length + 1) (before ++ q.char :: after) := by
  refine ⟨⟨q, by simp, ?_, ?_⟩, order, ends⟩
  · simpa using rest
  · simpa [here] using others

end Errors

/-- The line that an error names exists, and the fault can be seen in it. -/
theorem tokenize_error_shows {text : Text} {e : LexError} (rejected : tokenize text = .error e) :
    1 ≤ e.line ∧ ∃ row, (lines text)[e.line - 1]? = some row ∧ e.ShowsIn text e.line row := by
  cases e with
  | unrecognized p =>
    obtain ⟨u, v, lone, rfl⟩ := exists_loneAmp rejected
    obtain ⟨earlier, before, after, later, here, position, single, pairs⟩ := lone.exists_line
    rw [position]
    refine ⟨Nat.le_add_left _ _, before ++ '&' :: after, ?_, showsIn_of_amp _ single pairs⟩
    simp [here, LexError.line, LexError.span, Span.point]
  | unterminated span =>
    obtain ⟨u, q, v, opened, rfl⟩ := exists_openQuote rejected
    obtain ⟨earlier, before, after, later, here, position, rest, others⟩ := opened.exists_line
    obtain ⟨order, ends⟩ := opened.ends
    rw [position] at order ⊢
    refine ⟨Nat.le_add_left _ _, before ++ q.char :: after, ?_,
      showsIn_of_quote here rest others order ends⟩
    simp [here, LexError.line, LexError.span]

theorem tokenize_error_shows_lines :
    let amps : Text := "'&'\n&&&b'".toList
    let quote : Text := "a'\n\x22it's\nc".toList
    tokenize amps = .error (.unrecognized ⟨2, 3⟩) ∧
      (LexError.unrecognized ⟨2, 3⟩).ShowsIn amps 2 "&&&b'".toList ∧
      tokenize quote = .error (.unterminated ⟨⟨2, 0⟩, ⟨3, 0⟩⟩) ∧
      (LexError.unterminated ⟨⟨2, 0⟩, ⟨3, 0⟩⟩).ShowsIn quote 2 "\x22it's".toList := by
  intro amps quote
  have lone : tokenize amps = .error (.unrecognized ⟨2, 3⟩) := rfl
  have opened : tokenize quote = .error (.unterminated ⟨⟨2, 0⟩, ⟨3, 0⟩⟩) := rfl
  obtain ⟨-, amp, second, pairs⟩ := tokenize_error_shows lone
  obtain ⟨-, word, other, unclosed⟩ := tokenize_error_shows opened
  obtain rfl := Option.some.inj second
  obtain rfl := Option.some.inj other
  exact ⟨lone, pairs, opened, unclosed⟩

end ShellSyntax
