import Mathlib.Data.List.Basic
import ShellSyntax.Proofs.FirstFault

/-!
# Beginnings of a text

What is read of the beginning of a text can be told from the tokens of the whole, by where the text
is cut off. The tokens in front of the cut stay as they are. A cut within a token leaves a shorter
run, a single sign or a fault, and the end or the error stands at the cut. Of a rejected text, the
beginnings up to the fault are those of an accepted text, and all longer ones have the fault.
-/

namespace ShellSyntax

/-- The text is cut off at offset `i`, behind the first `n` characters of the token `t` and in
front of its last one. -/
structure CutWithin (tokens front : List Token) (t : Token) (i n : Nat) : Prop where
  split : ∃ behind, tokens = front ++ t :: behind
  offset : i = (render front).length + n
  positive : 0 < n
  less : n < t.source.length

/-- What is read of a text with these tokens when it is cut off at offset `i`. -/
inductive CutOff (text : Text) (tokens : List Token) (i : Nat) :
    Result (List Token) → Prop
  | boundary {front behind : List Token} (split : tokens = front ++ behind) (more : behind ≠ [])
      (offset : i = (render front).length) :
      CutOff text tokens i (.ok (front ++ [⟨.eof, .point (.ofOffset text i)⟩]))
  | space {front : List Token} {run : Text} {span : Span} {n : Nat}
      (within : CutWithin tokens front ⟨.space run, span⟩ i n) :
      CutOff text tokens i (.ok (front ++
        [⟨.space (run.take n), ⟨span.first, .ofOffset text (i - 1)⟩⟩,
          ⟨.eof, .point (.ofOffset text i)⟩]))
  | word {front : List Token} {run : Text} {span : Span} {n : Nat}
      (within : CutWithin tokens front ⟨.word run, span⟩ i n) :
      CutOff text tokens i (.ok (front ++
        [⟨.word (run.take n), ⟨span.first, .ofOffset text (i - 1)⟩⟩,
          ⟨.eof, .point (.ofOffset text i)⟩]))
  | sign {front : List Token} {l : Lead} {single : Kind} {span : Span} {n : Nat}
      (within : CutWithin tokens front ⟨l.doubled, span⟩ i n) (alone : l.alone? = some single) :
      CutOff text tokens i (.ok (front ++
        [⟨single, .point span.first⟩, ⟨.eof, .point (.ofOffset text i)⟩]))
  | amp {front : List Token} {span : Span} {n : Nat}
      (within : CutWithin tokens front ⟨.and, span⟩ i n) :
      CutOff text tokens i (.error (.unrecognized (.ofOffset text i)))
  | quoted {front : List Token} {q : Quote} {body : Text} {span : Span} {n : Nat}
      (within : CutWithin tokens front ⟨.quoted q body, span⟩ i n) :
      CutOff text tokens i (.error (.unterminated ⟨span.first, .ofOffset text (i - 1)⟩))

def LexError.cutOff (text : Text) (i : Nat) : LexError → LexError
  | .unrecognized p => .unrecognized p
  | .unterminated span => .unterminated ⟨span.first, .ofOffset text (i - 1)⟩

theorem head?_take_of_pos (rest : Text) {n : Nat} (positive : 0 < n) :
    (rest.take n).head? = rest.head? := by
  rw [List.head?_take, if_neg positive.ne']

theorem Fault.Heads.take {fault : Fault} {rest : Text} (heads : fault.Heads rest) {n : Nat}
    (positive : 0 < n) : fault.Heads (rest.take n) := by
  obtain ⟨c, cs, rfl, found⟩ := heads
  obtain ⟨m, rfl⟩ := Nat.exists_eq_add_one.mpr positive
  refine ⟨c, cs.take m, List.take_succ_cons, ?_⟩
  cases fault with
  | unpaired =>
    obtain ⟨amp, single⟩ := lexeme_eq_unpaired_iff.mp found
    refine lexeme_eq_unpaired_iff.mpr ⟨amp, fun next => single ?_⟩
    rw [List.head?_take] at next
    split_ifs at next
    exact next
  | unclosed =>
    obtain ⟨q, quote, unclosed⟩ := lexeme_eq_unclosed_iff.mp found
    have outside : q.char ∉ cs.take m := fun member => unclosed (List.mem_of_mem_take member)
    exact lexeme_eq_unclosed_iff.mpr ⟨q, quote, outside⟩

theorem Fault.error_take (fault : Fault) {text : Text} {o i : Nat} (later : o < i)
    (within : i ≤ text.length) :
    fault.error (text.take i) o = (fault.error text o).cutOff text i := by
  cases fault with
  | unpaired => rw [error, error, LexError.cutOff, Position.ofOffset_take text later]
  | unclosed =>
    rw [error, error, LexError.cutOff, List.length_take_of_le within,
      Position.ofOffset_take text later.le, Position.ofOffset_take text (i.sub_le 1)]

namespace Legible

variable {text part rest : Text} {ks : List Kind} {i : Nat}

theorem take_sources (split : text = sources ks ++ (part ++ rest))
    (size : i = (sources ks).length + part.length) : text.take i = sources ks ++ part := by
  rw [split, ← List.append_assoc, size, ← List.length_append, List.take_left]

theorem tokenize_take (legible : Legible ks part) {k : Kind} (stands : k.StandsBefore [])
    (source : k.source = part) (split : text = sources ks ++ (part ++ rest))
    (size : i = (sources ks).length + part.length) :
    tokenize (text.take i) = .ok (place .origin ks ++
      [⟨k, ⟨.ofOffset text (sources ks).length, .ofOffset text (i - 1)⟩⟩,
        ⟨.eof, .point (.ofOffset text i)⟩]) := by
  have whole : Legible (ks ++ [k]) [] := by
    refine append_iff.mpr ⟨?_, stands, trivial⟩
    simpa [source] using legible
  have here : text.drop (sources ks).length = part ++ rest := by rw [split, List.drop_left]
  have start : Position.origin.advance (sources ks) = .ofOffset text (sources ks).length := by
    rw [split, Position.ofOffset_append]
  have span := Span.ofText_ofOffset here (source ▸ stands.source_ne_nil)
  calc
    tokenize (text.take i) = tokenize (sources (ks ++ [k])) := by
      rw [take_sources split size]
      simp [source]
    _ = .ok (place .origin ks ++ place (.ofOffset text (sources ks).length) [k, .eof]) := by
      rw [tokenize_sources whole, List.append_assoc, place_append, start]
      rfl
    _ = _ := by
      rw [place, place_eof, source, Position.advance_ofOffset here, span, size]

theorem tokenize_take_fault (legible : Legible ks part) {fault : Fault} (heads : fault.Heads part)
    (split : text = sources ks ++ (part ++ rest))
    (size : i = (sources ks).length + part.length) :
    tokenize (text.take i) =
      .error ((fault.error text (sources ks).length).cutOff text i) := by
  obtain ⟨c, cs, rfl, -⟩ := id heads
  have within : i ≤ text.length := by
    rw [split, size, ← List.append_assoc, List.length_append, List.length_append]
    exact Nat.le_add_right _ _
  have later : (sources ks).length < i := by
    rw [size, List.length_cons]
    omega
  have cut := take_sources split size
  rw [← fault.error_take later within, cut]
  exact tokenize_fault legible heads

end Legible

namespace CutWithin

variable {text : Text} {tokens front : List Token} {t : Token} {i n : Nat}

theorem eq_one (within : CutWithin tokens front t i n) {c d : Char} (source : t.source = [c, d]) :
    n = 1 := by
  have positive := within.positive
  have less := within.less
  rw [source, List.length_cons, List.length_singleton] at less
  omega

theorem exists_kinds (within : CutWithin tokens front t i n)
    (accepted : tokenize text = .ok tokens) :
    ∃ ks rest, Legible ks (t.source.take n) ∧ text = sources ks ++ (t.source.take n ++ rest) ∧
      i = (sources ks).length + n ∧ front = place .origin ks ∧
      t.span.first = .ofOffset text (sources ks).length ∧ t.kind.isReadable := by
  obtain ⟨⟨behind, rfl⟩, rfl, positive, less⟩ := within
  obtain ⟨ks, ls, legible, rfl, rfl, tokens⟩ :=
    exists_of_tokenize_eq_ok_append accepted (List.cons_ne_nil t behind)
  cases ls with
  | nil =>
    obtain ⟨rfl, -⟩ := List.cons.inj tokens
    cases less
  | cons k ls =>
    obtain ⟨rfl, -⟩ := List.cons.inj tokens
    obtain ⟨first, stands, -⟩ := Legible.append_iff.mp legible
    have head : (sources (k :: ls) ++ []).head? = k.source.head? := by
      simp [List.head?_append_of_ne_nil _ stands.source_ne_nil]
    have parts : sources (k :: ls) = k.source.take n ++ (k.source.drop n ++ sources ls) := by
      rw [← List.append_assoc, List.take_append_drop]
      rfl
    refine ⟨ks, _, first.congr_head ?_, congrArg (sources ks ++ ·) parts, ?_, rfl, ?_,
      stands.readable⟩
    · exact (head?_take_of_pos _ positive).trans head.symm
    · rw [render_place]
    · rw [Span.first_ofText, Position.ofOffset_append]

theorem tokenize_take (within : CutWithin tokens front t i n)
    (accepted : tokenize text = .ok tokens) {k : Kind} (readable : t.kind.isReadable → k.isReadable)
    (proper : k ≠ .eof) (source : k.source = t.source.take n) :
    tokenize (text.take i) = .ok (front ++
      [⟨k, ⟨t.span.first, .ofOffset text (i - 1)⟩⟩, ⟨.eof, .point (.ofOffset text i)⟩]) := by
  obtain ⟨ks, rest, legible, split, offset, rfl, first, readable'⟩ := within.exists_kinds accepted
  have stands : k.StandsBefore [] := ⟨readable readable', proper, fun _ none => by cases none⟩
  rw [first]
  apply legible.tokenize_take stands source split
  rw [offset, List.length_take_of_le within.less.le]

theorem tokenize_take_fault (within : CutWithin tokens front t i n)
    (accepted : tokenize text = .ok tokens) {fault : Fault}
    (heads : t.kind.isReadable → fault.Heads (t.source.take n)) :
    ∃ o, i = o + n ∧ t.span.first = .ofOffset text o ∧
      tokenize (text.take i) = .error ((fault.error text o).cutOff text i) := by
  obtain ⟨ks, rest, legible, split, offset, -, first, readable⟩ := within.exists_kinds accepted
  refine ⟨(sources ks).length, offset, first, ?_⟩
  apply legible.tokenize_take_fault (heads readable) split
  rw [offset, List.length_take_of_le within.less.le]

end CutWithin

section Left

variable {run body : Text} {q : Quote} {n : Nat}

theorem isReadable_space_take (positive : 0 < n) (readable : (Kind.space run).isReadable) :
    (Kind.space (run.take n)).isReadable := by
  obtain ⟨nonempty, inside⟩ := Kind.isReadable_space_iff.mp readable
  have left : ∀ c ∈ run.take n, isBlank c := fun c member =>
    inside c (List.mem_of_mem_take member)
  refine Kind.isReadable_space_iff.mpr ⟨?_, left⟩
  simp [positive.ne', nonempty]

theorem isReadable_word_take (positive : 0 < n) (readable : (Kind.word run).isReadable) :
    (Kind.word (run.take n)).isReadable := by
  obtain ⟨nonempty, inside, head⟩ := Kind.isReadable_word_iff.mp readable
  have left : ∀ c ∈ run.take n, !isDelimiter c := fun c member =>
    inside c (List.mem_of_mem_take member)
  refine Kind.isReadable_word_iff.mpr ⟨?_, left, ?_⟩
  · simp [positive.ne', nonempty]
  · rwa [head?_take_of_pos run positive]

theorem heads_take_quoted (positive : 0 < n) (less : n < (Kind.quoted q body).source.length)
    (readable : (Kind.quoted q body).isReadable) :
    Fault.unclosed.Heads ((Kind.quoted q body).source.take n) := by
  have opened : Fault.unclosed.Heads (q.char :: body) :=
    ⟨q.char, body, rfl,
      lexeme_eq_unclosed_iff.mpr ⟨q, rfl, Kind.isReadable_quoted.mp readable⟩⟩
  have within : n ≤ (q.char :: body).length := by
    simp only [Kind.source, List.length_append, List.length_singleton] at less
    omega
  rw [Kind.source, List.take_append_of_le_length within]
  exact opened.take positive

end Left

section CutOff

variable {text : Text} {tokens : List Token} {i : Nat} {result : Result (List Token)}

theorem CutOff.tokenize_take (cut : CutOff text tokens i result)
    (accepted : tokenize text = .ok tokens) : tokenize (text.take i) = result := by
  cases cut with
  | boundary split more offset =>
    subst split
    obtain ⟨ks, ls, legible, rfl, rfl, -⟩ := exists_of_tokenize_eq_ok_append accepted more
    have first := (Legible.append_iff.mp legible).1.before_end
    rw [offset, render_place, List.take_left, tokenize_sources first, place_append, place_eof,
      Position.ofOffset_append]
  | space within =>
    exact within.tokenize_take accepted (isReadable_space_take within.positive) Kind.noConfusion rfl
  | word within =>
    exact within.tokenize_take accepted (isReadable_word_take within.positive) Kind.noConfusion rfl
  | @sign front l single span n within alone =>
    have one : n = 1 := within.eq_one (Lead.source_doubled l)
    have stands : single.StandsBefore [] := (Kind.Form.alone alone (by simp)).standsBefore
    have source : single.source = l.doubled.source.take n := by
      rw [Lead.source_of_alone? alone, Lead.source_doubled, one]
      rfl
    obtain ⟨ks, -, -, -, offset, -, first, -⟩ := within.exists_kinds accepted
    have last : Span.point span.first = ⟨span.first, .ofOffset text (i - 1)⟩ := by
      rw [offset, one, Nat.add_sub_cancel]
      exact congrArg (Span.mk span.first) first
    rw [last]
    exact within.tokenize_take accepted (fun _ => stands.readable) stands.proper source
  | @amp front span n within =>
    have one : n = 1 := within.eq_one rfl
    have heads : Fault.unpaired.Heads (Kind.and.source.take n) := by
      rw [one]
      exact ⟨'&', [], rfl, rfl⟩
    obtain ⟨o, offset, -, error⟩ := within.tokenize_take_fault accepted fun _ => heads
    rw [offset, one] at error ⊢
    exact error
  | quoted within =>
    obtain ⟨o, -, first, error⟩ := within.tokenize_take_fault accepted
      (heads_take_quoted within.positive within.less)
    rw [first]
    exact error

theorem exists_kind_at (kinds : List Kind) (within : i ≤ (sources kinds).length) :
    (∃ ks ls, kinds = ks ++ ls ∧ i = (sources ks).length) ∨
      ∃ ks k ls n, kinds = ks ++ k :: ls ∧ i = (sources ks).length + n ∧ 0 < n ∧
        n < k.source.length := by
  induction kinds generalizing i with
  | nil => exact .inl ⟨[], [], rfl, Nat.le_zero.mp within⟩
  | cons k kinds ih =>
    rw [sources, List.flatMap_cons, List.length_append] at within
    rcases Nat.lt_or_ge i k.source.length with inside | further
    · rcases Nat.eq_zero_or_pos i with rfl | positive
      · exact .inl ⟨[], k :: kinds, rfl, rfl⟩
      · exact .inr ⟨[], k, kinds, i, rfl, (Nat.zero_add i).symm, positive, inside⟩
    · obtain ⟨j, rfl⟩ := Nat.exists_eq_add_of_le further
      rcases ih (Nat.le_of_add_le_add_left within) with
        ⟨ks, ls, rfl, offset⟩ | ⟨ks, l, ls, n, rfl, offset, positive, less⟩
      · exact .inl ⟨k :: ks, ls, rfl, by simp [offset]⟩
      · exact .inr ⟨k :: ks, l, ls, n, rfl, by simp [offset, Nat.add_assoc], positive, less⟩

theorem exists_cutOff_within {front : List Token} {k : Kind} {rest : Text} {span : Span} {n : Nat}
    (form : k.Form rest) (within : CutWithin tokens front ⟨k, span⟩ i n) :
    ∃ result, CutOff text tokens i result := by
  have one (c : Char) (source : k.source = [c]) : False := by
    have positive := within.positive
    have less := within.less
    rw [Token.source, source, List.length_singleton] at less
    omega
  cases form with
  | doubled l =>
    cases alone : l.alone? with
    | some single => exact ⟨_, .sign within alone⟩
    | none =>
      obtain rfl := Lead.alone?_eq_none_iff.mp alone
      exact ⟨_, .amp within⟩
  | alone alone => exact (one _ (Lead.source_of_alone? alone)).elim
  | leftParen => exact (one _ rfl).elim
  | rightParen => exact (one _ rfl).elim
  | space => exact ⟨_, .space within⟩
  | word => exact ⟨_, .word within⟩
  | quoted => exact ⟨_, .quoted within⟩

theorem exists_cutOff (accepted : tokenize text = .ok tokens) (within : i ≤ text.length) :
    ∃ result, CutOff text tokens i result := by
  obtain ⟨kinds, legible, rfl, rfl⟩ := exists_of_tokenize_eq_ok accepted
  rcases exists_kind_at kinds within with
    ⟨ks, ls, rfl, offset⟩ | ⟨ks, k, ls, n, rfl, offset, positive, less⟩
  · have split : place .origin (ks ++ ls ++ [.eof]) =
        place .origin ks ++ place (Position.origin.advance (sources ks)) (ls ++ [.eof]) := by
      rw [List.append_assoc, place_append]
    have more : place (Position.origin.advance (sources ks)) (ls ++ [.eof]) ≠ [] := by
      rw [← List.length_pos_iff, length_place, List.length_append]
      exact Nat.succ_pos _
    exact ⟨_, .boundary split more (by rw [offset, render_place])⟩
  · have form := (Legible.append_iff.mp legible).2.1.form
    have split : place .origin (ks ++ k :: ls ++ [.eof]) =
        place .origin ks ++ ⟨k, .ofText (Position.origin.advance (sources ks)) k.source⟩ ::
          place ((Position.origin.advance (sources ks)).advance k.source) (ls ++ [.eof]) := by
      rw [List.append_assoc, place_append]
      rfl
    exact exists_cutOff_within form ⟨⟨_, split⟩, by rw [offset, render_place], positive, less⟩

theorem tokenize_take_iff (accepted : tokenize text = .ok tokens) (within : i ≤ text.length) :
    CutOff text tokens i result ↔ tokenize (text.take i) = result := by
  constructor
  · intro cut
    exact cut.tokenize_take accepted
  · intro read
    obtain ⟨result, cut⟩ := exists_cutOff accepted within
    rwa [← read, cut.tokenize_take accepted]

end CutOff

section Rejected

variable {text : Text} {e : LexError} {o i : Nat}

theorem exists_tokenize_take_eq_ok (rejected : tokenize text = .error e) (isAt : e.IsAt text o) :
    ∃ tokens, tokenize (text.take o) = .ok tokens := by
  obtain ⟨kinds, rest, fault, legible, -, rfl, rfl, -⟩ := exists_of_isAt rejected isAt
  rw [List.take_left]
  exact ⟨_, tokenize_sources legible.before_end⟩

theorem tokenize_take_eq_error (rejected : tokenize text = .error e) (isAt : e.IsAt text o)
    (behind : o < i) (within : i ≤ text.length) :
    tokenize (text.take i) = .error (e.cutOff text i) := by
  obtain ⟨kinds, rest, fault, legible, heads, split, rfl, rfl⟩ := exists_of_isAt rejected isAt
  obtain ⟨n, rfl⟩ := Nat.exists_eq_add_of_lt behind
  have size : n + 1 ≤ rest.length := by
    rw [split, List.length_append] at within
    omega
  have before : Legible kinds (rest.take (n + 1)) :=
    legible.congr_head (head?_take_of_pos rest n.succ_pos)
  have parts : text = sources kinds ++ (rest.take (n + 1) ++ rest.drop (n + 1)) := by
    rw [List.take_append_drop]
    exact split
  apply before.tokenize_take_fault (heads.take n.succ_pos) parts
  rw [List.length_take_of_le size, Nat.add_assoc]

end Rejected

/-- What is read of any beginning of a text. For an accepted text it is settled by where the cut
falls among the tokens. A rejected text has one offset at which its fault stands. Up to there its
beginnings are those of an accepted text, and all that go further have the fault. -/
theorem tokenize_beginnings :
    (∀ text tokens, tokenize text = .ok tokens → ∀ i ≤ text.length, ∀ result,
      CutOff text tokens i result ↔ tokenize (text.take i) = result) ∧
    ∀ text e, tokenize text = .error e →
      (∃! o, e.IsAt text o) ∧
      ∀ o, e.IsAt text o →
        (∃ tokens, tokenize (text.take o) = .ok tokens ∧ ∀ i ≤ o, ∀ result,
          CutOff (text.take o) tokens i result ↔ tokenize (text.take i) = result) ∧
        ∀ i, o < i → i ≤ text.length → tokenize (text.take i) = .error (e.cutOff text i) := by
  refine ⟨fun text tokens accepted i within result => tokenize_take_iff accepted within, ?_⟩
  intro text e rejected
  refine ⟨existsUnique_isAt rejected, fun o isAt => ⟨?_, ?_⟩⟩
  · obtain ⟨tokens, accepted⟩ := exists_tokenize_take_eq_ok rejected isAt
    refine ⟨tokens, accepted, fun i before result => ?_⟩
    have within : i ≤ (text.take o).length := by
      rw [List.length_take_of_le isAt.lt_length.le]
      exact before
    rw [tokenize_take_iff accepted within, List.take_take, Nat.min_eq_left before]
  · intro i behind within
    exact tokenize_take_eq_error rejected isAt behind within

theorem tokenize_beginnings_cuts :
    let text : Text := "a\n&&'|\n<'||".toList
    let front : List Token :=
      [⟨.word ['a'], .point ⟨1, 0⟩⟩, ⟨.space ['\n'], .point ⟨1, 1⟩⟩,
        ⟨.and, ⟨⟨2, 0⟩, ⟨2, 1⟩⟩⟩, ⟨.quoted .single "|\n<".toList, ⟨⟨2, 2⟩, ⟨3, 1⟩⟩⟩]
    let tokens : List Token := front ++ [⟨.or, ⟨⟨3, 2⟩, ⟨3, 3⟩⟩⟩, ⟨.eof, .point ⟨3, 4⟩⟩]
    tokenize text = .ok tokens ∧
      tokenize (text.take 3) = .error (.unrecognized ⟨2, 1⟩) ∧
      tokenize (text.take 7) = .error (.unterminated ⟨⟨2, 2⟩, ⟨2, 4⟩⟩) ∧
      tokenize (text.take 10) =
        .ok (front ++ [⟨.pipe, .point ⟨3, 2⟩⟩, ⟨.eof, .point ⟨3, 3⟩⟩]) ∧
      (tokenize "a 'b\nc".toList = .error (.unterminated ⟨⟨1, 2⟩, ⟨2, 0⟩⟩) ∧
        tokenize "a 'b".toList = .error (.unterminated ⟨⟨1, 2⟩, ⟨1, 3⟩⟩)) ∧
      tokenize "a&b'".toList = .error (.unrecognized ⟨1, 2⟩) ∧
      tokenize "a&".toList = .error (.unrecognized ⟨1, 2⟩) := by
  intro text front tokens
  have accepted : tokenize text = .ok tokens := rfl
  have opened : tokenize "a 'b\nc".toList = .error (.unterminated ⟨⟨1, 2⟩, ⟨2, 0⟩⟩) := rfl
  have lone : tokenize "a&b'".toList = .error (.unrecognized ⟨1, 2⟩) := rfl
  have amp : CutWithin tokens (front.take 2) ⟨.and, ⟨⟨2, 0⟩, ⟨2, 1⟩⟩⟩ 3 1 :=
    ⟨⟨_, rfl⟩, rfl, by decide, by decide⟩
  have quote : CutWithin tokens (front.take 3)
      ⟨.quoted .single "|\n<".toList, ⟨⟨2, 2⟩, ⟨3, 1⟩⟩⟩ 7 3 :=
    ⟨⟨_, rfl⟩, rfl, by decide, by decide⟩
  have sign : CutWithin tokens front ⟨Lead.pipe.doubled, ⟨⟨3, 2⟩, ⟨3, 3⟩⟩⟩ 10 1 :=
    ⟨⟨_, rfl⟩, rfl, by decide, by decide⟩
  exact ⟨accepted, (tokenize_beginnings.1 _ _ accepted 3 (by decide) _).mp (.amp amp),
    (tokenize_beginnings.1 _ _ accepted 7 (by decide) _).mp (.quoted quote),
    (tokenize_beginnings.1 _ _ accepted 10 (by decide) _).mp (.sign sign rfl),
    ⟨opened, ((tokenize_beginnings.2 _ _ opened).2 2 ⟨⟨.single, rfl⟩, rfl⟩).2 4
      (by decide) (by decide)⟩,
    lone, ((tokenize_beginnings.2 _ _ lone).2 1 ⟨rfl, rfl⟩).2 2 (by decide) (by decide)⟩

end ShellSyntax
