import ShellSyntax.Proofs.Legible

/-!
# The first fault

A text is rejected for the first fault in it. That is an ampersand or a quote which follows an
accepted text: the ampersand has no second one behind it, the quote does not stand in a word and
has no quote of its kind anywhere behind it. There is only one place in a text where this can be,
and it tells where the error is.

An error names positions, and these tell the offset at which the fault stands: that of the ampersand
in front of the position, or of the quote at which the span begins. A rejected text has exactly one
such offset.
-/

namespace ShellSyntax

def EndsInWord (tokens : List Token) : Prop :=
  ∃ t ∈ tokens.dropLast.getLast?, ∃ text, t.kind = .word text

/-- An ampersand that nothing doubles, after a text that is accepted. -/
structure LoneAmp (text before after : Text) : Prop where
  split : text = before ++ '&' :: after
  accepted : ∃ tokens, tokenize before = .ok tokens
  single : after.head? ≠ some '&'

/-- A quote that nothing closes, after a text that is accepted and is not within a word. -/
structure OpenQuote (text before : Text) (quote : Quote) (after : Text) : Prop where
  split : text = before ++ quote.char :: after
  accepted : ∃ tokens, tokenize before = .ok tokens ∧ ¬ EndsInWord tokens
  unclosed : quote.char ∉ after

theorem endsInWord_place {p : Position} {kinds : List Kind} :
    EndsInWord (place p (kinds ++ [.eof])) ↔ ∃ text, kinds.getLast? = some (.word text) := by
  rw [EndsInWord, place_append, place_eof, List.dropLast_concat, ← getLast?_place p kinds]
  simp only [Option.map_eq_some_iff, Option.mem_def]
  constructor
  · intro ⟨t, final, text, word⟩
    exact ⟨text, t, final, word⟩
  · intro ⟨text, t, final, word⟩
    exact ⟨t, final, text, word⟩

theorem Legible.before_quote {kinds : List Kind} {rest : Text} (legible : Legible kinds rest)
    (outside : ¬ EndsInWord (place .origin (kinds ++ [.eof]))) (q : Quote) (v : Text) :
    Legible kinds (q.char :: v) := by
  apply legible.before_cons
  intro k last glued
  obtain ⟨word, rfl⟩ := Kind.glues_quote_iff.mp glued
  exact outside (endsInWord_place.mpr ⟨word, last⟩)

section Unrecognized

variable {text u v : Text}

theorem LoneAmp.tokenize_eq (lone : LoneAmp text u v) :
    tokenize text = .error (.unrecognized (.ofOffset text (u.length + 1))) := by
  obtain ⟨rfl, ⟨tokens, accepted⟩, single⟩ := lone
  obtain ⟨kinds, legible, rfl, -⟩ := exists_of_tokenize_eq_ok accepted
  have apart : ∀ k ∈ kinds.getLast?, ¬ k.glues '&' := fun k _ => k.not_glues_amp
  have heads : Fault.unpaired.Heads ('&' :: v) :=
    ⟨'&', v, rfl, lexeme_eq_unpaired_iff.mpr ⟨rfl, single⟩⟩
  exact tokenize_fault (legible.before_cons apart) heads

theorem exists_loneAmp {p : Position} (rejected : tokenize text = .error (.unrecognized p)) :
    ∃ u v, LoneAmp text u v ∧ p = .ofOffset text (u.length + 1) := by
  obtain ⟨kinds, rest, fault, legible, ⟨c, v, rfl, found⟩, split, error⟩ :=
    exists_of_tokenize_eq_error rejected
  cases fault with
  | unclosed => cases error
  | unpaired =>
    obtain ⟨rfl, single⟩ := lexeme_eq_unpaired_iff.mp found
    have accepted := tokenize_sources legible.before_end
    exact ⟨sources kinds, v, ⟨split, ⟨_, accepted⟩, single⟩, LexError.unrecognized.inj error⟩

theorem LoneAmp.unique {u' v' : Text} (one : LoneAmp text u v) (other : LoneAmp text u' v') :
    u = u' ∧ v = v' := by
  have lengths := congrArg List.length one.split
  have lengths' := congrArg List.length other.split
  rw [List.length_append, List.length_cons] at lengths lengths'
  have error := Result.error.inj (one.tokenize_eq.symm.trans other.tokenize_eq)
  have offset := (Position.ofOffset_inj (by omega) (by omega)).mp (LexError.unrecognized.inj error)
  obtain ⟨before, behind⟩ := List.append_inj (one.split.symm.trans other.split) (by omega)
  exact ⟨before, (List.cons.inj behind).2⟩

theorem LoneAmp.tokenize_congr {w : Text} (lone : LoneAmp text u v) (single : w.head? ≠ some '&') :
    tokenize (u ++ '&' :: w) = tokenize text := by
  have other : LoneAmp (u ++ '&' :: w) u w := ⟨rfl, lone.accepted, single⟩
  have position (after : Text) :
      Position.ofOffset (u ++ '&' :: after) (u.length + 1) =
        Position.origin.advance (u ++ ['&']) := by
    rw [List.append_cons, ← Position.ofOffset_append (u ++ ['&']) after]
    simp
  rw [other.tokenize_eq, lone.tokenize_eq, lone.split, position, position]

end Unrecognized

section Unterminated

variable {text u v : Text} {q : Quote}

theorem OpenQuote.tokenize_eq (opened : OpenQuote text u q v) :
    tokenize text =
      .error (.unterminated ⟨.ofOffset text u.length, .ofOffset text (text.length - 1)⟩) := by
  obtain ⟨rfl, ⟨tokens, accepted, outside⟩, unclosed⟩ := opened
  obtain ⟨kinds, legible, rfl, rfl⟩ := exists_of_tokenize_eq_ok accepted
  have heads : Fault.unclosed.Heads (q.char :: v) :=
    ⟨q.char, v, rfl, lexeme_eq_unclosed_iff.mpr ⟨q, rfl, unclosed⟩⟩
  exact tokenize_fault (legible.before_quote outside q v) heads

theorem exists_openQuote {span : Span} (rejected : tokenize text = .error (.unterminated span)) :
    ∃ u q v, OpenQuote text u q v ∧
      span = ⟨.ofOffset text u.length, .ofOffset text (text.length - 1)⟩ := by
  obtain ⟨kinds, rest, fault, legible, ⟨c, v, rfl, found⟩, split, error⟩ :=
    exists_of_tokenize_eq_error rejected
  cases fault with
  | unpaired => cases error
  | unclosed =>
    obtain ⟨q, rfl, unclosed⟩ := lexeme_eq_unclosed_iff.mp found
    have accepted := tokenize_sources legible.before_end
    refine ⟨sources kinds, q, v, ⟨split, ⟨_, accepted, ?_⟩, unclosed⟩,
      LexError.unterminated.inj error⟩
    intro within
    obtain ⟨word, last⟩ := endsInWord_place.mp within
    exact legible.last_apart _ last _ rfl (Kind.glues_quote_iff.mpr ⟨word, rfl⟩)

theorem OpenQuote.unique {u' v' : Text} {q' : Quote} (one : OpenQuote text u q v)
    (other : OpenQuote text u' q' v') : u = u' ∧ q = q' ∧ v = v' := by
  have lengths := congrArg List.length one.split
  have lengths' := congrArg List.length other.split
  rw [List.length_append, List.length_cons] at lengths lengths'
  have error := Result.error.inj (one.tokenize_eq.symm.trans other.tokenize_eq)
  have first := congrArg Span.first (LexError.unterminated.inj error)
  have offset := (Position.ofOffset_inj (by omega) (by omega)).mp first
  obtain ⟨before, behind⟩ := List.append_inj (one.split.symm.trans other.split) offset
  obtain ⟨quote, after⟩ := List.cons.inj behind
  exact ⟨before, Quote.char_inj.mp quote, after⟩

end Unterminated

/-- A text is rejected exactly for its one lone ampersand or its one open quote, and nothing that
comes after a lone ampersand changes the error. -/
theorem tokenize_rejects_first_fault :
    (∀ text p, tokenize text = .error (.unrecognized p) ↔
      ∃ u v, LoneAmp text u v ∧ p = .ofOffset text (u.length + 1)) ∧
    (∀ text span, tokenize text = .error (.unterminated span) ↔
      ∃ u q v, OpenQuote text u q v ∧
        span = ⟨.ofOffset text u.length, .ofOffset text (text.length - 1)⟩) ∧
    (∀ text u v u' v', LoneAmp text u v → LoneAmp text u' v' → u = u' ∧ v = v') ∧
    (∀ text u q v u' q' v', OpenQuote text u q v → OpenQuote text u' q' v' →
      u = u' ∧ q = q' ∧ v = v') ∧
    ∀ text u v w, LoneAmp text u v → w.head? ≠ some '&' →
      tokenize (u ++ '&' :: w) = tokenize text := by
  refine ⟨fun text p => ⟨exists_loneAmp, ?_⟩, fun text span => ⟨exists_openQuote, ?_⟩,
    fun _ _ _ _ _ => LoneAmp.unique, fun _ _ _ _ _ _ _ => OpenQuote.unique,
    fun _ _ _ _ => LoneAmp.tokenize_congr⟩
  · intro ⟨u, v, lone, position⟩
    rw [position]
    exact lone.tokenize_eq
  · intro ⟨u, q, v, opened, position⟩
    rw [position]
    exact opened.tokenize_eq

theorem tokenize_rejects_first_fault_examples :
    let amp : Text := "'&'\n&b'".toList
    let quote : Text := "a'|'b\nc".toList
    LoneAmp amp "'&'\n".toList "b'".toList ∧
      tokenize amp = .error (.unrecognized ⟨2, 1⟩) ∧
      tokenize "'&'\n&".toList = tokenize amp ∧
      OpenQuote quote "a'|".toList .single "b\nc".toList ∧
      tokenize quote = .error (.unterminated ⟨⟨1, 3⟩, ⟨2, 0⟩⟩) := by
  intro amp quote
  have lone : LoneAmp amp "'&'\n".toList "b'".toList := ⟨rfl, ⟨_, rfl⟩, by decide⟩
  have outside : ¬ EndsInWord (place .origin [.word "a'".toList, .pipe, .eof]) := by
    intro ⟨t, last, text, word⟩
    obtain rfl := Option.some.inj last
    cases word
  have opened : OpenQuote quote "a'|".toList .single "b\nc".toList :=
    ⟨rfl, ⟨_, rfl, outside⟩, by decide⟩
  exact ⟨lone, (tokenize_rejects_first_fault.1 _ _).mpr ⟨_, _, lone, rfl⟩,
    tokenize_rejects_first_fault.2.2.2.2 _ _ _ [] lone (by decide), opened,
    (tokenize_rejects_first_fault.2.1 _ _).mpr ⟨_, _, _, opened, rfl⟩⟩

section Offset

/-- Whether the ampersand or the quote that an error reports is the character at this offset. -/
def LexError.IsAt (text : Text) (o : Nat) : LexError → Prop
  | .unrecognized p => text[o]? = some '&' ∧ p = .ofOffset text (o + 1)
  | .unterminated span => (∃ q : Quote, text[o]? = some q.char) ∧ span.first = .ofOffset text o

variable {text : Text} {e : LexError} {o o' : Nat}

theorem Fault.Heads.isAt {fault : Fault} {before rest : Text} (heads : fault.Heads rest)
    (split : text = before ++ rest) : (fault.error text before.length).IsAt text before.length := by
  subst split
  obtain ⟨c, cs, rfl, found⟩ := heads
  have here : (before ++ c :: cs)[before.length]? = some c := by simp
  cases fault with
  | unpaired =>
    obtain ⟨rfl, -⟩ := lexeme_eq_unpaired_iff.mp found
    exact ⟨here, rfl⟩
  | unclosed =>
    obtain ⟨q, rfl, -⟩ := lexeme_eq_unclosed_iff.mp found
    exact ⟨⟨q, here⟩, rfl⟩

theorem LexError.IsAt.lt_length (isAt : e.IsAt text o) : o < text.length := by
  cases e with
  | unrecognized p => exact (List.getElem?_eq_some_iff.mp isAt.1).1
  | unterminated span =>
    obtain ⟨⟨q, here⟩, -⟩ := isAt
    exact (List.getElem?_eq_some_iff.mp here).1

theorem LexError.IsAt.unique (one : e.IsAt text o) (other : e.IsAt text o') : o = o' := by
  have first := one.lt_length
  have second := other.lt_length
  cases e with
  | unrecognized p =>
    have offset := (Position.ofOffset_inj (by omega) (by omega)).mp (one.2.symm.trans other.2)
    exact Nat.succ_injective offset
  | unterminated span =>
    exact (Position.ofOffset_inj first.le second.le).mp (one.2.symm.trans other.2)

theorem exists_of_isAt (rejected : tokenize text = .error e) (isAt : e.IsAt text o) :
    ∃ kinds rest, ∃ fault : Fault, Legible kinds rest ∧ fault.Heads rest ∧
      text = sources kinds ++ rest ∧ o = (sources kinds).length ∧ e = fault.error text o := by
  obtain ⟨kinds, rest, fault, legible, heads, split, rfl⟩ := exists_of_tokenize_eq_error rejected
  obtain rfl := isAt.unique (heads.isAt split)
  exact ⟨kinds, rest, fault, legible, heads, split, rfl, rfl⟩

theorem existsUnique_isAt (rejected : tokenize text = .error e) : ∃! o, e.IsAt text o := by
  obtain ⟨kinds, rest, fault, -, heads, split, rfl⟩ := exists_of_tokenize_eq_error rejected
  exact ⟨_, heads.isAt split, fun _ other => other.unique (heads.isAt split)⟩

end Offset

end ShellSyntax
