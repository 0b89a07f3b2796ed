import ShellSyntax.Proofs.Automaton.Scan
import ShellSyntax.Proofs.Position

/-!
# Legible lists of kinds

A list of kinds is legible in front of a text if it is read back when it is written there: each
kind stands before what follows it. Every text is a legible list in front of its end or of a
fault. So what is emitted for a text, with all spans, is known from its kinds, and tokenizing is
settled by them: it succeeds on the sources of legible lists, and fails where a legible list
stands in front of a fault.

The automaton never looks ahead, and its tokens are nevertheless those of the longest lexemes: on
every text it gives the same kinds, texts and spans, or the same error.
-/

namespace ShellSyntax

abbrev sources (kinds : List Kind) : Text := kinds.flatMap Kind.source

def Legible : List Kind → Text → Prop
  | [], _ => True
  | kind :: kinds, rest => kind.StandsBefore (sources kinds ++ rest) ∧ Legible kinds rest

def Fault.Heads (fault : Fault) (text : Text) : Prop :=
  ∃ c cs, text = c :: cs ∧ lexeme c cs = .error fault

theorem Fault.Heads.errorAt_ofOffset {fault : Fault} {text rest : Text} {i : Nat}
    (heads : fault.Heads rest) (here : text.drop i = rest) :
    fault.errorAt (.ofOffset text i) rest = fault.error text i := by
  obtain ⟨c, cs, rfl, found⟩ := heads
  cases fault with
  | unpaired =>
    obtain ⟨rfl, -⟩ := lexeme_eq_unpaired_iff.mp found
    have amp : text.drop i = ['&'] ++ cs := here
    exact congrArg LexError.unrecognized (Position.advance_ofOffset amp)
  | unclosed =>
    have span := Span.ofText_ofOffset (here.trans (List.append_nil _).symm) (List.cons_ne_nil c cs)
    have last : i + (c :: cs).length - 1 = text.length - 1 := by
      have lengths := congrArg List.length here
      rw [List.length_drop] at lengths
      rw [← lengths]
      have positive : 0 < text.length - i := lengths ▸ Nat.succ_pos _
      omega
    rw [errorAt, error, span, last]

section Place

@[simp] theorem place_append (p : Position) (ks ls : List Kind) :
    place p (ks ++ ls) = place p ks ++ place (p.advance (sources ks)) ls := by
  induction ks generalizing p with
  | nil => rfl
  | cons k ks ih => simp [place, ih]

theorem place_eof (p : Position) : place p [.eof] = [⟨.eof, .point p⟩] := rfl

@[simp] theorem length_place (p : Position) (kinds : List Kind) :
    (place p kinds).length = kinds.length := by
  rw [← List.length_map Token.kind, map_kind_place]

theorem getLast?_place (p : Position) (kinds : List Kind) :
    (place p kinds).getLast?.map Token.kind = kinds.getLast? := by
  rw [← List.getLast?_map, map_kind_place]

theorem render_eq_sources (tokens : List Token) :
    render tokens = sources (tokens.map Token.kind) := by
  rw [render, sources, List.flatMap_map]
  rfl

theorem render_place (p : Position) (kinds : List Kind) :
    render (place p kinds) = sources kinds := by
  rw [render_eq_sources, map_kind_place]

theorem kinds_eq_of_place_eq {p : Position} {kinds : List Kind} {before after : List Token}
    {t : Token} (placed : place p kinds = before ++ t :: after) :
    kinds = before.map Token.kind ++ t.kind :: after.map Token.kind := by
  simpa using congrArg (List.map Token.kind) placed

theorem span_of_place_eq {p : Position} {kinds : List Kind} {before after : List Token}
    {t : Token} (placed : place p kinds = before ++ t :: after) :
    t.span = .ofText (p.advance (render before)) t.source := by
  rw [kinds_eq_of_place_eq placed, place_append, place] at placed
  obtain ⟨-, here⟩ := List.append_inj placed (by simp)
  rw [← (List.cons.inj here).1, render_eq_sources]
  rfl

end Place

namespace Legible

variable {ks ls kinds : List Kind} {rest : Text}

theorem append_iff :
    Legible (ks ++ ls) rest ↔ Legible ks (sources ls ++ rest) ∧ Legible ls rest := by
  induction ks with
  | nil => simp [Legible]
  | cons k ks ih => simp [Legible, ih, and_assoc]

theorem eof_not_mem (legible : Legible kinds rest) : .eof ∉ kinds := by
  induction kinds with
  | nil => exact List.not_mem_nil
  | cons k ks ih =>
    intro member
    rcases List.mem_cons.mp member with same | later
    · exact legible.1.proper same.symm
    · exact ih legible.2 later

theorem source_ne_nil (legible : Legible kinds rest) : ∀ k ∈ kinds, k.source ≠ [] := by
  induction kinds with
  | nil => simp
  | cons k ks ih => exact List.forall_mem_cons.mpr ⟨legible.1.source_ne_nil, ih legible.2⟩

theorem before {later : Text} (legible : Legible kinds rest)
    (apart : ∀ k ∈ kinds.getLast?, ∀ c ∈ later.head?, ¬ k.glues c) : Legible kinds later := by
  induction kinds with
  | nil => trivial
  | cons k ks ih =>
    obtain ⟨stands, further⟩ := legible
    cases ks with
    | nil => exact ⟨⟨stands.readable, stands.proper, apart k rfl⟩, trivial⟩
    | cons l ls =>
      -- The next kind has a source of its own, which hides all that comes after the list.
      refine ⟨⟨stands.readable, stands.proper, ?_⟩, ih further apart⟩
      obtain ⟨d, ds, source⟩ := List.exists_cons_of_ne_nil further.1.source_ne_nil
      have same := stands.apart
      simp only [sources, List.flatMap_cons, source, List.cons_append, List.head?_cons] at same ⊢
      exact same

theorem before_cons {c : Char} {cs : Text} (legible : Legible kinds rest)
    (apart : ∀ k ∈ kinds.getLast?, ¬ k.glues c) : Legible kinds (c :: cs) := by
  apply legible.before
  intro k last d here
  obtain rfl : c = d := Option.some.inj here
  exact apart k last

theorem before_end (legible : Legible kinds rest) : Legible kinds [] :=
  legible.before (fun _ _ _ none => by cases none)

theorem last_apart (legible : Legible kinds rest) :
    ∀ k ∈ kinds.getLast?, ∀ c ∈ rest.head?, ¬ k.glues c := by
  intro k last
  obtain ⟨ks, rfl⟩ := List.getLast?_eq_some_iff.mp last
  exact (append_iff.mp legible).2.1.apart

theorem congr_head {later : Text} (legible : Legible kinds rest)
    (same : later.head? = rest.head?) : Legible kinds later := by
  apply legible.before
  rw [same]
  exact legible.last_apart

theorem scan_append (legible : Legible kinds rest) (p : Position) :
    scan p (sources kinds ++ rest) =
      (scan (p.advance (sources kinds)) rest).after (place p kinds) := by
  induction kinds generalizing p with
  | nil => rfl
  | cons k ks ih =>
    obtain ⟨stands, further⟩ := legible
    rw [sources, List.flatMap_cons, List.append_assoc, scan_source p stands, ih further,
      Outcome.after_after, Position.advance_append]
    rfl

theorem scan_end (legible : Legible kinds []) (p : Position) :
    scan p (sources kinds) = (place p (kinds ++ [.eof]), none) := by
  have whole := legible.scan_append p
  rw [List.append_nil, scan_nil] at whole
  rw [whole, place_append]
  rfl

theorem scan_fault {fault : Fault} (legible : Legible kinds rest) (heads : fault.Heads rest)
    (p : Position) :
    scan p (sources kinds ++ rest) =
      (place p kinds, some (fault.errorAt (p.advance (sources kinds)) rest)) := by
  obtain ⟨c, cs, rfl, found⟩ := heads
  rw [legible.scan_append p, ShellSyntax.scan_fault _ found]
  simp [Outcome.after]

end Legible

/-- Every text falls into lexemes, up to its end or to a fault. -/
theorem exists_legible (text : Text) :
    ∃ kinds rest, text = sources kinds ++ rest ∧ Legible kinds rest ∧
      (rest = [] ∨ ∃ fault : Fault, fault.Heads rest) := by
  induction size : text.length using Nat.strong_induction_on generalizing text with
  | _ n ih =>
    cases text with
    | nil => exact ⟨[], [], rfl, trivial, .inl rfl⟩
    | cons c cs =>
      cases found : lexeme c cs with
      | error fault => exact ⟨[], c :: cs, rfl, trivial, .inr ⟨fault, c, cs, rfl, found⟩⟩
      | ok kind =>
        obtain ⟨later, split, stands⟩ := exists_standsBefore_of_lexeme found
        have shorter : later.length < n := by
          have positive := List.length_pos_iff.mpr stands.source_ne_nil
          have lengths := congrArg List.length split
          rw [List.length_append] at lengths
          omega
        obtain ⟨kinds, rest, rfl, legible, stop⟩ := ih later.length shorter later rfl
        exact ⟨kind :: kinds, rest, by simp [split], ⟨stands, legible⟩, stop⟩

theorem tokenize_sources {kinds : List Kind} (legible : Legible kinds []) :
    tokenize (sources kinds) = .ok (place .origin (kinds ++ [.eof])) := by
  rw [tokenize_eq_result, legible.scan_end]
  rfl

theorem tokenize_fault {kinds : List Kind} {rest : Text} {fault : Fault}
    (legible : Legible kinds rest) (heads : fault.Heads rest) :
    tokenize (sources kinds ++ rest) =
      .error (fault.error (sources kinds ++ rest) (sources kinds).length) := by
  have place : Position.ofOffset (sources kinds ++ rest) (sources kinds).length =
      Position.origin.advance (sources kinds) := Position.ofOffset_append _ _
  rw [tokenize_eq_result, legible.scan_fault heads, ← place,
    heads.errorAt_ofOffset List.drop_left]
  rfl

theorem exists_of_tokenize_eq_ok {text : Text} {tokens : List Token}
    (accepted : tokenize text = .ok tokens) :
    ∃ kinds, Legible kinds [] ∧ text = sources kinds ∧
      tokens = place .origin (kinds ++ [.eof]) := by
  obtain ⟨kinds, rest, rfl, legible, rfl | ⟨fault, heads⟩⟩ := exists_legible text
  · rw [List.append_nil, tokenize_sources legible] at accepted
    cases accepted
    exact ⟨kinds, legible, List.append_nil _, rfl⟩
  · rw [tokenize_fault legible heads] at accepted
    cases accepted

theorem exists_of_tokenize_eq_ok_append {text : Text} {front behind : List Token}
    (accepted : tokenize text = .ok (front ++ behind)) (more : behind ≠ []) :
    ∃ ks ls, Legible (ks ++ ls) [] ∧ text = sources ks ++ sources ls ∧ front = place .origin ks ∧
      behind = place (Position.origin.advance (sources ks)) (ls ++ [.eof]) := by
  obtain ⟨kinds, legible, rfl, tokens⟩ := exists_of_tokenize_eq_ok accepted
  have within : front.length ≤ kinds.length := by
    have positive := List.length_pos_iff.mpr more
    have lengths := congrArg List.length tokens
    rw [length_place, List.length_append, List.length_append, List.length_singleton] at lengths
    omega
  obtain ⟨ks, ls, rfl, size⟩ : ∃ ks ls, kinds = ks ++ ls ∧ front.length = ks.length :=
    ⟨kinds.take front.length, kinds.drop front.length, (List.take_append_drop _ _).symm,
      (List.length_take_of_le within).symm⟩
  rw [List.append_assoc, place_append] at tokens
  obtain ⟨first, second⟩ := List.append_inj tokens (by rw [length_place, size])
  exact ⟨ks, ls, legible, List.flatMap_append, first, second⟩

theorem exists_of_tokenize_eq_error {text : Text} {e : LexError}
    (rejected : tokenize text = .error e) :
    ∃ kinds rest, ∃ fault : Fault, Legible kinds rest ∧ fault.Heads rest ∧
      text = sources kinds ++ rest ∧ e = fault.error text (sources kinds).length := by
  obtain ⟨kinds, rest, rfl, legible, rfl | ⟨fault, heads⟩⟩ := exists_legible text
  · rw [List.append_nil, tokenize_sources legible] at rejected
    cases rejected
  · rw [tokenize_fault legible heads] at rejected
    cases rejected
    exact ⟨kinds, rest, fault, legible, heads, rfl, rfl⟩

theorem result_scan_eq_tokensFrom (text : Text) (i : Nat) :
    (scan (.ofOffset text i) (text.drop i)).result = tokensFrom text i := by
  fun_induction tokensFrom text i with
  | case1 i ended => rw [ended, scan_nil]; rfl
  | case2 i c cs here kind found stop token ih =>
    obtain ⟨rest, split, stands⟩ := exists_standsBefore_of_lexeme found
    have source : text.drop i = kind.source ++ rest := here.trans split
    have later : text.drop stop = rest := by
      rw [← List.drop_drop, source, List.drop_left]
    rw [later] at ih
    rw [source, scan_source _ stands, Outcome.result_after, Position.advance_ofOffset source,
      Span.ofText_ofOffset source stands.source_ne_nil, ih]
    rfl
  | case3 i c cs here fault found =>
    rw [here, scan_fault _ found, Fault.Heads.errorAt_ofOffset ⟨c, cs, rfl, found⟩ here]
    rfl

/-- One pass without lookahead tokenizes every text as longest matching does. -/
theorem tokenize_eq_longestMatch (text : Text) :
    tokenize text = .ofExcept (longestMatch text) := by
  rw [tokenize_eq_result]
  exact congrArg Result.ofExcept (result_scan_eq_tokensFrom text 0)

end ShellSyntax
