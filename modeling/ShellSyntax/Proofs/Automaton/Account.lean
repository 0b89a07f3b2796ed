import Mathlib.Data.List.Basic
import ShellSyntax.Proofs.Automaton.Scan
import ShellSyntax.Proofs.Reader.Items

/-!
# Accounting for what has been read

At any time the tokens that have been emitted, followed by the pending text, are exactly the text
that has been read. The pending text is that of a readable kind, and its span is where it stands.
Each step keeps this, also one that closes a token and reads its item again, so it holds of a fresh
lexer that has been fed any beginning of a text without error.
-/

namespace ShellSyntax

structure State.Sound (s : State) (p : Position) : Prop where
  unfinished : s ≠ .finished
  placed : ∀ span ∈ s.pendingSpan?, span = .ofText p s.pending
  readable : ∀ kind ∈ s.pendingKind?, kind.isReadable

/-- Whether the tokens and the state hold the whole of a text that begins at `p`. -/
structure Move.Accounts (m : Move) (p : Position) (text : Text) : Prop where
  proper : ∀ t ∈ m.emitted, t.kind ≠ .eof
  written : render m.emitted ++ m.state.pending = text
  sound : m.state.Sound (p.advance (render m.emitted))

section Kinds

variable {text : Text} {c : Char}

theorem isReadable_space_concat (readable : (Kind.space text).isReadable) (blank : isBlank c) :
    (Kind.space (text ++ [c])).isReadable := by
  obtain ⟨-, inside⟩ := Kind.isReadable_space_iff.mp readable
  refine Kind.isReadable_space_iff.mpr ⟨by simp, ?_⟩
  exact List.forall_mem_append.mpr ⟨inside, List.forall_mem_singleton.mpr blank⟩

theorem isReadable_word_concat (readable : (Kind.word text).isReadable)
    (plain : !isDelimiter c) : (Kind.word (text ++ [c])).isReadable := by
  obtain ⟨nonempty, inside, head⟩ := Kind.isReadable_word_iff.mp readable
  refine Kind.isReadable_word_iff.mpr ⟨by simp, ?_, ?_⟩
  · exact List.forall_mem_append.mpr ⟨inside, List.forall_mem_singleton.mpr plain⟩
  · rwa [List.head?_append_of_ne_nil _ nonempty]

theorem isReadable_quoted_concat {q : Quote} (readable : (Kind.quoted q text).isReadable)
    (inside : c ≠ q.char) : (Kind.quoted q (text ++ [c])).isReadable := by
  rw [Kind.isReadable_quoted] at readable ⊢
  simp [readable, inside.symm]

end Kinds

namespace Move

variable {m n : Move} {p : Position} {text more : Text} {t : Token}

theorem Accounts.andThen (first : m.Accounts p text)
    (second : n.Accounts (p.advance (render m.emitted)) (m.state.pending ++ more)) :
    (Move.mk (m.emitted ++ n.emitted) n.state).Accounts p (text ++ more) where
  proper := List.forall_mem_append.mpr ⟨first.proper, second.proper⟩
  written := by
    rw [render_append, List.append_assoc, second.written, ← List.append_assoc, first.written]
  sound := by
    rw [render_append, Position.advance_append]
    exact second.sound

theorem accounts_completed (proper : t.kind ≠ .eof) (source : t.source = text) :
    (Move.mk [t] .between).Accounts p text where
  proper := List.forall_mem_singleton.mpr proper
  written := by simp [State.pending, source]
  sound := ⟨State.noConfusion, nofun, nofun⟩

end Move

namespace State

variable {s grown : State} {p : Position} {c : Char} {t : Token}

theorem accounts_grown (unfinished : grown ≠ .finished)
    (pending : grown.pending = s.pending ++ [c])
    (span : grown.pendingSpan? = some ⟨p, p.advance s.pending⟩)
    (readable : ∀ kind ∈ grown.pendingKind?, kind.isReadable) :
    (Move.mk [] grown).Accounts p (s.pending ++ [c]) where
  proper := nofun
  written := pending
  sound := by
    refine ⟨unfinished, ?_, readable⟩
    intro reached here
    rw [span] at here
    rw [pending, ← Option.some.inj here]
    exact (Span.ofText_concat p s.pending c).symm

theorem accounts_enter (p : Position) (c : Char) : (enter ⟨some c, p⟩).Accounts p [c] := by
  simp only [enter]
  cases charClass : CharClass.of c with
  | lead l =>
    obtain rfl := CharClass.of_eq_lead_iff.mp charClass
    exact accounts_grown (s := .between) State.noConfusion rfl rfl (by simp [pendingKind?])
  | leftParen =>
    obtain rfl := CharClass.of_eq_leftParen_iff.mp charClass
    exact Move.accounts_completed Kind.noConfusion rfl
  | rightParen =>
    obtain rfl := CharClass.of_eq_rightParen_iff.mp charClass
    exact Move.accounts_completed Kind.noConfusion rfl
  | quote q =>
    obtain rfl := CharClass.of_eq_quote_iff.mp charClass
    have readable : (Kind.quoted q []).isReadable := rfl
    exact accounts_grown (s := .between) State.noConfusion rfl rfl (by simpa [pendingKind?])
  | blank =>
    have readable : (Kind.space [c]).isReadable :=
      Kind.isReadable_space_cons.mpr ⟨isBlank_iff.mpr charClass, List.forall_mem_nil _⟩
    exact accounts_grown (s := .between) State.noConfusion rfl rfl (by simpa [pendingKind?])
  | plain =>
    have readable : (Kind.word [c]).isReadable :=
      Kind.isReadable_word_cons.mpr ⟨charClass, List.forall_mem_nil _⟩
    exact accounts_grown (s := .between) State.noConfusion rfl rfl (by simpa [pendingKind?])

theorem accounts_closed (proper : t.kind ≠ .eof) (source : t.source = s.pending) :
    ((enter ⟨some c, p.advance s.pending⟩).after t).Accounts p (s.pending ++ [c]) := by
  have closed : (Move.mk [t] .between).Accounts p s.pending :=
    Move.accounts_completed proper source
  apply closed.andThen
  simpa [source, pending] using accounts_enter (p.advance s.pending) c

theorem accounts_stepLead {l : Lead} {start : Position} {m : Move}
    (taken : stepLead l start ⟨some c, p.advance [l.char]⟩ = .ok m) :
    m.Accounts p [l.char, c] := by
  rw [stepLead] at taken
  by_cases pair : some c = some l.char
  · obtain rfl := Option.some.inj pair
    rw [if_pos rfl] at taken
    cases taken
    exact Move.accounts_completed (by cases l <;> exact Kind.noConfusion) l.source_doubled
  · rw [if_neg pair] at taken
    cases alone : l.alone? with
    | none =>
      rw [alone] at taken
      cases taken
    | some kind =>
      rw [alone] at taken
      cases taken
      have proper : kind ≠ .eof := by cases l <;> cases alone <;> exact Kind.noConfusion
      exact accounts_closed (s := .lead l start) proper (Lead.source_of_alone? alone)

theorem Sound.accounts_step {m : Move} (sound : s.Sound p)
    (taken : s.step ⟨some c, p.advance s.pending⟩ = .ok m) :
    m.Accounts p (s.pending ++ [c]) := by
  cases s with
  | between =>
    cases taken
    exact accounts_enter p c
  | lead l start => exact accounts_stepLead taken
  | space span read =>
    have placed : span = .ofText p read.reverse := sound.placed span rfl
    have readable : (Kind.space read.reverse).isReadable := sound.readable _ rfl
    subst placed
    by_cases blank : isBlank c
    · rw [space_takes c blank] at taken
      cases taken
      have longer := isReadable_space_concat readable blank
      exact accounts_grown State.noConfusion (by simp [pending]) rfl (by simpa [pendingKind?])
    · rw [space_closes (some c) (by simpa using blank)] at taken
      cases taken
      exact accounts_closed Kind.noConfusion rfl
  | word span read =>
    have placed : span = .ofText p read.reverse := sound.placed span rfl
    have readable : (Kind.word read.reverse).isReadable := sound.readable _ rfl
    subst placed
    by_cases plain : !isDelimiter c
    · rw [word_takes c plain] at taken
      cases taken
      have longer := isReadable_word_concat readable plain
      exact accounts_grown State.noConfusion (by simp [pending]) rfl (by simpa [pendingKind?])
    · rw [word_closes (some c) (by simpa using plain)] at taken
      cases taken
      exact accounts_closed Kind.noConfusion rfl
  | quoted q span read =>
    have placed : span = .ofText p (q.char :: read.reverse) := sound.placed span rfl
    have readable : (Kind.quoted q read.reverse).isReadable := sound.readable _ rfl
    subst placed
    by_cases closing : c = q.char
    · subst closing
      simp only [step, stepQuoted, if_true] at taken
      cases taken
      exact Move.accounts_completed Kind.noConfusion rfl
    · rw [quoted_takes q c (bne_iff_ne.mpr closing)] at taken
      cases taken
      have longer := isReadable_quoted_concat readable closing
      exact accounts_grown State.noConfusion (by simp [pending]) rfl (by simpa [pendingKind?])
  | finished => exact absurd rfl sound.unfinished

end State

namespace Lexer

variable {lexer later : Lexer} {text : Text}

def held (lexer : Lexer) : Move := ⟨lexer.emitted.toList, lexer.state⟩

theorem accounts_fresh : fresh.held.Accounts .origin [] where
  proper := nofun
  written := rfl
  sound := ⟨State.noConfusion, nofun, nofun⟩

theorem accounts_accept {c : Char} {move : Move} (known : lexer.held.Accounts .origin text)
    (taken : lexer.state.step ⟨some c, Position.origin.advance text⟩ = .ok move) :
    (lexer.accept move).held.Accounts .origin (text ++ [c]) := by
  have here : Position.origin.advance text =
      (Position.origin.advance (render lexer.emitted.toList)).advance lexer.state.pending := by
    rw [← Position.advance_append]
    exact congrArg Position.origin.advance known.written.symm
  rw [here] at taken
  have further := known.andThen (known.sound.accounts_step taken)
  simpa [held, accept] using further

theorem accounts_run (known : lexer.held.Accounts .origin text) (more : Text)
    (fed : lexer.run (Reader.charItems (Position.origin.advance text) more) = (later, .ok ())) :
    later.held.Accounts .origin (text ++ more) := by
  induction more generalizing lexer text with
  | nil =>
    cases fed
    simpa using known
  | cons c more ih =>
    rw [Reader.charItems] at fed
    cases taken : lexer.state.step ⟨some c, Position.origin.advance text⟩ with
    | ok move =>
      rw [run_of_step taken, ← Position.advance_concat] at fed
      rw [List.append_cons]
      exact ih (accounts_accept known taken) fed
    | error e =>
      rw [run_of_error taken] at fed
      cases fed
    | stuck =>
      rw [run_of_stuck taken] at fed
      cases fed

/-- What a lexer holds when it has been fed the first `i` characters of a text. -/
structure Holds (lexer : Lexer) (text : Text) (i : Nat) : Prop where
  unfinished : lexer.state ≠ .finished
  proper : ∀ t ∈ lexer.emitted, t.kind ≠ .eof
  written : render lexer.emitted.toList ++ lexer.state.pending = text.take i
  first : ∀ span ∈ lexer.state.pendingSpan?,
    span.first = .ofOffset text (render lexer.emitted.toList).length
  last : ∀ span ∈ lexer.state.pendingSpan?, span.last = .ofOffset text (i - 1)
  readable : ∀ kind ∈ lexer.state.pendingKind?, kind.isReadable

end Lexer

section Beginnings

variable {text : Text} {i : Nat} {lexer : Lexer}

theorem State.Sound.pending_ne_nil {s : State} {p : Position} {span : Span} (sound : s.Sound p)
    (here : span ∈ s.pendingSpan?) : s.pending ≠ [] := by
  cases s with
  | between => cases here
  | lead l start => exact List.cons_ne_nil _ _
  | space span read => exact (Kind.isReadable_space_iff.mp (sound.readable _ rfl)).1
  | word span read => exact (Kind.isReadable_word_iff.mp (sound.readable _ rfl)).1
  | quoted q span read => exact List.cons_ne_nil _ _
  | finished => cases here

theorem Lexer.holds_of_accounts (within : i ≤ text.length)
    (known : lexer.held.Accounts .origin (text.take i)) : lexer.Holds text i := by
  obtain ⟨proper, written, sound⟩ := known
  obtain ⟨rest, split⟩ :
      ∃ rest, text = render lexer.emitted.toList ++ (lexer.state.pending ++ rest) := by
    refine ⟨text.drop i, ?_⟩
    rw [← List.append_assoc]
    exact (List.take_append_drop i text).symm.trans (congrArg (· ++ text.drop i) written.symm)
  have here : text.drop (render lexer.emitted.toList).length = lexer.state.pending ++ rest := by
    rw [split, List.drop_left]
  have size : (render lexer.emitted.toList).length + lexer.state.pending.length = i := by
    rw [← List.length_append, ← List.length_take_of_le within]
    exact congrArg List.length written
  have spans : ∀ span ∈ lexer.state.pendingSpan?,
      span = ⟨.ofOffset text (render lexer.emitted.toList).length, .ofOffset text (i - 1)⟩ := by
    intro span member
    have start : Position.origin.advance (render lexer.emitted.toList) =
        .ofOffset text (render lexer.emitted.toList).length := by
      rw [split, Position.ofOffset_append]
    have placed := sound.placed span member
    rw [held, start, Span.ofText_ofOffset here (sound.pending_ne_nil member)] at placed
    rw [placed, size]
  exact {
    unfinished := sound.unfinished
    proper := fun t member => proper t (Array.mem_toList_iff.mpr member)
    written := written
    first := fun span member => congrArg Span.first (spans span member)
    last := fun span member => congrArg Span.last (spans span member)
    readable := sound.readable }

/-- After any beginning of a text that is read without error, a lexer holds just that beginning: in
its tokens, none of them the end, and in a pending text that can be read as what it stands for and
whose span runs from its first to its last character. -/
theorem fed_lexer_holds (within : i ≤ text.length)
    (fed : Lexer.fresh.run ((itemsOf text).take i) = (lexer, .ok ())) : lexer.Holds text i := by
  rw [Reader.take_itemsOf within] at fed
  exact Lexer.holds_of_accounts within (Lexer.accounts_run Lexer.accounts_fresh _ fed)

theorem fed_lexer_holds_quote :
    let text : Text := "a \n'b\n|".toList
    let emitted : Array Token :=
      #[⟨.word ['a'], .point ⟨1, 0⟩⟩, ⟨.space [' ', '\n'], ⟨⟨1, 1⟩, ⟨1, 2⟩⟩⟩]
    let lexer : Lexer := ⟨emitted, .quoted .single ⟨⟨2, 0⟩, ⟨3, 0⟩⟩ ['|', '\n', 'b']⟩
    tokenize text = .error (.unterminated ⟨⟨2, 0⟩, ⟨3, 0⟩⟩) ∧
      Lexer.fresh.run ((itemsOf text).take 7) = (lexer, .ok ()) ∧ lexer.Holds text 7 := by
  intro text emitted lexer
  have fed : Lexer.fresh.run ((itemsOf text).take 7) = (lexer, .ok ()) := rfl
  exact ⟨rfl, fed, fed_lexer_holds (by decide) fed⟩

end Beginnings

end ShellSyntax
