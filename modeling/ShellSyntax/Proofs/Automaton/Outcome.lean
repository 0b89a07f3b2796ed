import ShellSyntax.Lexer

/-!
# Outcomes

The outcome of reading items from a state is what the automaton emits for them and the error that
stops it, if any. A lexer adds this outcome to what it has emitted before, so the outcome of a
text does not depend on the tokens that are already there. Three kinds of step make up an
outcome: an item joins the pending text, completes a token, or closes the pending token and is
read again between two tokens.

The items of a text never get a lexer stuck. As long as it has not seen the end it can read any
item, and it has seen the end when the last item is read, so a run without error can be finished.
What is returned for a text is therefore settled by its outcome.
-/

namespace ShellSyntax

abbrev Outcome := List Token × Option LexError

namespace Outcome

def after (tokens : List Token) (o : Outcome) : Outcome := (tokens ++ o.1, o.2)

def result : Outcome → Except LexError (List Token)
  | (tokens, none) => .ok tokens
  | (_, some e) => .error e

@[simp] theorem after_nil (o : Outcome) : o.after [] = o := rfl

@[simp] theorem after_after (ts us : List Token) (o : Outcome) :
    (o.after us).after ts = o.after (ts ++ us) := by
  simp [after]

theorem result_after (ts : List Token) (o : Outcome) :
    (o.after ts).result = o.result.map (ts ++ ·) := by
  obtain ⟨us, _ | e⟩ := o <;> rfl

end Outcome

namespace State

def outcome : State → List Item → Outcome
  | _, [] => ([], none)
  | s, item :: items =>
    match s.step item with
    | .ok move => (move.state.outcome items).after move.emitted
    | .error e => ([], some e)
    | .stuck => ([], none)

theorem outcome_of_step {s : State} {item : Item} {move : Move} (h : s.step item = .ok move)
    (items : List Item) :
    s.outcome (item :: items) = (move.state.outcome items).after move.emitted := by
  simp only [outcome, h]

theorem outcome_of_error {s : State} {item : Item} {e : LexError} (h : s.step item = .error e)
    (items : List Item) : s.outcome (item :: items) = ([], some e) := by
  simp only [outcome, h]

theorem outcome_of_stuck {s : State} {item : Item} (h : s.step item = .stuck)
    (items : List Item) : s.outcome (item :: items) = ([], none) := by
  simp only [outcome, h]

end State

theorem Lexer.run_eq_outcome (lexer : Lexer) (items : List Item) :
    ((lexer.run items).1.emitted.toList, (lexer.run items).2.error?) =
      (lexer.state.outcome items).after lexer.emitted.toList := by
  induction items generalizing lexer with
  | nil => simp [State.outcome, Outcome.after, Result.error?]
  | cons item items ih =>
    cases taken : lexer.state.step item with
    | ok move =>
      rw [run_of_step taken, State.outcome_of_step taken, Outcome.after_after]
      simpa [accept] using ih (lexer.accept move)
    | error e =>
      rw [run_of_error taken, State.outcome_of_error taken]
      simp [abandon, Outcome.after, Result.error?]
    | stuck =>
      rw [run_of_stuck taken, State.outcome_of_stuck taken]
      simp [abandon, Outcome.after, Result.error?]

section Finishing

namespace State

theorem enter_eq_finished_iff (item : Item) :
    (enter item).state = .finished ↔ item.char? = none := by
  obtain ⟨_ | c, p⟩ := item
  · simp [enter]
  · simp only [enter]
    cases CharClass.of c <;> simp

theorem stepSpace_eq_finished_iff (span : Span) (read : Text) (item : Item) :
    (stepSpace span read item).state = .finished ↔ item.char? = none := by
  rw [stepSpace]
  cases blank : item.char?.filter isBlank with
  | some c => simp [(Option.filter_eq_some_iff.mp blank).1]
  | none => exact enter_eq_finished_iff item

theorem stepWord_eq_finished_iff (span : Span) (read : Text) (item : Item) :
    (stepWord span read item).state = .finished ↔ item.char? = none := by
  rw [stepWord]
  cases plain : item.char?.filter (!isDelimiter ·) with
  | some c => simp [(Option.filter_eq_some_iff.mp plain).1]
  | none => exact enter_eq_finished_iff item

theorem step_cases (s : State) (item : Item) :
    (s = .finished ∧ s.step item = .stuck) ∨ (∃ e, s.step item = .error e) ∨
      ∃ move, s.step item = .ok move ∧ (move.state = .finished ↔ item.char? = none) := by
  cases s with
  | between => exact .inr (.inr ⟨_, rfl, enter_eq_finished_iff item⟩)
  | lead l start =>
    rw [step, stepLead]
    by_cases pair : item.char? = some l.char
    · rw [if_pos pair]
      exact .inr (.inr ⟨_, rfl, by simp [pair]⟩)
    · rw [if_neg pair]
      cases l.alone? with
      | some kind => exact .inr (.inr ⟨_, rfl, enter_eq_finished_iff item⟩)
      | none => exact .inr (.inl ⟨_, rfl⟩)
  | space span read => exact .inr (.inr ⟨_, rfl, stepSpace_eq_finished_iff span read item⟩)
  | word span read => exact .inr (.inr ⟨_, rfl, stepWord_eq_finished_iff span read item⟩)
  | quoted q span read =>
    obtain ⟨_ | c, p⟩ := item
    · exact .inr (.inl ⟨_, rfl⟩)
    · rw [step, stepQuoted]
      by_cases closing : c = q.char
      · exact .inr (.inr ⟨_, if_pos closing, by simp⟩)
      · exact .inr (.inr ⟨_, if_neg closing, by simp⟩)
  | finished => exact .inl ⟨rfl, rfl⟩

end State

namespace Lexer

theorem run_itemsFrom {lexer : Lexer} (unfinished : lexer.state ≠ .finished) (p : Position)
    (text : Text) :
    (∃ last e, lexer.run (Reader.itemsFrom p text) = (last, .error e)) ∨
      ∃ last, lexer.run (Reader.itemsFrom p text) = (last, .ok ()) ∧ last.state = .finished := by
  induction text generalizing lexer p with
  | nil =>
    rw [Reader.itemsFrom]
    rcases State.step_cases lexer.state ⟨none, p⟩ with
      ⟨finished, -⟩ | ⟨e, taken⟩ | ⟨move, taken, ends⟩
    · exact absurd finished unfinished
    · exact .inl ⟨_, e, run_of_error taken []⟩
    · exact .inr ⟨_, run_of_step taken [], ends.mpr rfl⟩
  | cons c rest ih =>
    rw [Reader.itemsFrom]
    rcases State.step_cases lexer.state ⟨some c, p⟩ with
      ⟨finished, -⟩ | ⟨e, taken⟩ | ⟨move, taken, ends⟩
    · exact absurd finished unfinished
    · exact .inl ⟨_, e, run_of_error taken _⟩
    · have going : (lexer.accept move).state ≠ .finished := fun finished =>
        Option.some_ne_none c (ends.mp finished)
      rw [run_of_step taken]
      exact ih going (p.next c)

/-- A run over all items of a text ends in an error or in the finished state. -/
theorem run_itemsOf (text : Text) :
    (∃ last e, fresh.run (itemsOf text) = (last, .error e)) ∨
      ∃ last, fresh.run (itemsOf text) = (last, .ok ()) ∧ last.state = .finished :=
  run_itemsFrom State.noConfusion .origin text

theorem finish_eq_ok_iff {lexer : Lexer} {tokens : List Token} :
    lexer.finish = .ok tokens ↔ lexer.state = .finished ∧ lexer.emitted.toList = tokens := by
  rw [finish]
  cases lexer.state <;> simp

end Lexer

end Finishing

def scan (p : Position) (text : Text) : Outcome := State.between.outcome (Reader.itemsFrom p text)

theorem lex_eq_scan (text : Text) :
    lex text = ((scan .origin text).1, .ofExcept (scan .origin text).result) := by
  have same := Lexer.run_eq_outcome Lexer.fresh (itemsOf text)
  rcases Lexer.run_itemsOf text with ⟨last, e, ran⟩ | ⟨last, ran, finished⟩
  · have outcome : scan .origin text = (last.emitted.toList, some e) := by
      rw [ran] at same
      exact same.symm
    rw [lex, ran, outcome]
    rfl
  · have outcome : scan .origin text = (last.emitted.toList, none) := by
      rw [ran] at same
      exact same.symm
    rw [lex, ran, outcome]
    exact congrArg (last.emitted.toList, ·) (Lexer.finish_eq_ok_iff.mpr ⟨finished, rfl⟩)

theorem tokenize_eq_result (text : Text) :
    tokenize text = .ofExcept (scan .origin text).result :=
  congrArg Prod.snd (lex_eq_scan text)

theorem tokenize_ne_stuck (text : Text) : tokenize text ≠ .stuck := by
  rw [tokenize_eq_result]
  cases (scan .origin text).result <;> simp [Result.ofExcept]

theorem scan_nil (p : Position) : scan p [] = ([⟨.eof, .point p⟩], none) := rfl

namespace Reader

theorem itemsFrom_eq_cons (p : Position) (text : Text) :
    ∃ items, itemsFrom p text = ⟨text.head?, p⟩ :: items := by
  cases text with
  | nil => exact ⟨[], rfl⟩
  | cons c rest => exact ⟨itemsFrom (p.next c) rest, rfl⟩

end Reader

namespace State

theorem outcome_closes {s : State} {p : Position} {rest : Text} {t : Token}
    (closes : s.step ⟨rest.head?, p⟩ = .ok ((enter ⟨rest.head?, p⟩).after t)) :
    s.outcome (Reader.itemsFrom p rest) = (scan p rest).after [t] := by
  obtain ⟨items, here⟩ := Reader.itemsFrom_eq_cons p rest
  have again : State.between.step ⟨rest.head?, p⟩ = .ok (enter ⟨rest.head?, p⟩) := rfl
  rw [scan, here, outcome_of_step closes, outcome_of_step again, Outcome.after_after]
  rfl

def Takes (grown : Span → Text → State) (member : Char → Bool) : Prop :=
  ∀ c, member c → ∀ span read p,
    (grown span read).step ⟨some c, p⟩ = .ok ⟨[], grown ⟨span.first, p⟩ (c :: read)⟩

def Closes (grown : Span → Text → State) (member : Char → Bool) (kind : Text → Kind) : Prop :=
  ∀ char?, (∀ c ∈ char?, ¬ member c) → ∀ span read p,
    (grown span read).step ⟨char?, p⟩ =
      .ok ((enter ⟨char?, p⟩).after ⟨kind read.reverse, span⟩)

theorem outcome_grows {grown : Span → Text → State} {member : Char → Bool}
    (takes : Takes grown member) (first : Position) (seen read : Text) {run : Text}
    (inside : ∀ c ∈ run, member c) (rest : Text) :
    (grown (.ofText first seen) read).outcome
        (Reader.itemsFrom (first.advance seen) (run ++ rest)) =
      (grown (.ofText first (seen ++ run)) (run.reverse ++ read)).outcome
        (Reader.itemsFrom (first.advance (seen ++ run)) rest) := by
  induction run generalizing seen read with
  | nil => simp
  | cons c run ih =>
    have taken := takes c (inside c List.mem_cons_self) (.ofText first seen) read
      (first.advance seen)
    calc
      _ = (grown ⟨first, first.advance seen⟩ (c :: read)).outcome
            (Reader.itemsFrom ((first.advance seen).next c) (run ++ rest)) := by
        rw [List.cons_append, Reader.itemsFrom, outcome_of_step taken]
        rfl
      _ = _ := by
        rw [← Span.ofText_concat first seen c, ← Position.advance_concat,
          ih _ _ (fun d hd => inside d (.tail c hd))]
        simp

theorem outcome_run {grown : Span → Text → State} {member : Char → Bool} {kind : Text → Kind}
    (takes : Takes grown member) (closes : Closes grown member kind) (p : Position)
    {c : Char} {run rest : Text} (inside : ∀ d ∈ run, member d)
    (ends : ∀ d ∈ rest.head?, ¬ member d) :
    (grown (.ofText p [c]) [c]).outcome (Reader.itemsFrom (p.advance [c]) (run ++ rest)) =
      (scan (p.advance (c :: run)) rest).after [⟨kind (c :: run), .ofText p (c :: run)⟩] := by
  have closed := outcome_closes (closes rest.head? ends (.ofText p (c :: run))
    (run.reverse ++ [c]) (p.advance (c :: run)))
  rw [outcome_grows takes p [c] [c] inside rest]
  simpa using closed

end State

end ShellSyntax
