import ShellSyntax.Proofs.FirstFault
import ShellSyntax.Proofs.Trace.Record

/-!
# What a trace tells

The events of a text are those that its run writes as it goes, so they agree with the result: one
for each token, in order, and one that counts them. Of a rejected text no tokens are returned, but
its trace still shows those of the text in front of the fault, as this text by itself is read.
-/

namespace ShellSyntax

def Lexer.events (lexer : Lexer) : List Item → List Event
  | [] => Event.closing lexer.finish
  | item :: items =>
    match lexer.state.step item with
    | .ok move => move.emitted.map .emitted ++ (lexer.accept move).events items
    | .error e => [.failed e]
    | .stuck => []

def Record.field? (r : Record) (name : String) : Option FieldValue := r.fields.lookup name

/-- Whether a record shows what there is to know of an event, at the level of such events. -/
def Record.Shows (r : Record) : Event → Prop
  | .emitted t =>
    r.level = .trace ∧ r.field? "kind" = some (.text t.kind.label) ∧
      r.field? "line" = some (.number t.span.first.line) ∧
      r.field? "column" = some (.number t.span.first.column)
  | .completed count => r.level = .debug ∧ r.field? "count" = some (.number count)
  | .failed e => r.level = .debug ∧ r.field? "error" = some (.text e.message.toList)

theorem Event.shows_record (event : Event) : event.record.Shows event := by
  cases event with
  | emitted t => exact ⟨rfl, rfl, rfl, rfl⟩
  | completed count => exact ⟨rfl, rfl⟩
  | failed e => exact ⟨rfl, rfl⟩

section Writing

theorem Lexer.map_emitted_append_events (lexer : Lexer) (items : List Item) :
    let (last, fed) := lexer.run items
    lexer.emitted.toList.map .emitted ++ lexer.events items =
      last.emitted.toList.map .emitted ++ Event.closing (fed.andThen fun _ => last.finish) := by
  induction items generalizing lexer with
  | nil => rfl
  | cons item items ih =>
    cases taken : lexer.state.step item with
    | ok move => simpa [events, run_of_step taken, taken, accept] using ih (lexer.accept move)
    | error e => simp [events, run_of_error taken, taken, abandon, Result.andThen, Event.closing]
    | stuck => simp [events, run_of_stuck taken, taken, abandon, Result.andThen, Event.closing]

theorem trace_eq_events (text : Text) : trace text = Lexer.fresh.events (itemsOf text) :=
  (Lexer.fresh.map_emitted_append_events (itemsOf text)).symm

theorem trace_eq (text : Text) :
    trace text = (lex text).1.map .emitted ++ Event.closing (tokenize text) := rfl

end Writing

section Agreement

variable {text : Text} {tokens : List Token} {e : LexError} {o : Nat}

theorem trace_of_tokenize_eq_ok (accepted : tokenize text = .ok tokens) :
    trace text = tokens.map .emitted ++ [.completed tokens.length] := by
  rw [trace_eq, accepted]
  obtain ⟨kinds, legible, rfl, rfl⟩ := exists_of_tokenize_eq_ok accepted
  rw [lex_eq_scan, legible.scan_end]
  rfl

theorem trace_of_tokenize_eq_error (rejected : tokenize text = .error e) (isAt : e.IsAt text o) :
    ∃ front p, tokenize (text.take o) = .ok (front ++ [⟨.eof, .point p⟩]) ∧
      trace text = front.map .emitted ++ [.failed e] := by
  rw [trace_eq, rejected]
  obtain ⟨kinds, rest, fault, legible, heads, rfl, rfl, -⟩ := exists_of_isAt rejected isAt
  refine ⟨place .origin kinds, Position.origin.advance (sources kinds), ?_, ?_⟩
  · rw [List.take_left, tokenize_sources legible.before_end, place_append, place_eof]
  · rw [lex_eq_scan, legible.scan_fault heads]
    rfl

theorem completed_mem_trace_iff {count : Nat} :
    .completed count ∈ trace text ↔
      ∃ tokens, tokenize text = .ok tokens ∧ count = tokens.length := by
  cases result : tokenize text with
  | ok tokens => simp [trace_of_tokenize_eq_ok result]
  | error e =>
    obtain ⟨o, isAt, -⟩ := existsUnique_isAt result
    obtain ⟨front, p, -, events⟩ := trace_of_tokenize_eq_error result isAt
    simp [events]
  | stuck => exact absurd result (tokenize_ne_stuck text)

theorem failed_mem_trace_iff : .failed e ∈ trace text ↔ tokenize text = .error e := by
  cases result : tokenize text with
  | ok tokens => simp [trace_of_tokenize_eq_ok result]
  | error e' =>
    obtain ⟨o, isAt, -⟩ := existsUnique_isAt result
    obtain ⟨front, p, -, events⟩ := trace_of_tokenize_eq_error result isAt
    simp [events, eq_comm]
  | stuck => exact absurd result (tokenize_ne_stuck text)

end Agreement

/-- The trace of a text is written by its run and agrees with its result, and the records of the
events tell them apart. -/
theorem trace_agrees :
    (∀ text, tokenize text ≠ .stuck ∧ trace text = Lexer.fresh.events (itemsOf text)) ∧
    (∀ text tokens, tokenize text = .ok tokens →
      trace text = tokens.map .emitted ++ [.completed tokens.length]) ∧
    (∀ text e, tokenize text = .error e →
      (∃! o, e.IsAt text o) ∧
      ∀ o, e.IsAt text o →
        ∃ front p, tokenize (text.take o) = .ok (front ++ [⟨.eof, .point p⟩]) ∧
          trace text = front.map .emitted ++ [.failed e]) ∧
    (∀ text count e, ¬ (.completed count ∈ trace text ∧ .failed e ∈ trace text)) ∧
    (∀ event : Event, event.record.Shows event) ∧
    (∀ event other : Event, event.record = other.record ↔ event.Tells other) ∧
    Function.Injective Kind.label := by
  refine ⟨fun text => ⟨tokenize_ne_stuck text, trace_eq_events text⟩,
    fun _ _ => trace_of_tokenize_eq_ok, ?_, ?_, Event.shows_record, record_eq_iff,
    Kind.label_injective⟩
  · intro text e rejected
    exact ⟨existsUnique_isAt rejected, fun o isAt => trace_of_tokenize_eq_error rejected isAt⟩
  · intro text count e ⟨completed, failed⟩
    obtain ⟨tokens, accepted, -⟩ := completed_mem_trace_iff.mp completed
    rw [failed_mem_trace_iff.mp failed] at accepted
    cases accepted

theorem trace_agrees_lone_ampersand :
    let front : List Token :=
      [⟨.word ['a'], .point ⟨1, 0⟩⟩, ⟨.space ['\n'], .point ⟨1, 1⟩⟩, ⟨.pipe, .point ⟨2, 0⟩⟩]
    let tokens : List Token := front ++ [⟨.eof, .point ⟨2, 1⟩⟩]
    (tokenize "a\n|&".toList = .error (.unrecognized ⟨2, 2⟩) ∧
      trace "a\n|&".toList = front.map .emitted ++ [.failed (.unrecognized ⟨2, 2⟩)]) ∧
    (tokenize "a\n|".toList = .ok tokens ∧
      trace "a\n|".toList = tokens.map .emitted ++ [.completed 4]) := by
  intro front tokens
  have rejected : tokenize "a\n|&".toList = .error (.unrecognized ⟨2, 2⟩) := rfl
  have accepted : tokenize "a\n|".toList = .ok tokens := rfl
  have isAt : (LexError.unrecognized ⟨2, 2⟩).IsAt "a\n|&".toList 3 := ⟨rfl, rfl⟩
  refine ⟨⟨rejected, ?_⟩, accepted, trace_agrees.2.1 _ _ accepted⟩
  obtain ⟨shown, p, before, events⟩ := (trace_agrees.2.2.1 _ _ rejected).2 3 isAt
  have same : shown ++ [⟨.eof, .point p⟩] = tokens := Result.ok.inj (before.symm.trans accepted)
  rw [events, (List.append_inj' same rfl).1]

end ShellSyntax
