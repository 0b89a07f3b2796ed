import Mathlib.Data.List.Nodup
import ShellSyntax.LongestMatch
import ShellSyntax.Proofs.Trace.Quoted

/-!
# What a record tells

The label of a kind tells the name of the kind and the text that it carries, and the message of an
error tells what is at fault and where. So the record of an event tells the event, up to where a
token ends and how far an open quote reaches.
-/

namespace ShellSyntax

namespace Kind

def heading (k : Kind) : Text := k.label.takeWhile (· != '(')

def carrying (text : Text) : List Kind :=
  [.and, .or, .pipe, .less, .doubleLess, .great, .doubleGreat, .leftParen, .rightParen,
    .space text, .word text, .quoted .single text, .quoted .double text, .eof]

theorem mem_carrying (k : Kind) : k ∈ carrying (k.text?.getD []) := by
  cases k with
  | quoted q body => cases q <;> simp [carrying, text?]
  | _ => simp [carrying, text?]

theorem nodup_headings (text : Text) : ((carrying text).map heading).Nodup := by
  have headings : (carrying text).map heading = (carrying []).map heading := rfl
  rw [headings]
  decide

theorem dropWhile_label (k : Kind) :
    k.label.dropWhile (· != '(') =
      match k.text? with
      | some text => '(' :: (Quoted.encode text ++ [')'])
      | none => [] := by
  cases k with
  | quoted q body => cases q <;> rfl
  | _ => rfl

theorem text?_eq_of_label_eq {k l : Kind} (same : k.label = l.label) : k.text? = l.text? := by
  have behind : k.label.dropWhile (· != '(') = l.label.dropWhile (· != '(') := by rw [same]
  rw [dropWhile_label, dropWhile_label] at behind
  cases first : k.text? with
  | none =>
    cases second : l.text? with
    | none => rfl
    | some text => simp [first, second] at behind
  | some text =>
    cases second : l.text? with
    | none => simp [first, second] at behind
    | some text' =>
      simp only [first, second] at behind
      have encoded := List.append_cancel_right (List.cons.inj behind).2
      rw [Quoted.encode_injective encoded]

theorem label_injective : Function.Injective label := by
  intro k l same
  have among : l ∈ carrying (k.text?.getD []) := by
    rw [text?_eq_of_label_eq same]
    exact l.mem_carrying
  have headings : k.heading = l.heading := congrArg (List.takeWhile (· != '(')) same
  exact List.inj_on_of_nodup_map (nodup_headings _) k.mem_carrying among headings

end Kind

namespace LexError

variable {e e' : LexError}

def decimal (n : Nat) : Text := Nat.toDigits 10 n

theorem comma_not_mem_decimal (n : Nat) : ',' ∉ decimal n := by
  intro member
  cases Nat.isDigit_of_mem_toDigits (by decide) (by decide) member

theorem decimal_injective : Function.Injective decimal := by
  intro m n same
  have read (n : Nat) : Nat.ofDigitChars 10 (decimal n) 0 = n := Nat.ofDigitChars_ten_toDigits
  rw [← read m, same, read n]

theorem toList_message (e : LexError) :
    e.message.toList = e.summary.toList ++ (" at line ".toList ++
      (decimal e.line ++ ',' :: (" column ".toList ++ decimal e.span.first.column))) := by
  have written : e.message = e.summary ++ " at line " ++ e.line.repr ++ ", column " ++
      e.span.first.column.repr := rfl
  simp only [written, String.toList_append, Nat.toList_repr, List.append_assoc]
  rfl

theorem fault_eq_of_message_eq (same : e.message = e'.message) : e.fault = e'.fault := by
  have third : e.message.toList[2]? = e'.message.toList[2]? := by rw [same]
  rw [toList_message, toList_message] at third
  cases e with
  | unrecognized p =>
    cases e' with
    | unrecognized p' => rfl
    | unterminated span' => simp [summary] at third
  | unterminated span =>
    cases e' with
    | unrecognized p' => simp [summary] at third
    | unterminated span' => rfl

theorem summary_eq_of_fault_eq (same : e.fault = e'.fault) : e.summary = e'.summary := by
  cases e with
  | unrecognized p =>
    cases e' with
    | unrecognized p' => rfl
    | unterminated span' => cases same
  | unterminated span =>
    cases e' with
    | unrecognized p' => cases same
    | unterminated span' => rfl

theorem numbers_inj {line column line' column' : Nat}
    (same : decimal line ++ ',' :: (" column ".toList ++ decimal column) =
      decimal line' ++ ',' :: (" column ".toList ++ decimal column')) :
    line = line' ∧ column = column' := by
  have read (n : Nat) (rest : Text) :
      (decimal n ++ ',' :: rest).takeWhile (· != ',') = decimal n :=
    takeWhile_body (comma_not_mem_decimal n) rest
  have first : decimal line = decimal line' := by
    rw [← read line, same, read]
  rw [first] at same
  have second := List.append_cancel_left (List.cons.inj (List.append_cancel_left same)).2
  exact ⟨decimal_injective first, decimal_injective second⟩

theorem message_eq_iff :
    e.message = e'.message ↔ e.fault = e'.fault ∧ e.span.first = e'.span.first := by
  constructor
  · intro same
    have fault := fault_eq_of_message_eq same
    have written := congrArg String.toList same
    rw [toList_message, toList_message, summary_eq_of_fault_eq fault] at written
    obtain ⟨line, column⟩ :=
      numbers_inj (List.append_cancel_left (List.append_cancel_left written))
    exact ⟨fault, congrArg₂ Position.mk line column⟩
  · intro ⟨fault, first⟩
    rw [message, message, line, line, summary_eq_of_fault_eq fault, first]

end LexError

section Records

/-- Whether two events tell the same. -/
def Event.Tells : Event → Event → Prop
  | .emitted t, .emitted u => t.kind = u.kind ∧ t.span.first = u.span.first
  | .completed m, .completed n => m = n
  | .failed e, .failed e' => e.fault = e'.fault ∧ e.span.first = e'.span.first
  | _, _ => False

theorem record_failed_eq_iff {e e' : LexError} :
    (Event.failed e).record = (Event.failed e').record ↔
      e.fault = e'.fault ∧ e.span.first = e'.span.first := by
  rw [← LexError.message_eq_iff, ← String.toList_inj]
  simp [Event.record]

theorem record_emitted_eq_iff {t u : Token} :
    (Event.emitted t).record = (Event.emitted u).record ↔
      t.kind = u.kind ∧ t.span.first = u.span.first := by
  rw [← Kind.label_injective.eq_iff]
  constructor
  · intro same
    simp only [Event.record, Record.mk.injEq, List.cons.injEq, Prod.mk.injEq,
      FieldValue.number.injEq, FieldValue.text.injEq, true_and, and_true] at same
    obtain ⟨line, column, label⟩ := same
    exact ⟨label, congrArg₂ Position.mk line column⟩
  · intro ⟨label, first⟩
    simp only [Event.record, label, first]

theorem record_eq_iff (event other : Event) :
    event.record = other.record ↔ event.Tells other := by
  cases event with
  | emitted t =>
    cases other with
    | emitted u => exact record_emitted_eq_iff
    | _ => simp [Event.record, Event.Tells]
  | completed m => cases other <;> simp [Event.record, Event.Tells]
  | failed e =>
    cases other with
    | failed e' => exact record_failed_eq_iff
    | _ => simp [Event.record, Event.Tells]

end Records

end ShellSyntax
