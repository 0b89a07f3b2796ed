import ShellSyntax.Proofs.Automaton.Outcome
import ShellSyntax.Proofs.Lexeme

/-!
# Scanning lexeme by lexeme

The automaton reads a lexeme character by character, and a pending token is only closed by the
item after it. Still its outcome on a text is the token of the first lexeme followed by its
outcome on the rest, read afresh from the position where the lexeme ends. A text that begins with
a fault has no outcome but the error of that fault.
-/

namespace ShellSyntax

namespace State

theorem space_takes : Takes .space isBlank := by
  intro c member span read p
  have some : (some c).filter isBlank = some c := Option.filter_some_pos member
  simp only [step, stepSpace, some]

theorem word_takes : Takes .word (!isDelimiter ·) := by
  intro c member span read p
  have some : (some c).filter (!isDelimiter ·) = some c := Option.filter_some_pos member
  simp only [step, stepWord, some]

theorem quoted_takes (q : Quote) : Takes (.quoted q) (· != q.char) := by
  intro c member span read p
  simp [step, stepQuoted, bne_iff_ne.mp member]

theorem space_closes : Closes .space isBlank .space := by
  intro char? ends span read p
  have none : char?.filter isBlank = none := Option.filter_eq_none_iff.mpr ends
  simp only [step, stepSpace, none]

theorem word_closes : Closes .word (!isDelimiter ·) .word := by
  intro char? ends span read p
  have none : char?.filter (!isDelimiter ·) = none := Option.filter_eq_none_iff.mpr ends
  simp only [step, stepWord, none]

theorem lead_closes {l : Lead} {kind : Kind} (alone : l.alone? = some kind) (start p : Position)
    {char? : Option Char} (apart : char? ≠ some l.char) :
    (lead l start).step ⟨char?, p⟩ = .ok ((enter ⟨char?, p⟩).after ⟨kind, .point start⟩) := by
  simp only [step, stepLead, apart, if_false, alone]

end State

section Entering

variable (p : Position) (rest : Text)

theorem scan_cons (c : Char) :
    scan p (c :: rest) =
      ((State.enter ⟨some c, p⟩).state.outcome (Reader.itemsFrom (p.next c) rest)).after
        (State.enter ⟨some c, p⟩).emitted :=
  State.outcome_of_step rfl _

theorem scan_lead (l : Lead) :
    scan p (l.char :: rest) = (State.lead l p).outcome (Reader.itemsFrom (p.next l.char) rest) := by
  simp [scan_cons, State.enter, CharClass.of_lead_char]

theorem scan_blank {c : Char} (blank : isBlank c) :
    scan p (c :: rest) = (State.space (.ofText p [c]) [c]).outcome
      (Reader.itemsFrom (p.advance [c]) rest) := by
  simp [scan_cons, State.enter, isBlank_iff.mp blank, Span.ofText, Span.point]

theorem scan_plain {c : Char} (plain : CharClass.of c = .plain) :
    scan p (c :: rest) = (State.word (.ofText p [c]) [c]).outcome
      (Reader.itemsFrom (p.advance [c]) rest) := by
  simp [scan_cons, State.enter, plain, Span.ofText, Span.point]

theorem scan_quote (q : Quote) :
    scan p (q.char :: rest) = (State.quoted q (.ofText p [q.char]) []).outcome
      (Reader.itemsFrom (p.advance [q.char]) rest) := by
  simp [scan_cons, State.enter, CharClass.of_quote_char, Span.ofText, Span.point]

end Entering

section Lexemes

variable (p : Position) {rest : Text}

theorem scan_doubled (l : Lead) (rest : Text) :
    scan p (l.char :: l.char :: rest) =
      (scan (p.advance [l.char, l.char]) rest).after
        [⟨l.doubled, .ofText p [l.char, l.char]⟩] := by
  have completes : (State.lead l p).step ⟨some l.char, p.next l.char⟩ =
      .ok ⟨[⟨l.doubled, .ofText p [l.char, l.char]⟩], .between⟩ := by
    simp [State.step, State.stepLead, Span.ofText]
  rw [scan_lead, Reader.itemsFrom, State.outcome_of_step completes]
  rfl

theorem scan_alone {l : Lead} {kind : Kind} (alone : l.alone? = some kind)
    (apart : rest.head? ≠ some l.char) :
    scan p (l.char :: rest) =
      (scan (p.advance [l.char]) rest).after [⟨kind, .ofText p [l.char]⟩] := by
  rw [scan_lead]
  exact State.outcome_closes (State.lead_closes alone p (p.next l.char) apart)

theorem scan_body {q : Quote} {body : Text} (inside : q.char ∉ body) (rest : Text) :
    scan p (q.char :: (body ++ rest)) =
      (State.quoted q (.ofText p (q.char :: body)) body.reverse).outcome
        (Reader.itemsFrom (p.advance (q.char :: body)) rest) := by
  rw [scan_quote,
    State.outcome_grows (State.quoted_takes q) p [q.char] [] (bne_of_not_mem inside) rest]
  simp

theorem scan_quoted {q : Quote} {body : Text} (inside : q.char ∉ body) (rest : Text) :
    scan p (q.char :: (body ++ q.char :: rest)) =
      (scan (p.advance (q.char :: body ++ [q.char])) rest).after
        [⟨.quoted q body, .ofText p (q.char :: body ++ [q.char])⟩] := by
  have completes : (State.quoted q (.ofText p (q.char :: body)) body.reverse).step
      ⟨some q.char, p.advance (q.char :: body)⟩ =
      .ok ⟨[⟨.quoted q body, .ofText p (q.char :: body ++ [q.char])⟩], .between⟩ := by
    rw [Span.ofText_concat]
    simp [State.step, State.stepQuoted]
  rw [scan_body p inside, Reader.itemsFrom, State.outcome_of_step completes,
    Position.advance_concat]
  rfl

end Lexemes

theorem scan_source (p : Position) {kind : Kind} {rest : Text} (stands : kind.StandsBefore rest) :
    scan p (kind.source ++ rest) =
      (scan (p.advance kind.source) rest).after [⟨kind, .ofText p kind.source⟩] := by
  cases stands.form with
  | doubled l =>
    rw [Lead.source_doubled]
    exact scan_doubled p l rest
  | alone alone apart =>
    rw [Lead.source_of_alone? alone]
    exact scan_alone p alone apart
  | leftParen => exact scan_cons p rest '('
  | rightParen => exact scan_cons p rest ')'
  | space head inside ends =>
    exact (scan_blank p _ head).trans
      (State.outcome_run State.space_takes State.space_closes p inside ends)
  | word head inside ends =>
    exact (scan_plain p _ head).trans
      (State.outcome_run State.word_takes State.word_closes p inside ends)
  | @quoted q body inside =>
    have whole : (Kind.quoted q body).source ++ rest = q.char :: (body ++ q.char :: rest) := by
      simp [Kind.source]
    rw [whole]
    exact scan_quoted p inside rest

def Fault.errorAt (p : Position) (text : Text) : Fault → LexError
  | .unpaired => .unrecognized (p.next '&')
  | .unclosed => .unterminated (.ofText p text)

theorem scan_fault (p : Position) {c : Char} {cs : Text} {fault : Fault}
    (found : lexeme c cs = .error fault) :
    scan p (c :: cs) = ([], some (fault.errorAt p (c :: cs))) := by
  cases fault with
  | unpaired =>
    obtain ⟨rfl, single⟩ := lexeme_eq_unpaired_iff.mp found
    obtain ⟨items, here⟩ := Reader.itemsFrom_eq_cons (p.next '&') cs
    have stops : (State.lead .amp p).step ⟨cs.head?, p.next '&'⟩ =
        .error (.unrecognized (p.next '&')) := by
      simp only [State.step, State.stepLead, Lead.char, single, if_false, Lead.alone?]
    calc
      _ = (State.lead .amp p).outcome (Reader.itemsFrom (p.next '&') cs) := scan_lead p cs .amp
      _ = _ := by
        rw [here, State.outcome_of_error stops]
        rfl
  | unclosed =>
    obtain ⟨q, rfl, unclosed⟩ := lexeme_eq_unclosed_iff.mp found
    have body := scan_body p unclosed []
    rw [List.append_nil] at body
    rw [body]
    rfl

end ShellSyntax
