import ShellSyntax.Proofs.Automaton.Scan

/-!
# Changing the characters of a text

Of a character the automaton sees its class, whether it is the sign or the quote that is pending,
and whether it ends the line. So when the characters of a text are changed and all of this is kept,
up to an exchange of signs and of quotes, the automaton takes the same steps, and its tokens are
those of the unchanged text with the same change made in them.
-/

namespace ShellSyntax

def CharClass.relabel (lead : Lead → Lead) (quote : Quote → Quote) : CharClass → CharClass
  | .lead l => .lead (lead l)
  | .quote q => .quote (quote q)
  | charClass => charClass

structure Relabelling where
  char : Char → Char
  lead : Lead → Lead
  quote : Quote → Quote
  kind : Kind → Kind
  newline : ∀ c, char c = '\n' ↔ c = '\n'
  charClass : ∀ c, CharClass.of (char c) = (CharClass.of c).relabel lead quote
  lead_injective : Function.Injective lead
  quote_injective : Function.Injective quote
  doubled : ∀ l, (lead l).doubled = kind l.doubled
  alone : ∀ l, (lead l).alone? = l.alone?.map kind
  leftParen : kind .leftParen = .leftParen
  rightParen : kind .rightParen = .rightParen
  space : ∀ run, kind (.space run) = .space (run.map char)
  word : ∀ run, kind (.word run) = .word (run.map char)
  quoted : ∀ q body, kind (.quoted q body) = .quoted (quote q) (body.map char)
  eof : kind .eof = .eof

def Token.mapKind (f : Kind → Kind) (t : Token) : Token := ⟨f t.kind, t.span⟩

namespace Relabelling

variable (r : Relabelling)

def item (item : Item) : Item := ⟨item.char?.map r.char, item.position⟩

def state : State → State
  | .between => .between
  | .lead l start => .lead (r.lead l) start
  | .space span read => .space span (read.map r.char)
  | .word span read => .word span (read.map r.char)
  | .quoted q span read => .quoted (r.quote q) span (read.map r.char)
  | .finished => .finished

def move (m : Move) : Move := ⟨m.emitted.map (Token.mapKind r.kind), r.state m.state⟩

def outcome (o : Outcome) : Outcome := (o.1.map (Token.mapKind r.kind), o.2)

section Characters

theorem char_eq_lead_iff (c : Char) (l : Lead) : r.char c = (r.lead l).char ↔ c = l.char := by
  rw [← CharClass.of_eq_lead_iff, ← CharClass.of_eq_lead_iff, r.charClass]
  cases CharClass.of c <;> simp [CharClass.relabel, r.lead_injective.eq_iff]

theorem char_eq_quote_iff (c : Char) (q : Quote) : r.char c = (r.quote q).char ↔ c = q.char := by
  rw [← CharClass.of_eq_quote_iff, ← CharClass.of_eq_quote_iff, r.charClass]
  cases CharClass.of c <;> simp [CharClass.relabel, r.quote_injective.eq_iff]

theorem isBlank_char (c : Char) : isBlank (r.char c) = isBlank c := by
  rw [isBlank, isBlank, r.charClass]
  cases CharClass.of c <;> rfl

theorem isDelimiter_char (c : Char) : isDelimiter (r.char c) = isDelimiter c := by
  rw [isDelimiter, isDelimiter, r.charClass]
  cases CharClass.of c <;> rfl

theorem next_char (p : Position) (c : Char) : p.next (r.char c) = p.next c := by
  simp only [Position.next, r.newline]

theorem itemsFrom_map (p : Position) (text : Text) :
    Reader.itemsFrom p (text.map r.char) = (Reader.itemsFrom p text).map r.item := by
  induction text generalizing p with
  | nil => rfl
  | cons c rest ih =>
    rw [List.map_cons, Reader.itemsFrom, Reader.itemsFrom, List.map_cons, r.next_char, ih]
    rfl

end Characters

section Steps

theorem move_after (kind : Kind) (span : Span) (m : Move) :
    r.move (m.after ⟨kind, span⟩) = (r.move m).after ⟨r.kind kind, span⟩ := rfl

theorem enter_item (item : Item) : State.enter (r.item item) = r.move (State.enter item) := by
  obtain ⟨_ | c, p⟩ := item
  · simp [Relabelling.item, State.enter, move, state, Token.mapKind, r.eof]
  · simp only [Relabelling.item, State.enter, Option.map_some, r.charClass]
    cases CharClass.of c <;>
      simp [CharClass.relabel, move, state, Token.mapKind, r.leftParen, r.rightParen]

theorem stepLead_item (l : Lead) (start : Position) (item : Item) :
    State.stepLead (r.lead l) start (r.item item) = (State.stepLead l start item).map r.move := by
  have same : (r.item item).char? = some (r.lead l).char ↔ item.char? = some l.char := by
    rw [Relabelling.item, Option.map_eq_some_iff]
    simp [r.char_eq_lead_iff]
  rw [State.stepLead, State.stepLead, r.enter_item, r.alone]
  by_cases pair : item.char? = some l.char
  · rw [if_pos pair, if_pos (same.mpr pair)]
    simp [move, state, Token.mapKind, r.doubled, Relabelling.item, Result.map]
  · rw [if_neg pair, if_neg (mt same.mp pair)]
    cases l.alone? <;> rfl

theorem stepSpace_item (span : Span) (read : Text) (item : Item) :
    State.stepSpace span (read.map r.char) (r.item item) =
      r.move (State.stepSpace span read item) := by
  have same : (r.item item).char?.filter isBlank = (item.char?.filter isBlank).map r.char := by
    rw [Relabelling.item, Option.filter_map]
    simp [Function.comp_def, r.isBlank_char]
  rw [State.stepSpace, State.stepSpace, same, r.enter_item]
  cases item.char?.filter isBlank with
  | some c => rfl
  | none => simp [r.move_after, r.space]

theorem stepWord_item (span : Span) (read : Text) (item : Item) :
    State.stepWord span (read.map r.char) (r.item item) =
      r.move (State.stepWord span read item) := by
  have same : (r.item item).char?.filter (!isDelimiter ·) =
      (item.char?.filter (!isDelimiter ·)).map r.char := by
    rw [Relabelling.item, Option.filter_map]
    simp [Function.comp_def, r.isDelimiter_char]
  rw [State.stepWord, State.stepWord, same, r.enter_item]
  cases item.char?.filter (!isDelimiter ·) with
  | some c => rfl
  | none => simp [r.move_after, r.word]

theorem stepQuoted_item (q : Quote) (span : Span) (read : Text) (item : Item) :
    State.stepQuoted (r.quote q) span (read.map r.char) (r.item item) =
      (State.stepQuoted q span read item).map r.move := by
  obtain ⟨_ | c, p⟩ := item
  · rfl
  · simp only [State.stepQuoted, Relabelling.item, Option.map_some, r.char_eq_quote_iff]
    by_cases closes : c = q.char
    · simp [closes, Result.map, move, state, Token.mapKind, r.quoted]
    · simp [closes, Result.map, move, state]

theorem step_item (s : State) (item : Item) :
    (r.state s).step (r.item item) = (s.step item).map r.move := by
  cases s with
  | between => exact congrArg Result.ok (r.enter_item item)
  | lead l start => exact r.stepLead_item l start item
  | space span read => exact congrArg Result.ok (r.stepSpace_item span read item)
  | word span read => exact congrArg Result.ok (r.stepWord_item span read item)
  | quoted q span read => exact r.stepQuoted_item q span read item
  | finished => rfl

end Steps

section Runs

theorem outcome_after (tokens : List Token) (o : Outcome) :
    r.outcome (o.after tokens) = (r.outcome o).after (tokens.map (Token.mapKind r.kind)) := by
  simp [outcome, Outcome.after]

theorem outcome_items (s : State) (items : List Item) :
    (r.state s).outcome (items.map r.item) = r.outcome (s.outcome items) := by
  induction items generalizing s with
  | nil => rfl
  | cons item items ih =>
    have changed := r.step_item s item
    cases taken : s.step item with
    | error e =>
      rw [taken] at changed
      rw [List.map_cons, State.outcome_of_error changed, State.outcome_of_error taken]
      rfl
    | ok m =>
      rw [taken] at changed
      rw [List.map_cons, State.outcome_of_step changed, State.outcome_of_step taken, outcome_after,
        ← ih]
      rfl
    | stuck =>
      rw [taken] at changed
      rw [List.map_cons, State.outcome_of_stuck changed, State.outcome_of_stuck taken]
      rfl

theorem scan_map (p : Position) (text : Text) :
    scan p (text.map r.char) = r.outcome (scan p text) := by
  rw [scan, r.itemsFrom_map]
  exact r.outcome_items .between _

theorem result_outcome (o : Outcome) :
    (r.outcome o).result = o.result.map (List.map (Token.mapKind r.kind)) := by
  obtain ⟨tokens, _ | e⟩ := o <;> rfl

theorem tokenize_map (text : Text) :
    tokenize (text.map r.char) = (tokenize text).map (List.map (Token.mapKind r.kind)) := by
  rw [tokenize_eq_result, tokenize_eq_result, r.scan_map, r.result_outcome, Result.ofExcept_map]

theorem tokenize_map_eq_error_iff (text : Text) (e : LexError) :
    tokenize (text.map r.char) = .error e ↔ tokenize text = .error e := by
  rw [r.tokenize_map]
  cases tokenize text <;> simp [Result.map]

end Runs

end Relabelling

def Kind.mapText (f : Char → Char) : Kind → Kind
  | .space run => .space (run.map f)
  | .word run => .word (run.map f)
  | .quoted q body => .quoted q (body.map f)
  | kind => kind

/-- A change of characters that leaves each sign and quote as it is, blanks blank, the ends of lines
where they are, and all other characters plain. Several characters may become the same one. -/
structure KeepsClasses (f : Char → Char) : Prop where
  fixed : ∀ c ∈ ['<', '>', '(', ')', '&', '|', '\x27', '\x22'], f c = c
  blank : ∀ c, isBlank c → isBlank (f c)
  newline : ∀ c, f c = '\n' ↔ c = '\n'
  plain : ∀ c, CharClass.of c = .plain → CharClass.of (f c) = .plain

section Classes

variable {f : Char → Char}

theorem KeepsClasses.of_eq (keeps : KeepsClasses f) (c : Char) :
    CharClass.of (f c) = CharClass.of c := by
  cases charClass : CharClass.of c with
  | lead l =>
    obtain rfl := CharClass.of_eq_lead_iff.mp charClass
    rw [keeps.fixed _ (by cases l <;> decide), charClass]
  | leftParen =>
    obtain rfl := CharClass.of_eq_leftParen_iff.mp charClass
    rw [keeps.fixed _ (by decide), charClass]
  | rightParen =>
    obtain rfl := CharClass.of_eq_rightParen_iff.mp charClass
    rw [keeps.fixed _ (by decide), charClass]
  | quote q =>
    obtain rfl := CharClass.of_eq_quote_iff.mp charClass
    rw [keeps.fixed _ (by cases q <;> decide), charClass]
  | blank => exact isBlank_iff.mp (keeps.blank c (isBlank_iff.mpr charClass))
  | plain => exact keeps.plain c charClass

def KeepsClasses.relabelling (keeps : KeepsClasses f) : Relabelling where
  char := f
  lead := id
  quote := id
  kind := Kind.mapText f
  newline := keeps.newline
  charClass c := by
    rw [keeps.of_eq]
    cases CharClass.of c <;> rfl
  lead_injective := Function.injective_id
  quote_injective := Function.injective_id
  doubled l := by cases l <;> rfl
  alone l := by cases l <;> rfl
  leftParen := rfl
  rightParen := rfl
  space _ := rfl
  word _ := rfl
  quoted _ _ := rfl
  eof := rfl

/-- Characters may be changed freely within their classes: the tokens of the changed text are those
of the text, with the same kinds and spans and the change made in what they carry, and a text in
error has the same error. -/
theorem tokenize_map_of_keepsClasses (keeps : KeepsClasses f) (text : Text) :
    tokenize text ≠ .stuck ∧
    tokenize (text.map f) = (tokenize text).map (List.map (Token.mapKind (Kind.mapText f))) :=
  ⟨tokenize_ne_stuck text, keeps.relabelling.tokenize_map text⟩

def masked (c : Char) : Char := if CharClass.of c = .plain then 'x' else c

theorem keepsClasses_masked : KeepsClasses masked where
  fixed := by
    simp only [List.forall_mem_cons]
    exact ⟨rfl, rfl, rfl, rfl, rfl, rfl, rfl, rfl, List.forall_mem_nil _⟩
  blank c blank := by
    have other : CharClass.of c ≠ .plain := by
      rw [isBlank_iff.mp blank]
      decide
    rwa [masked, if_neg other]
  newline c := by
    rw [masked]
    split_ifs with plain
    · constructor
      · intro newline
        cases newline
      · intro newline
        rw [newline] at plain
        cases plain
    · exact Iff.rfl
  plain c plain := by
    rw [masked, if_pos plain]
    rfl

theorem tokenize_map_of_keepsClasses_masked :
    let tokens : List Token :=
      [⟨.word "né'".toList, ⟨⟨1, 0⟩, ⟨1, 2⟩⟩⟩, ⟨.space ['\n'], .point ⟨1, 3⟩⟩,
        ⟨.quoted .double "a\n<".toList, ⟨⟨2, 0⟩, ⟨3, 1⟩⟩⟩, ⟨.eof, .point ⟨3, 2⟩⟩]
    let text : Text := "né'\n\x22a\n<\x22".toList
    KeepsClasses masked ∧ tokenize text = .ok tokens ∧
      tokenize "xx'\n\x22x\n<\x22".toList =
        .ok (tokens.map (Token.mapKind (Kind.mapText masked))) :=
  let text : Text := "né'\n\x22a\n<\x22".toList
  ⟨keepsClasses_masked, rfl, (tokenize_map_of_keepsClasses keepsClasses_masked text).2⟩

end Classes

end ShellSyntax
