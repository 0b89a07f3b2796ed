import Mathlib.Data.List.TakeWhile
import ShellSyntax.LongestMatch
import ShellSyntax.Token.Canonical

/-!
# Lexemes and what follows them

Whether a source is read as the kind it was written for depends on the kind and on one character
more: the one that follows must not glue to it. The lexeme at the head of a text is exactly the
readable kind whose source stands there and does not glue to the rest. A text without a lexeme at
its head begins with an ampersand alone or with a quote that is never closed.
-/

namespace ShellSyntax

namespace CharClass

theorem of_lead_char (l : Lead) : of l.char = .lead l := of_eq_lead_iff.mpr rfl

theorem of_quote_char (q : Quote) : of q.char = .quote q := of_eq_quote_iff.mpr rfl

theorem of_eq_leftParen_iff {c : Char} : of c = .leftParen ↔ c = '(' := by
  constructor
  · intro h
    unfold of at h
    split at h <;> simp_all
  · intro h
    subst h
    rfl

theorem of_eq_rightParen_iff {c : Char} : of c = .rightParen ↔ c = ')' := by
  constructor
  · intro h
    unfold of at h
    split at h <;> simp_all
  · intro h
    subst h
    rfl

theorem of_eq_plain_iff {c : Char} :
    of c = .plain ↔ isDelimiter c = false ∧ isQuote c = false := by
  unfold isDelimiter isQuote
  cases of c <;> simp [delimits]

end CharClass

theorem isBlank_iff {c : Char} : isBlank c ↔ CharClass.of c = .blank := beq_iff_eq

theorem Lead.alone?_eq_none_iff {l : Lead} : l.alone? = none ↔ l = .amp := by
  cases l <;> simp [alone?]

theorem Quote.char_inj {q q' : Quote} : q.char = q'.char ↔ q = q' := by
  cases q <;> cases q' <;> decide

namespace Kind

/-- Whether a character that follows this kind is read together with it. -/
def glues : Kind → Char → Bool
  | .space _, c => isBlank c
  | .word _, c => !isDelimiter c
  | .less, c => c == '<'
  | .great, c => c == '>'
  | .pipe, c => c == '|'
  | _, _ => false

/-- What it takes for a kind, written in front of `rest`, to be read back as it is. -/
structure StandsBefore (kind : Kind) (rest : Text) : Prop where
  readable : kind.isReadable
  proper : kind ≠ .eof
  apart : ∀ c ∈ rest.head?, ¬ kind.glues c

inductive Form : Kind → Text → Prop
  | doubled (l : Lead) (rest : Text) : Form l.doubled rest
  | alone {l : Lead} {kind : Kind} {rest : Text} (alone : l.alone? = some kind)
      (apart : rest.head? ≠ some l.char) : Form kind rest
  | leftParen (rest : Text) : Form .leftParen rest
  | rightParen (rest : Text) : Form .rightParen rest
  | space {c : Char} {run rest : Text} (head : isBlank c) (inside : ∀ d ∈ run, isBlank d)
      (ends : ∀ d ∈ rest.head?, ¬ isBlank d) : Form (.space (c :: run)) rest
  | word {c : Char} {run rest : Text} (head : CharClass.of c = .plain)
      (inside : ∀ d ∈ run, !isDelimiter d) (ends : ∀ d ∈ rest.head?, ¬ !isDelimiter d) :
      Form (.word (c :: run)) rest
  | quoted {q : Quote} {body : Text} (inside : q.char ∉ body) (rest : Text) :
      Form (.quoted q body) rest

theorem glues_of_alone? {l : Lead} {kind : Kind} (h : l.alone? = some kind) (c : Char) :
    kind.glues c = (c == l.char) := by
  cases l <;> cases h <;> rfl

theorem not_glues_amp (kind : Kind) : ¬ kind.glues '&' := by
  cases kind <;> simp [glues, isBlank, isDelimiter, CharClass.of, CharClass.delimits]

theorem glues_quote_iff {kind : Kind} {q : Quote} :
    kind.glues q.char ↔ ∃ text, kind = .word text := by
  have delimits : isDelimiter q.char = false := by cases q <;> rfl
  have blank : isBlank q.char = false := by cases q <;> rfl
  cases kind <;> simp [glues, delimits, blank] <;> cases q <;> decide

theorem isReadable_space_iff {text : Text} :
    (space text).isReadable ↔ text ≠ [] ∧ ∀ c ∈ text, isBlank c := by
  simp [isReadable]

theorem isReadable_word_iff {text : Text} :
    (word text).isReadable ↔
      text ≠ [] ∧ (∀ c ∈ text, !isDelimiter c) ∧ ∀ c ∈ text.head?, ¬ isQuote c := by
  cases text <;> simp [isReadable, and_assoc]

theorem isReadable_space_cons {c : Char} {run : Text} :
    (space (c :: run)).isReadable ↔ isBlank c ∧ ∀ d ∈ run, isBlank d := by
  simp [isReadable]

theorem isReadable_word_cons {c : Char} {run : Text} :
    (word (c :: run)).isReadable ↔ CharClass.of c = .plain ∧ ∀ d ∈ run, !isDelimiter d := by
  simp only [isReadable, CharClass.of_eq_plain_iff, List.isEmpty_cons, List.all_cons,
    List.head?_cons, Option.any_some, Bool.and_eq_true, Bool.not_eq_true', List.all_eq_true]
  constructor
  · intro ⟨⟨_, head, inside⟩, quote⟩
    exact ⟨⟨head, quote⟩, inside⟩
  · intro ⟨⟨head, quote⟩, inside⟩
    exact ⟨⟨trivial, head, inside⟩, quote⟩

theorem isReadable_quoted {q : Quote} {body : Text} :
    (quoted q body).isReadable ↔ q.char ∉ body := by
  simp [isReadable]

variable {kind : Kind} {rest : Text}

theorem StandsBefore.source_ne_nil (stands : kind.StandsBefore rest) : kind.source ≠ [] := by
  have readable := stands.readable
  have proper := stands.proper
  cases kind <;> simp_all [source, isReadable]

theorem StandsBefore.form (stands : kind.StandsBefore rest) : kind.Form rest := by
  obtain ⟨readable, proper, apart⟩ := stands
  cases kind with
  | and => exact .doubled .amp rest
  | or => exact .doubled .pipe rest
  | doubleLess => exact .doubled .less rest
  | doubleGreat => exact .doubled .great rest
  | pipe => exact .alone (l := .pipe) rfl (fun same => apart _ same (by decide))
  | less => exact .alone (l := .less) rfl (fun same => apart _ same (by decide))
  | great => exact .alone (l := .great) rfl (fun same => apart _ same (by decide))
  | leftParen => exact .leftParen rest
  | rightParen => exact .rightParen rest
  | space text =>
    cases text with
    | nil => cases readable
    | cons c run =>
      obtain ⟨head, inside⟩ := isReadable_space_cons.mp readable
      exact .space head inside apart
  | word text =>
    cases text with
    | nil => cases readable
    | cons c run =>
      obtain ⟨head, inside⟩ := isReadable_word_cons.mp readable
      exact .word head inside apart
  | quoted q body => exact .quoted (isReadable_quoted.mp readable) rest
  | eof => contradiction

theorem Form.standsBefore (form : kind.Form rest) : kind.StandsBefore rest := by
  cases form with
  | doubled l => cases l <;> exact ⟨rfl, Kind.noConfusion, fun _ _ => Bool.false_ne_true⟩
  | @alone l _ _ alone apart =>
    have glued : ∀ c ∈ rest.head?, ¬ kind.glues c := by
      intro c here
      rw [glues_of_alone? alone, beq_iff_eq]
      intro same
      exact apart (same ▸ here)
    cases l <;> cases alone <;> exact ⟨rfl, Kind.noConfusion, glued⟩
  | leftParen => exact ⟨rfl, Kind.noConfusion, fun _ _ => Bool.false_ne_true⟩
  | rightParen => exact ⟨rfl, Kind.noConfusion, fun _ _ => Bool.false_ne_true⟩
  | space head inside ends =>
    exact ⟨isReadable_space_cons.mpr ⟨head, inside⟩, Kind.noConfusion, ends⟩
  | word head inside ends =>
    exact ⟨isReadable_word_cons.mpr ⟨head, inside⟩, Kind.noConfusion, ends⟩
  | quoted inside =>
    exact ⟨isReadable_quoted.mpr inside, Kind.noConfusion, fun _ _ => Bool.false_ne_true⟩

end Kind

section Runs

variable {p : Char → Bool} {run body rest text : Text} {q : Char}

theorem takeWhile_run (inside : ∀ c ∈ run, p c) (ends : ∀ c ∈ rest.head?, ¬ p c) :
    (run ++ rest).takeWhile p = run := by
  have stops : rest.takeWhile p = [] := by
    cases rest with
    | nil => rfl
    | cons c rest => exact List.takeWhile_cons_of_neg (ends c rfl)
  rw [List.takeWhile_append_of_pos inside, stops, List.append_nil]

theorem not_of_mem_head_dropWhile : ∀ c ∈ (text.dropWhile p).head?, ¬ p c := by
  intro c here
  have stopped := List.head?_dropWhile_not p text
  simp_all

theorem bne_of_not_mem (inside : q ∉ body) : ∀ c ∈ body, c != q := by
  intro c member
  rw [bne_iff_ne]
  intro same
  exact inside (same ▸ member)

theorem takeWhile_body (inside : q ∉ body) (rest : Text) :
    (body ++ q :: rest).takeWhile (· != q) = body :=
  takeWhile_run (bne_of_not_mem inside) (by simp)

end Runs

section Reading

variable {kind : Kind} {c : Char} {cs rest : Text}

theorem exists_form_of_lexeme (found : lexeme c cs = .ok kind) :
    ∃ rest, c :: cs = kind.source ++ rest ∧ kind.Form rest := by
  unfold lexeme at found
  split at found
  case h_1 l lead =>
    obtain rfl := CharClass.of_eq_lead_iff.mp lead
    split_ifs at found with doubled
    · cases found
      obtain ⟨rest, rfl⟩ := List.head?_eq_some_iff.mp doubled
      exact ⟨rest, by rw [Lead.source_doubled]; rfl, .doubled l rest⟩
    · split at found
      case h_1 alone =>
        cases found
        exact ⟨cs, by rw [Lead.source_of_alone? alone]; rfl, .alone alone doubled⟩
      case h_2 => cases found
  case h_2 paren =>
    cases found
    obtain rfl := CharClass.of_eq_leftParen_iff.mp paren
    exact ⟨cs, rfl, .leftParen cs⟩
  case h_3 paren =>
    cases found
    obtain rfl := CharClass.of_eq_rightParen_iff.mp paren
    exact ⟨cs, rfl, .rightParen cs⟩
  case h_4 q quote =>
    obtain rfl := CharClass.of_eq_quote_iff.mp quote
    split_ifs at found with closed
    cases found
    obtain ⟨body, rest, rfl, inside⟩ := List.eq_append_cons_of_mem closed
    rw [takeWhile_body inside]
    exact ⟨rest, by simp [Kind.source], .quoted inside rest⟩
  case h_5 blank =>
    cases found
    exact ⟨cs.dropWhile isBlank, by simp [Kind.source],
      .space (isBlank_iff.mpr blank) (fun _ => List.mem_takeWhile_imp) not_of_mem_head_dropWhile⟩
  case h_6 plain =>
    cases found
    exact ⟨cs.dropWhile (!isDelimiter ·), by simp [Kind.source],
      .word plain (fun _ => List.mem_takeWhile_imp) not_of_mem_head_dropWhile⟩

theorem exists_standsBefore_of_lexeme (found : lexeme c cs = .ok kind) :
    ∃ rest, c :: cs = kind.source ++ rest ∧ kind.StandsBefore rest := by
  obtain ⟨rest, split, form⟩ := exists_form_of_lexeme found
  exact ⟨rest, split, form.standsBefore⟩

theorem lexeme_eq_unpaired_iff :
    lexeme c cs = .error .unpaired ↔ c = '&' ∧ cs.head? ≠ some '&' := by
  constructor
  · intro found
    unfold lexeme at found
    split at found
    case h_1 l lead =>
      obtain rfl := CharClass.of_eq_lead_iff.mp lead
      split_ifs at found with doubled
      split at found
      case h_1 => cases found
      case h_2 alone =>
        obtain rfl := Lead.alone?_eq_none_iff.mp alone
        exact ⟨rfl, doubled⟩
    case h_4 =>
      split_ifs at found
      cases found
    all_goals cases found
  · intro ⟨amp, single⟩
    subst amp
    have lead : CharClass.of '&' = .lead .amp := rfl
    simp only [lexeme, lead, Lead.char, single, if_false, Lead.alone?]

theorem lexeme_eq_unclosed_iff :
    lexeme c cs = .error .unclosed ↔ ∃ q : Quote, c = q.char ∧ q.char ∉ cs := by
  constructor
  · intro found
    unfold lexeme at found
    split at found
    case h_1 l _ =>
      split_ifs at found
      split at found <;> cases found
    case h_4 q quote =>
      split_ifs at found with closed
      exact ⟨q, CharClass.of_eq_quote_iff.mp quote, closed⟩
    all_goals cases found
  · intro ⟨q, quote, unclosed⟩
    subst quote
    simp only [lexeme, CharClass.of_quote_char, unclosed, if_false]

end Reading

end ShellSyntax
