import ShellSyntax.Proofs.Canonical

/-!
# What a family makes up

The readable kinds of one family write texts of one sort: blanks, the characters of a word, or the
same sign again and again. Whichever of them have written such a text, it is read as the same
kinds, which are of the family again and do not fuse with each other.
-/

namespace ShellSyntax

theorem isQuote_iff {c : Char} : isQuote c ↔ ∃ q, CharClass.of c = .quote q := by
  unfold isQuote
  cases CharClass.of c <;> simp

namespace Kind

theorem not_fuses_doubled (l : Lead) (k : Kind) : ¬ l.doubled.fuses k := by
  cases l <;> simp [Lead.doubled, fuses]

end Kind

section Signs

variable {l : Lead} {single : Kind} {n : Nat}

theorem readSigns_eq (alone : l.alone? = some single) (n : Nat) :
    readSigns l n = List.replicate (n / 2) l.doubled ++ List.replicate (n % 2) single := by
  rw [readSigns, alone]
  rcases Nat.mod_two_eq_zero_or_one n with even | odd
  · simp [even]
  · simp [odd]

theorem sources_readSigns (alone : l.alone? = some single) (n : Nat) :
    sources (readSigns l n) = List.replicate n l.char := by
  have double : l.doubled.source = List.replicate 2 l.char := Lead.source_doubled l
  have one : single.source = List.replicate 1 l.char := Lead.source_of_alone? alone
  rw [readSigns_eq alone, sources, List.flatMap_append, List.flatMap_replicate,
    List.flatMap_replicate, double, one, List.flatten_replicate_replicate,
    List.flatten_replicate_replicate, List.replicate_append_replicate]
  congr 1
  omega

theorem mem_readSigns {k : Kind} (alone : l.alone? = some single) (member : k ∈ readSigns l n) :
    k = l.doubled ∨ k = single := by
  rw [readSigns_eq alone, List.mem_append] at member
  rcases member with pairs | rest
  · exact .inl (List.eq_of_mem_replicate pairs)
  · exact .inr (List.eq_of_mem_replicate rest)

theorem isChain_readSigns (alone : l.alone? = some single) (n : Nat) :
    (readSigns l n).IsChain fun k l => ¬ k.fuses l := by
  rw [readSigns_eq alone, List.isChain_append]
  refine ⟨List.isChain_replicate_of_rel _ (Kind.not_fuses_doubled l _), ?_, ?_⟩
  · rcases Nat.mod_two_eq_zero_or_one n with even | odd
    · simp [even]
    · simp [odd]
  · intro k pair next _
    obtain rfl := List.eq_of_mem_replicate (List.mem_of_mem_getLast? pair)
    exact Kind.not_fuses_doubled l next

end Signs

namespace Family

def read : Family → Text → List Kind
  | .space, text => [.space text]
  | .word, text => [.word text]
  | .sign l, text => readSigns l text.length

def member : Family → Char → Bool
  | .space, c => isBlank c
  | .word, c => !isDelimiter c
  | .sign l, c => c == l.char

structure Spells (f : Family) (text : Text) : Prop where
  paired : f ≠ .sign .amp
  nonempty : text ≠ []
  inside : ∀ c ∈ text, f.member c
  head : ∀ c ∈ text.head?, ¬ isQuote c

variable {f : Family} {k : Kind} {u v text : Text}

theorem member_of_mem_source (readable : k.isReadable) (family : k.family? = some f) :
    ∀ c ∈ k.source, f.member c := by
  cases k <;> cases family
  case space => exact (Kind.isReadable_space_iff.mp readable).2
  case word => exact (Kind.isReadable_word_iff.mp readable).2.1
  all_goals simp [Kind.source, member, Lead.char]

theorem not_isQuote_head (readable : k.isReadable) (family : k.family? = some f) :
    ∀ c ∈ k.source.head?, ¬ isQuote c := by
  intro c here quote
  obtain ⟨q, charClass⟩ := isQuote_iff.mp quote
  have opening := Kind.class_head_source readable
  rw [here, Option.map_some, charClass] at opening
  cases k <;> cases family <;> cases opening

theorem spells_source (readable : k.isReadable) (family : k.family? = some f) :
    f.Spells k.source := by
  have proper : k ≠ .eof := by
    intro same
    subst same
    cases family
  have stands : k.StandsBefore [] := ⟨readable, proper, fun _ none => by cases none⟩
  refine ⟨?_, stands.source_ne_nil, member_of_mem_source readable family,
    not_isQuote_head readable family⟩
  intro same
  subst same
  cases k <;> cases family

theorem Spells.append (first : f.Spells u) (second : f.Spells v) : f.Spells (u ++ v) where
  paired := first.paired
  nonempty := List.append_ne_nil_of_left_ne_nil first.nonempty v
  inside := List.forall_mem_append.mpr ⟨first.inside, second.inside⟩
  head := by
    rw [List.head?_append_of_ne_nil _ first.nonempty]
    exact first.head

theorem Spells.exists_alone {l : Lead} (spells : (sign l).Spells text) :
    ∃ single, l.alone? = some single := by
  rw [← Option.isSome_iff_exists, Option.isSome_iff_ne_none, Ne, Lead.alone?_eq_none_iff]
  intro amp
  exact spells.paired (congrArg sign amp)

theorem Spells.eq_replicate {l : Lead} (spells : (sign l).Spells text) :
    text = List.replicate text.length l.char :=
  List.eq_replicate_of_mem fun c inside => beq_iff_eq.mp (spells.inside c inside)

theorem sources_read (spells : f.Spells text) : sources (f.read text) = text := by
  cases f with
  | space => simp [read, Kind.source]
  | word => simp [read, Kind.source]
  | sign l =>
    obtain ⟨single, alone⟩ := spells.exists_alone
    rw [read, sources_readSigns alone, ← spells.eq_replicate]

theorem family?_of_mem_read (spells : f.Spells text) (member : k ∈ f.read text) :
    k.family? = some f := by
  cases f with
  | space => rw [List.mem_singleton.mp member, Kind.family?]
  | word => rw [List.mem_singleton.mp member, Kind.family?]
  | sign l =>
    obtain ⟨single, alone⟩ := spells.exists_alone
    rcases mem_readSigns alone member with rfl | rfl
    · cases l <;> cases alone <;> rfl
    · cases l <;> cases alone <;> rfl

theorem isReadable_of_mem_read (spells : f.Spells text) (member : k ∈ f.read text) :
    k.isReadable := by
  cases f with
  | space =>
    rw [List.mem_singleton.mp member]
    exact Kind.isReadable_space_iff.mpr ⟨spells.nonempty, spells.inside⟩
  | word =>
    rw [List.mem_singleton.mp member]
    exact Kind.isReadable_word_iff.mpr ⟨spells.nonempty, spells.inside, spells.head⟩
  | sign l =>
    obtain ⟨single, alone⟩ := spells.exists_alone
    rcases mem_readSigns alone member with rfl | rfl
    · cases l <;> rfl
    · cases l <;> cases alone <;> rfl

theorem isChain_read (spells : f.Spells text) :
    (f.read text).IsChain fun k l => ¬ k.fuses l := by
  cases f with
  | space => exact List.isChain_singleton _
  | word => exact List.isChain_singleton _
  | sign l =>
    obtain ⟨single, alone⟩ := spells.exists_alone
    exact isChain_readSigns alone _

end Family

end ShellSyntax
