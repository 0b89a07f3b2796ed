import Mathlib.Data.List.SplitBy
import ShellSyntax.Proofs.Family

/-!
# Reading a list of kinds again

Kinds that are written in any order run together where they are of one family, and nothing else
happens to them: a run is read as the kinds of its normal form, from the same characters. Those
kinds no longer fuse with what stands next to them, so the normal form of a list is what is read
from its source. Only a quote behind a word would be read in another way.
-/

namespace ShellSyntax

namespace Kind

variable {k l : Kind}

theorem family?_eq_word_iff : k.family? = some .word ↔ ∃ text, k = .word text := by
  cases k <;> simp [family?]

theorem runsWith_iff : k.runsWith l ↔ k.family? ≠ none ∧ k.family? = l.family? := by
  rw [runsWith, Bool.and_eq_true, beq_iff_eq, Option.isSome_iff_ne_none]

/-- Whether the quote that `l` begins with is read as a part of `k`. -/
def swallows (k l : Kind) : Bool :=
  match k, l with
  | .word _, .quoted _ _ => true
  | _, _ => false

theorem swallows_iff :
    k.swallows l ↔ (∃ text, k = .word text) ∧ ∃ q body, l = .quoted q body := by
  cases k <;> cases l <;> simp [swallows]

theorem runsWith_or_swallows (fused : k.fuses l) : k.runsWith l ∨ k.swallows l := by
  revert fused
  cases k <;> cases l <;> simp [fuses, runsWith, family?, swallows]

end Kind

inductive IsRun : List Kind → Prop
  | lone {k : Kind} (none : k.family? = none) : IsRun [k]
  | joined {run : List Kind} (f : Family) (nonempty : run ≠ [])
      (family : ∀ k ∈ run, k.family? = some f) : IsRun run

theorem isRun_of_isChain {run : List Kind} (nonempty : run ≠ [])
    (chain : run.IsChain fun k l => k.runsWith l) : IsRun run := by
  induction run with
  | nil => contradiction
  | cons k ks ih =>
    cases ks with
    | nil =>
      cases family : k.family? with
      | none => exact .lone family
      | some f => exact .joined f nonempty (by simpa using family)
    | cons l ls =>
      obtain ⟨runs, further⟩ := List.isChain_cons_cons.mp chain
      obtain ⟨some, same⟩ := Kind.runsWith_iff.mp runs
      cases ih (List.cons_ne_nil l ls) further with
      | lone none => exact absurd (same.trans none) some
      | joined f _ family =>
        have ofHead : k.family? = .some f := same.trans (family l List.mem_cons_self)
        exact .joined f nonempty (List.forall_mem_cons.mpr ⟨ofHead, family⟩)

namespace IsRun

variable {run : List Kind}

theorem readRun_lone {k : Kind} (none : k.family? = none) : readRun [k] = [k] := by
  simp [readRun, none]

theorem readRun_joined {f : Family} (nonempty : run ≠ [])
    (family : ∀ k ∈ run, k.family? = some f) : readRun run = f.read (sources run) := by
  obtain ⟨k, ks, rfl⟩ := List.exists_cons_of_ne_nil nonempty
  have head : k.family? = some f := family k List.mem_cons_self
  cases f <;> simp [readRun, head, Family.read]

theorem spells {f : Family} (nonempty : run ≠ []) (family : ∀ k ∈ run, k.family? = some f)
    (readable : ∀ k ∈ run, k.isReadable) : f.Spells (sources run) := by
  induction run with
  | nil => contradiction
  | cons k ks ih =>
    obtain ⟨here, later⟩ := List.forall_mem_cons.mp family
    obtain ⟨readable, furtherReadable⟩ := List.forall_mem_cons.mp readable
    have first := Family.spells_source readable here
    cases ks with
    | nil => simpa using first
    | cons l ls => exact first.append (ih (List.cons_ne_nil l ls) later furtherReadable)

structure Reading (kinds run : List Kind) : Prop where
  source : sources kinds = sources run
  nonempty : kinds ≠ []
  readable : ∀ k ∈ kinds, k.isReadable
  apart : kinds.IsChain fun k l => ¬ k.fuses l
  family : ∀ k ∈ kinds, ∀ l ∈ run, k.family? = l.family?
  lone : ∀ l ∈ run, l.family? = none → kinds = [l]
  proper : .eof ∈ kinds → .eof ∈ run

theorem reading (isRun : IsRun run) (readable : ∀ k ∈ run, k.isReadable) :
    Reading (readRun run) run := by
  cases isRun with
  | @lone k none =>
    rw [readRun_lone none]
    exact ⟨rfl, List.cons_ne_nil k [], readable, List.isChain_singleton k, by simp, by simp, id⟩
  | joined f nonempty family =>
    have spells : f.Spells (sources run) := spells nonempty family readable
    have source : sources (f.read (sources run)) = sources run := Family.sources_read spells
    rw [readRun_joined nonempty family]
    refine ⟨source, ?_, fun k => Family.isReadable_of_mem_read spells,
      Family.isChain_read spells, ?_, ?_, ?_⟩
    · intro empty
      rw [empty] at source
      exact spells.nonempty source.symm
    · intro k member l inside
      rw [Family.family?_of_mem_read spells member, family l inside]
    · intro l inside none
      rw [family l inside] at none
      cases none
    · intro eof
      cases Family.family?_of_mem_read spells eof

end IsRun

theorem IsRun.Reading.not_fuses {ks ls as bs : List Kind} {k l a b : Kind}
    (first : Reading ks as) (second : Reading ls bs) (hk : k ∈ ks) (hl : l ∈ ls) (ha : a ∈ as)
    (hb : b ∈ bs) (splits : ¬ a.runsWith b) (free : ¬ a.swallows b) : ¬ k.fuses l := by
  have ofFirst : k.family? = a.family? := first.family k hk a ha
  have ofSecond : l.family? = b.family? := second.family l hl b hb
  intro fused
  rcases Kind.runsWith_or_swallows fused with runs | swallowed
  · rw [Kind.runsWith, ofFirst, ofSecond] at runs
    exact splits runs
  · -- A quoted kind has no family, so it makes up its run alone and is what stood there before.
    obtain ⟨⟨text, rfl⟩, q, body, rfl⟩ := Kind.swallows_iff.mp swallowed
    have same := second.lone b hb ofSecond.symm
    obtain rfl : Kind.quoted q body = b := by simpa [same] using hl
    exact free (Kind.swallows_iff.mpr ⟨Kind.family?_eq_word_iff.mp ofFirst.symm, q, body, rfl⟩)

section Splitting

variable {kinds : List Kind}

theorem mem_of_mem_splitBy {α : Type} {r : α → α → Bool} {xs run : List α} {x : α}
    (member : run ∈ xs.splitBy r) (inside : x ∈ run) : x ∈ xs := by
  rw [← List.flatten_splitBy r xs]
  exact List.mem_flatten_of_mem member inside

theorem reading_of_mem_splitBy {run : List Kind} (readable : ∀ k ∈ kinds, k.isReadable)
    (member : run ∈ kinds.splitBy Kind.runsWith) : IsRun.Reading (readRun run) run := by
  have isRun := isRun_of_isChain (List.ne_nil_of_mem_splitBy member)
    (List.isChain_of_mem_splitBy member)
  exact isRun.reading fun k inside => readable k (mem_of_mem_splitBy member inside)

theorem isChain_flatMap_readRun (readable : ∀ k ∈ kinds, k.isReadable)
    (free : kinds.IsChain fun k l => ¬ k.swallows l) :
    ((kinds.splitBy Kind.runsWith).flatMap readRun).IsChain fun k l => ¬ k.fuses l := by
  have reading : ∀ run ∈ kinds.splitBy Kind.runsWith, IsRun.Reading (readRun run) run :=
    fun _ => reading_of_mem_splitBy readable
  have splits := List.isChain_getLast_head_splitBy Kind.runsWith kinds
  have nonempty := List.nil_notMem_splitBy Kind.runsWith kinds
  rw [← List.flatten_splitBy Kind.runsWith kinds, List.isChain_flatten nonempty] at free
  have read : [] ∉ (kinds.splitBy Kind.runsWith).map readRun := by
    intro member
    obtain ⟨run, inside, empty⟩ := List.mem_map.mp member
    exact (reading run inside).nonempty empty
  rw [List.flatMap_def, List.isChain_flatten read, List.isChain_map, List.forall_mem_map]
  refine ⟨fun run inside => (reading run inside).apart, ?_⟩
  rw [List.isChain_iff_forall_rel_of_append_cons_cons] at splits ⊢
  have frees := List.isChain_iff_forall_rel_of_append_cons_cons.mp free.2
  intro as bs before after split k last l first
  obtain ⟨ha, hb, splits⟩ := splits split
  have inFirst : as ∈ kinds.splitBy Kind.runsWith := by simp [split]
  have inSecond : bs ∈ kinds.splitBy Kind.runsWith := by simp [split]
  exact (reading as inFirst).not_fuses (reading bs inSecond) (List.mem_of_mem_getLast? last)
    (List.mem_of_mem_head? first) (List.getLast_mem ha) (List.head_mem hb) (by simp [splits])
    (frees split _ (List.getLast_mem_getLast? ha) _ (List.head_mem_head? hb))

theorem separable_flatMap_readRun (noEnd : .eof ∉ kinds) (readable : ∀ k ∈ kinds, k.isReadable)
    (free : kinds.IsChain fun k l => ¬ k.swallows l) :
    Separable ((kinds.splitBy Kind.runsWith).flatMap readRun) := by
  refine ⟨?_, ?_, forall_neighbours_iff.mpr (isChain_flatMap_readRun readable free)⟩
  · intro member
    obtain ⟨run, inside, eof⟩ := List.mem_flatMap.mp member
    have reading := reading_of_mem_splitBy readable inside
    exact noEnd (mem_of_mem_splitBy inside (reading.proper eof))
  · intro k member
    obtain ⟨run, inside, read⟩ := List.mem_flatMap.mp member
    exact (reading_of_mem_splitBy readable inside).readable k read

theorem sources_flatMap_readRun (readable : ∀ k ∈ kinds, k.isReadable) :
    sources ((kinds.splitBy Kind.runsWith).flatMap readRun) = sources kinds := by
  have same : ∀ run ∈ kinds.splitBy Kind.runsWith, sources (readRun run) = sources run :=
    fun run inside => (reading_of_mem_splitBy readable inside).source
  calc
    _ = (kinds.splitBy Kind.runsWith).flatMap fun run => sources (readRun run) := List.flatMap_assoc
    _ = (kinds.splitBy Kind.runsWith).flatMap sources := List.flatMap_congr same
    _ = sources (kinds.splitBy Kind.runsWith).flatten := by
      rw [sources, ← List.flatMap_id, List.flatMap_assoc]
      rfl
    _ = sources kinds := by rw [List.flatten_splitBy]

end Splitting

theorem sources_filter_eof (kinds : List Kind) :
    sources (kinds.filter (· != .eof)) = sources kinds := by
  induction kinds with
  | nil => rfl
  | cons k ks ih =>
    by_cases eof : k = .eof
    · subst eof
      exact ih
    · simp [eof, ih]

theorem tokenize_render_eq {tokens : List Token} (readable : ∀ t ∈ tokens, t.kind.isReadable)
    (free : ∀ pair ∈ neighbours ((tokens.map Token.kind).filter (· != .eof)),
      ¬ pair.1.swallows pair.2) :
    tokenize (render tokens) = .ok (place .origin (normalForm (tokens.map Token.kind))) := by
  have noEnd : .eof ∉ (tokens.map Token.kind).filter (· != .eof) := by simp
  have readable : ∀ k ∈ (tokens.map Token.kind).filter (· != .eof), k.isReadable := by
    intro k member
    obtain ⟨t, inside, rfl⟩ := List.mem_map.mp (List.mem_of_mem_filter member)
    exact readable t inside
  have separable := separable_flatMap_readRun noEnd readable (forall_neighbours_iff.mp free)
  rw [render_eq_sources, ← sources_filter_eof, ← sources_flatMap_readRun readable]
  exact tokenize_sources (legible_of_separable separable)

/-- However a list of readable tokens came about, its source is read as its normal form, as long
as no quote is written behind a word. -/
theorem tokenize_render_normalForm {tokens : List Token}
    (readable : ∀ t ∈ tokens, t.kind.isReadable)
    (free : ∀ pair ∈ neighbours ((tokens.map Token.kind).filter (· != .eof)),
      ¬ pair.1.swallows pair.2) :
    ∃ again, tokenize (render tokens) = .ok again ∧
      again.map Token.kind = normalForm (tokens.map Token.kind) :=
  ⟨_, tokenize_render_eq readable free, map_kind_place _ _⟩

theorem tokenize_render_normalForm_regrouped :
    let kinds : List Kind := [.pipe, .eof, .or, .word "a'".toList, .eof, .word "b".toList,
      .space " ".toList, .space "\n".toList, .quoted .single "&".toList]
    let tokens : List Token := kinds.map fun kind => ⟨kind, .point .origin⟩
    (∀ t ∈ tokens, t.kind.isReadable) ∧
      (∀ pair ∈ neighbours ((tokens.map Token.kind).filter (· != .eof)),
        ¬ pair.1.swallows pair.2) ∧
      ∃ again, tokenize (render tokens) = .ok again ∧
        again.map Token.kind = [.or, .pipe, .word "a'b".toList, .space " \n".toList,
          .quoted .single "&".toList, .eof] := by
  intro kinds tokens
  have readable : ∀ t ∈ tokens, t.kind.isReadable := by decide
  have free : ∀ pair ∈ neighbours ((tokens.map Token.kind).filter (· != .eof)),
      ¬ pair.1.swallows pair.2 := by decide
  exact ⟨readable, free, tokenize_render_normalForm readable free⟩

end ShellSyntax
