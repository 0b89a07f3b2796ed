import Mathlib.Data.List.Basic
import ShellSyntax.Proofs.Legible
import ShellSyntax.Proofs.Reader.Items

/-!
# Spans divide the text

The spans of the tokens of an accepted text lie one behind the other and leave no character out.
Reading the items whose positions lie in the span of a token gives the source of that token, and
the token of the end has the position of the closing item.
-/

namespace ShellSyntax

def Span.Contains (s : Span) (p : Position) : Prop := s.first ≤ p ∧ p ≤ s.last

instance (s : Span) (p : Position) : Decidable (s.Contains p) :=
  inferInstanceAs (Decidable (_ ∧ _))

def charactersIn (s : Span) (items : List Item) : Text :=
  items.filterMap fun item => if s.Contains item.position then item.char? else none

structure Partitions (tokens : List Token) (text : Text) : Prop where
  closed : ∃ front p, tokens = front ++ [⟨.eof, .point p⟩] ∧ (∀ t ∈ front, t.kind ≠ .eof) ∧
    (itemsOf text).getLast? = some ⟨none, p⟩
  spelled : ∀ t ∈ tokens.dropLast, t.source ≠ [] ∧ charactersIn t.span (itemsOf text) = t.source
  covered : ∀ item ∈ itemsOf text, item.char?.isSome →
    tokens.countP (fun t => t.span.Contains item.position) = 1
  ordered : ∀ k (h : k + 1 < tokens.length),
    tokens[k].span.first ≤ tokens[k].span.last ∧ tokens[k].span.last < tokens[k + 1].span.first

section CharactersIn

variable {s : Span} {items : List Item}

theorem charactersIn_append (s : Span) (items more : List Item) :
    charactersIn s (items ++ more) = charactersIn s items ++ charactersIn s more :=
  List.filterMap_append

theorem charactersIn_eq_nil (outside : ∀ item ∈ items, ¬ s.Contains item.position) :
    charactersIn s items = [] := by
  rw [charactersIn, List.filterMap_eq_nil_iff]
  intro item member
  exact if_neg (outside item member)

theorem charactersIn_eq_filterMap (inside : ∀ item ∈ items, s.Contains item.position) :
    charactersIn s items = items.filterMap Item.char? :=
  List.filterMap_congr fun item member => if_pos (inside item member)

theorem charactersIn_ofText (p : Position) (u v : Text) {part : Text} (nonempty : part ≠ []) :
    charactersIn (.ofText (p.advance u) part) (Reader.itemsFrom p (u ++ (part ++ v))) = part := by
  have before : ∀ item ∈ Reader.charItems p u,
      ¬ (Span.ofText (p.advance u) part).Contains item.position := by
    intro item member contained
    exact contained.1.not_gt (Reader.lt_of_mem_charItems member)
  have within : ∀ item ∈ Reader.charItems (p.advance u) part,
      (Span.ofText (p.advance u) part).Contains item.position := fun item member =>
    ⟨Reader.le_of_mem_charItems member, Reader.le_last_of_mem_charItems member⟩
  have after : ∀ item ∈ Reader.itemsFrom ((p.advance u).advance part) v,
      ¬ (Span.ofText (p.advance u) part).Contains item.position := by
    intro item member contained
    have ends := Span.last_ofText_lt (p.advance u) nonempty
    exact (contained.2.trans_lt ends).not_ge (Reader.le_of_mem_itemsFrom member)
  rw [Reader.itemsFrom_append, Reader.itemsFrom_append, charactersIn_append, charactersIn_append,
    charactersIn_eq_nil before, charactersIn_eq_nil after, charactersIn_eq_filterMap within,
    Reader.filterMap_charItems, List.nil_append, List.append_nil]

end CharactersIn

section Placed

variable {p q : Position} {kinds : List Kind} {t : Token}

theorem mem_place (member : t ∈ place p kinds) :
    ∃ ks ls, kinds = ks ++ t.kind :: ls ∧
      t.span = .ofText (p.advance (sources ks)) t.kind.source := by
  obtain ⟨before, after, split⟩ := List.append_of_mem member
  refine ⟨before.map Token.kind, after.map Token.kind, kinds_eq_of_place_eq split, ?_⟩
  rw [span_of_place_eq split, render_eq_sources]
  rfl

theorem le_first_of_mem_place (member : t ∈ place p kinds) : p ≤ t.span.first := by
  obtain ⟨ks, ls, -, span⟩ := mem_place member
  rw [span]
  exact p.le_advance _

theorem first_le_last_of_mem_place (member : t ∈ place p kinds) : t.span.first ≤ t.span.last := by
  obtain ⟨ks, ls, -, span⟩ := mem_place member
  rw [span]
  exact Span.first_le_last_ofText _ _

theorem pairwise_place (nonempty : ∀ k ∈ kinds, k.source ≠ []) :
    (place p (kinds ++ [.eof])).Pairwise fun t u => t.span.last < u.span.first := by
  induction kinds generalizing p with
  | nil => exact List.pairwise_singleton _ _
  | cons k kinds ih =>
    obtain ⟨here, later⟩ := List.forall_mem_cons.mp nonempty
    refine List.pairwise_cons.mpr ⟨fun u member => ?_, ih later⟩
    exact (Span.last_ofText_lt p here).trans_le (le_first_of_mem_place member)

theorem countP_place_eq_zero (before : q < p) (kinds : List Kind) :
    (place p kinds).countP (fun t => t.span.Contains q) = 0 := by
  rw [List.countP_eq_zero]
  intro t member contained
  have first := (of_decide_eq_true contained).1
  exact ((le_first_of_mem_place member).trans first).not_gt before

theorem countP_place (nonempty : ∀ k ∈ kinds, k.source ≠ []) :
    ∀ item ∈ Reader.charItems p (sources kinds),
      (place p (kinds ++ [.eof])).countP (fun t => t.span.Contains item.position) = 1 := by
  induction kinds generalizing p with
  | nil => simp [Reader.charItems]
  | cons k kinds ih =>
    obtain ⟨here, later⟩ := List.forall_mem_cons.mp nonempty
    intro item member
    rw [sources, List.flatMap_cons, Reader.charItems_append, List.mem_append] at member
    rw [List.cons_append, place]
    rcases member with inside | further
    · have contained : (Span.ofText p k.source).Contains item.position :=
        ⟨Reader.le_of_mem_charItems inside, Reader.le_last_of_mem_charItems inside⟩
      have others := countP_place_eq_zero (Reader.lt_of_mem_charItems inside) (kinds ++ [.eof])
      rw [List.countP_cons, others, if_pos (decide_eq_true contained)]
    · have missed : ¬ (Span.ofText p k.source).Contains item.position := fun contained =>
        (contained.2.trans_lt (Span.last_ofText_lt p here)).not_ge
          (Reader.le_of_mem_charItems further)
      rw [List.countP_cons, ih later item further, if_neg (by simpa using missed)]

end Placed

theorem Legible.partitions {kinds : List Kind} (legible : Legible kinds []) :
    Partitions (place .origin (kinds ++ [.eof])) (sources kinds) where
  closed := by
    refine ⟨place .origin kinds, Position.origin.advance (sources kinds), place_append _ _ _,
      ?_, ?_⟩
    · intro t member eof
      obtain ⟨ks, ls, rfl, -⟩ := mem_place member
      exact legible.eof_not_mem (by simp [eof])
    · rw [itemsOf, Reader.ofText, Reader.items, Reader.itemsFrom_eq_concat]
      exact List.getLast?_concat
  spelled := by
    intro t member
    rw [place_append, place_eof, List.dropLast_concat] at member
    obtain ⟨ks, ls, split, span⟩ := mem_place member
    have nonempty : t.kind.source ≠ [] := legible.source_ne_nil _ (by simp [split])
    have text : sources kinds = sources ks ++ (t.kind.source ++ sources ls) := by simp [split]
    refine ⟨nonempty, ?_⟩
    rw [span, text]
    exact charactersIn_ofText .origin (sources ks) (sources ls) nonempty
  covered := by
    intro item member char
    rw [itemsOf, Reader.ofText, Reader.items, Reader.itemsFrom_eq_concat, List.mem_append] at member
    rcases member with inside | closing
    · exact countP_place legible.source_ne_nil item inside
    · obtain rfl := List.mem_singleton.mp closing
      cases char
  ordered := by
    intro k h
    refine ⟨first_le_last_of_mem_place (List.getElem_mem _), ?_⟩
    exact List.pairwise_iff_getElem.mp (pairwise_place legible.source_ne_nil) k (k + 1) _ h
      k.lt_succ_self

/-- The spans of the tokens of an accepted text divide its characters between them, in order. -/
theorem tokenize_partitions {text : Text} {tokens : List Token}
    (accepted : tokenize text = .ok tokens) : Partitions tokens text := by
  obtain ⟨kinds, legible, rfl, rfl⟩ := exists_of_tokenize_eq_ok accepted
  exact legible.partitions

theorem tokenize_partitions_lines :
    let text : Text := "a'b\nc'\n |".toList
    let tokens : List Token :=
      [⟨.word ['a', '\x27', 'b'], ⟨⟨1, 0⟩, ⟨1, 2⟩⟩⟩, ⟨.space ['\n'], .point ⟨1, 3⟩⟩,
        ⟨.word ['c', '\x27'], ⟨⟨2, 0⟩, ⟨2, 1⟩⟩⟩, ⟨.space ['\n', ' '], ⟨⟨2, 2⟩, ⟨3, 0⟩⟩⟩,
        ⟨.pipe, .point ⟨3, 1⟩⟩, ⟨.eof, .point ⟨3, 2⟩⟩]
    tokenize text = .ok tokens ∧ Partitions tokens text :=
  ⟨rfl, tokenize_partitions rfl⟩

end ShellSyntax
