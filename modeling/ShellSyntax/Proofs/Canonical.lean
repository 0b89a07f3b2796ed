import Mathlib.Data.List.Chain
import ShellSyntax.Proofs.Legible
import ShellSyntax.Proofs.Reader.Items

/-!
# The lists that lexing gives

Which kinds can be read from a text without a fault shows on their neighbours alone: each kind is
readable, and none of them fuses with the next. With every token in its place, such a list with one
end behind it is canonical, and the canonical lists are exactly those that tokenizing gives.

Every character of an accepted text lies in the source of one of its tokens, so rendering the
tokens gives the text back. Whatever list of tokens is rendered, tokenizing once more therefore
changes its text no further, and the kinds of an accepted text tell what the text was.
-/

namespace ShellSyntax

section Rendering

theorem render_of_tokenize {text : Text} {tokens : List Token}
    (accepted : tokenize text = .ok tokens) : render tokens = text := by
  obtain ⟨kinds, -, rfl, rfl⟩ := exists_of_tokenize_eq_ok accepted
  simp [render_place, Kind.source]

theorem tokenize_render {text : Text} {tokens : List Token}
    (accepted : tokenize text = .ok tokens) : tokenize (render tokens) = .ok tokens := by
  rwa [render_of_tokenize accepted]

/-- Rendering undoes tokenizing. The tokens of any rendered list are rendered to the same text
and are read from it again, and texts with the same kinds of tokens are the same. -/
theorem tokenize_render_round_trip :
    (∀ text tokens, tokenize text = .ok tokens → render tokens = text) ∧
    (∀ written tokens, tokenize (render written) = .ok tokens →
      render tokens = render written ∧ tokenize (render tokens) = .ok tokens) ∧
    ∀ u v ts us, tokenize u = .ok ts → tokenize v = .ok us →
      ts.map Token.kind = us.map Token.kind → u = v := by
  refine ⟨fun _ _ => render_of_tokenize, ?_, ?_⟩
  · intro written tokens accepted
    exact ⟨render_of_tokenize accepted, tokenize_render accepted⟩
  · intro u v ts us first second kinds
    rw [← render_of_tokenize first, ← render_of_tokenize second, render_eq_sources, kinds,
      ← render_eq_sources]

theorem tokenize_render_round_trip_signs :
    let written : List Token :=
      [⟨.less, .point .origin⟩, ⟨.eof, .point .origin⟩, ⟨.less, .point .origin⟩]
    let tokens : List Token := [⟨.doubleLess, ⟨⟨1, 0⟩, ⟨1, 1⟩⟩⟩, ⟨.eof, .point ⟨1, 2⟩⟩]
    tokenize ['<', '<'] = .ok tokens ∧ render tokens = ['<', '<'] ∧
      (tokenize (render written) = .ok tokens ∧ render tokens = render written ∧
        tokenize (render tokens) = .ok tokens) ∧
      render written = ['<', '<'] :=
  ⟨rfl, tokenize_render_round_trip.1 _ _ rfl, ⟨rfl, tokenize_render_round_trip.2.1 _ _ rfl⟩,
    tokenize_render_round_trip.2.2 _ _ _ _ rfl rfl rfl⟩

end Rendering

theorem forall_neighbours_iff {α : Type} {R : α → α → Prop} {xs : List α} :
    (∀ pair ∈ neighbours xs, R pair.1 pair.2) ↔ xs.IsChain R := by
  induction xs with
  | nil => simp [neighbours]
  | cons x xs ih =>
    cases xs with
    | nil => simp [neighbours]
    | cons y ys =>
      rw [List.isChain_cons_cons, ← ih]
      simp [neighbours]

namespace Kind

def opening? : Kind → Option CharClass
  | .and => some (.lead .amp)
  | .or | .pipe => some (.lead .pipe)
  | .less | .doubleLess => some (.lead .less)
  | .great | .doubleGreat => some (.lead .great)
  | .leftParen => some .leftParen
  | .rightParen => some .rightParen
  | .space _ => some .blank
  | .word _ => some .plain
  | .quoted q _ => some (.quote q)
  | .eof => none

def takes : Kind → CharClass → Bool
  | .space _, charClass => charClass == .blank
  | .word _, charClass => !charClass.delimits
  | .less, charClass => charClass == .lead .less
  | .great, charClass => charClass == .lead .great
  | .pipe, charClass => charClass == .lead .pipe
  | _, _ => false

variable {k l : Kind} {rest : Text}

theorem class_head_source (readable : k.isReadable) :
    k.source.head?.map CharClass.of = k.opening? := by
  cases k with
  | space text =>
    cases text with
    | nil => cases readable
    | cons c run => exact congrArg some (isBlank_iff.mp (isReadable_space_cons.mp readable).1)
  | word text =>
    cases text with
    | nil => cases readable
    | cons c run => exact congrArg some (isReadable_word_cons.mp readable).1
  | quoted q body => exact congrArg some (CharClass.of_quote_char q)
  | _ => rfl

theorem glues_eq_takes (k : Kind) (c : Char) : k.glues c = k.takes (CharClass.of c) := by
  have sign (l : Lead) : (c == l.char) = (CharClass.of c == .lead l) := by
    rw [Bool.eq_iff_iff, beq_iff_eq, beq_iff_eq, CharClass.of_eq_lead_iff]
  cases k with
  | less => exact sign .less
  | great => exact sign .great
  | pipe => exact sign .pipe
  | _ => rfl

theorem fuses_eq_takes (k l : Kind) : k.fuses l = l.opening?.any k.takes := by
  cases k <;> cases l <;> rfl

theorem fuses_iff_glues (readable : l.isReadable) :
    k.fuses l ↔ ∃ c ∈ l.source.head?, k.glues c := by
  rw [fuses_eq_takes, ← class_head_source readable]
  cases l.source.head? <;> simp [glues_eq_takes]

theorem apart_iff_not_fuses (stands : l.StandsBefore rest) (later : Text) :
    (∀ c ∈ (l.source ++ later).head?, ¬ k.glues c) ↔ ¬ k.fuses l := by
  rw [List.head?_append_of_ne_nil _ stands.source_ne_nil, fuses_iff_glues stands.readable]
  simp

end Kind

namespace Legible

variable {kinds : List Kind} {rest : Text}

theorem readable (legible : Legible kinds rest) : ∀ k ∈ kinds, k.isReadable := by
  induction kinds with
  | nil => simp
  | cons k ks ih => exact List.forall_mem_cons.mpr ⟨legible.1.readable, ih legible.2⟩

theorem isChain (legible : Legible kinds rest) : kinds.IsChain fun k l => ¬ k.fuses l := by
  induction kinds with
  | nil => exact List.isChain_nil
  | cons k ks ih =>
    obtain ⟨stands, further⟩ := legible
    refine List.isChain_cons.mpr ⟨?_, ih further⟩
    intro l next
    obtain ⟨ls, rfl⟩ := List.head?_eq_some_iff.mp next
    apply (Kind.apart_iff_not_fuses further.1 (sources ls ++ rest)).mp
    simpa using stands.apart

end Legible

theorem legible_of_separable {kinds : List Kind} (separable : Separable kinds) :
    Legible kinds [] := by
  obtain ⟨noEnd, readable, parted⟩ := separable
  have apart : kinds.IsChain fun k l => ¬ k.fuses l := forall_neighbours_iff.mp parted
  clear parted
  induction kinds with
  | nil => trivial
  | cons k ks ih =>
    obtain ⟨ofHead, ofTail⟩ := List.forall_mem_cons.mp readable
    have further : Legible ks [] :=
      ih (fun member => noEnd (.tail k member)) ofTail apart.tail
    refine ⟨⟨ofHead, fun same => noEnd (same ▸ List.mem_cons_self), ?_⟩, further⟩
    cases ks with
    | nil => simp
    | cons l ls =>
      have parted : ¬ k.fuses l := (List.isChain_cons_cons.mp apart).1
      rw [sources, List.flatMap_cons, List.append_assoc]
      exact (Kind.apart_iff_not_fuses further.1 _).mpr parted

theorem legible_iff_separable {kinds : List Kind} : Legible kinds [] ↔ Separable kinds := by
  constructor
  · intro legible
    exact ⟨legible.eof_not_mem, legible.readable, forall_neighbours_iff.mpr legible.isChain⟩
  · exact legible_of_separable

example :
    Separable [.doubleLess, .less, .quoted .single ['a'], .word ['b']] ∧
      ¬ Separable [.less, .doubleLess] := by
  decide

section InPlace

/-- Each token begins and ends with the items that its source takes up in the rendered list. A
token without a source, as the end is, stands at the item behind all that is rendered before it. -/
def InPlace (tokens : List Token) : Prop :=
  ∀ before t after, tokens = before ++ t :: after →
    let positions := (itemsOf (render tokens)).map Item.position
    positions[(render before).length]? = some t.span.first ∧
      positions[(render before).length + (t.source.length - 1)]? = some t.span.last

theorem getElem?_position_itemsOf (u v : Text) :
    ((itemsOf (u ++ v)).map Item.position)[u.length]? = some (Position.origin.advance u) := by
  obtain ⟨items, here⟩ := Reader.itemsFrom_eq_cons (Position.origin.advance u) v
  rw [itemsOf, Reader.ofText, Reader.items, Reader.itemsFrom_append, here, List.map_append,
    List.getElem?_append_right (by simp)]
  simp

theorem positions_of_source (before : List Token) (t : Token) (after : List Token) :
    let positions := (itemsOf (render (before ++ t :: after))).map Item.position
    let span := Span.ofText (Position.origin.advance (render before)) t.source
    positions[(render before).length]? = some span.first ∧
      positions[(render before).length + (t.source.length - 1)]? = some span.last := by
  have source : t.source.dropLast ++ t.source.drop (t.source.length - 1) = t.source := by
    rw [List.dropLast_eq_take, List.take_append_drop]
  have start : render (before ++ t :: after) = render before ++ (t.source ++ render after) := by
    simp
  have stop : render (before ++ t :: after) =
      (render before ++ t.source.dropLast) ++
        (t.source.drop (t.source.length - 1) ++ render after) := by
    rw [start, List.append_assoc, ← List.append_assoc t.source.dropLast, source]
  have size : (render before ++ t.source.dropLast).length =
      (render before).length + (t.source.length - 1) := by
    rw [List.length_append, List.length_dropLast]
  constructor
  · rw [start]
    exact getElem?_position_itemsOf _ _
  · rw [stop, ← size, getElem?_position_itemsOf, Position.advance_append]
    rfl

theorem eq_place_of_spans {p : Position} {tokens : List Token}
    (spans : ∀ before t after, tokens = before ++ t :: after →
      t.span = .ofText (p.advance (render before)) t.source) :
    tokens = place p (tokens.map Token.kind) := by
  induction tokens generalizing p with
  | nil => rfl
  | cons t ts ih =>
    have here : t = ⟨t.kind, .ofText p t.kind.source⟩ :=
      congrArg (Token.mk t.kind) (spans [] t ts rfl)
    have later : ts = place (p.advance t.kind.source) (ts.map Token.kind) := by
      apply ih
      intro before u after split
      have span := spans (t :: before) u after (congrArg (t :: ·) split)
      rwa [render_cons, Position.advance_append] at span
    rw [List.map_cons, place, ← here, ← later]

theorem inPlace_iff {tokens : List Token} :
    InPlace tokens ↔ tokens = place .origin (tokens.map Token.kind) := by
  constructor
  · intro inPlace
    apply eq_place_of_spans
    intro before t after split
    obtain ⟨first, last⟩ := positions_of_source before t after
    obtain ⟨first', last'⟩ := inPlace before t after split
    rw [split, first] at first'
    rw [split, last] at last'
    exact congrArg₂ Span.mk (Option.some.inj first').symm (Option.some.inj last').symm
  · intro placed before t after split
    rw [split, span_of_place_eq (placed.symm.trans split)]
    exact positions_of_source before t after

end InPlace

theorem canonical_iff_inPlace {tokens : List Token} :
    Canonical tokens ↔
      (∃ kinds, Separable kinds ∧ tokens.map Token.kind = kinds ++ [.eof]) ∧ InPlace tokens := by
  rw [inPlace_iff, Canonical]
  constructor
  · intro ⟨kinds, separable, placed⟩
    have same : tokens.map Token.kind = kinds ++ [.eof] := by rw [placed, map_kind_place]
    exact ⟨⟨kinds, separable, same⟩, by rw [same]; exact placed⟩
  · intro ⟨⟨kinds, separable, same⟩, placed⟩
    exact ⟨kinds, separable, same ▸ placed⟩

theorem tokenize_eq_ok_iff_canonical {text : Text} {tokens : List Token} :
    tokenize text = .ok tokens ↔ Canonical tokens ∧ text = render tokens := by
  constructor
  · intro accepted
    obtain ⟨kinds, legible, -, placed⟩ := exists_of_tokenize_eq_ok accepted
    exact ⟨⟨kinds, legible_iff_separable.mp legible, placed⟩, (render_of_tokenize accepted).symm⟩
  · intro ⟨⟨kinds, separable, placed⟩, rendered⟩
    have written : render tokens = sources kinds := by
      simp [placed, render_place, Kind.source]
    rw [rendered, written, placed]
    exact tokenize_sources (legible_iff_separable.mpr separable)

/-- The canonical lists are exactly those that tokenizing gives, each for the text it renders. -/
theorem tokenize_image (tokens : List Token) :
    ((∃ text, tokenize text = .ok tokens) ↔ Canonical tokens) ∧
    (∀ text, tokenize text = .ok tokens ↔ Canonical tokens ∧ text = render tokens) ∧
    (tokenize (render tokens) = .ok tokens ↔ Canonical tokens) ∧
    (Canonical tokens ↔
      (∃ kinds, Separable kinds ∧ tokens.map Token.kind = kinds ++ [.eof]) ∧ InPlace tokens) := by
  refine ⟨?_, fun text => tokenize_eq_ok_iff_canonical, ?_, canonical_iff_inPlace⟩
  · simp [tokenize_eq_ok_iff_canonical]
  · simp [tokenize_eq_ok_iff_canonical]

end ShellSyntax
