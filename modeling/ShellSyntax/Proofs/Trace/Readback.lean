import ShellSyntax.Proofs.Trace

/-!
# Reading a trace back

The records of a trace tell the kinds of the tokens that were emitted, and with them the text from
which these were read. Of an accepted text this is all, and of a rejected one it is the part in
front of the fault.
-/

namespace ShellSyntax

section Records

def shownKinds (records : List Record) : List FieldValue :=
  records.filterMap (·.field? "kind")

theorem shownKinds_trace (text : Text) :
    shownKinds ((trace text).map Event.record) =
      ((lex text).1.map Token.kind).map (FieldValue.text ∘ Kind.label) := by
  have shown (t : Token) : (Event.emitted t).record.field? "kind" = some (.text t.kind.label) := rfl
  have closing : shownKinds ((Event.closing (tokenize text)).map Event.record) = [] := by
    cases tokenize text <;> rfl
  rw [shownKinds] at closing
  rw [trace_eq, shownKinds, List.map_append, List.filterMap_append, closing]
  simp [List.filterMap_map, Function.comp_def, shown]

theorem kinds_eq_of_records_eq {u v : Text}
    (same : (trace u).map Event.record = (trace v).map Event.record) :
    (lex u).1.map Token.kind = (lex v).1.map Token.kind := by
  have written : Function.Injective (FieldValue.text ∘ Kind.label) :=
    Function.Injective.comp (fun _ _ => FieldValue.text.inj) Kind.label_injective
  apply List.map_injective_iff.mpr written
  rw [← shownKinds_trace, ← shownKinds_trace, same]

end Records

section Texts

variable {text u v : Text} {tokens : List Token} {e : LexError} {o : Nat}

theorem render_lex_of_tokenize_eq_ok (accepted : tokenize text = .ok tokens) :
    render (lex text).1 = text := by
  obtain ⟨kinds, legible, rfl, -⟩ := exists_of_tokenize_eq_ok accepted
  rw [lex_eq_scan, legible.scan_end, render_place]
  simp [Kind.source]

theorem render_lex_of_isAt (rejected : tokenize text = .error e) (isAt : e.IsAt text o) :
    render (lex text).1 = text.take o := by
  obtain ⟨kinds, rest, fault, legible, heads, rfl, rfl, -⟩ := exists_of_isAt rejected isAt
  rw [lex_eq_scan, legible.scan_fault heads, render_place, List.take_left]

theorem render_lex_eq_of_records_eq
    (same : (trace u).map Event.record = (trace v).map Event.record) :
    render (lex u).1 = render (lex v).1 := by
  rw [render_eq_sources, render_eq_sources, kinds_eq_of_records_eq same]

/-- Accepted texts with the same records are the same, and rejected ones are the same up to the
ampersand or the quote that is at fault. -/
theorem records_tell_text (same : (trace u).map Event.record = (trace v).map Event.record) :
    (∀ ts us, tokenize u = .ok ts → tokenize v = .ok us → u = v) ∧
    ∀ e e', tokenize u = .error e → tokenize v = .error e' →
      (∃! o, e.IsAt u o) ∧ (∃! o, e'.IsAt v o) ∧
      ∀ o o', e.IsAt u o → e'.IsAt v o' → u.take o = v.take o' := by
  have written := render_lex_eq_of_records_eq same
  constructor
  · intro ts us first second
    rwa [render_lex_of_tokenize_eq_ok first, render_lex_of_tokenize_eq_ok second] at written
  · intro e e' first second
    refine ⟨existsUnique_isAt first, existsUnique_isAt second, ?_⟩
    intro o o' isAt isAt'
    rwa [render_lex_of_isAt first isAt, render_lex_of_isAt second isAt'] at written

theorem records_tell_text_escapes :
    let u : Text := "\x22\t\\\x22(& b".toList
    let v : Text := "\x22\t\\\x22(&'c".toList
    let events : List Event :=
      [.emitted ⟨.quoted .double ['\t', '\\'], ⟨⟨1, 0⟩, ⟨1, 3⟩⟩⟩,
        .emitted ⟨.leftParen, .point ⟨1, 4⟩⟩, .failed (.unrecognized ⟨1, 6⟩)]
    (trace u = events ∧ trace v = events) ∧ u.take 5 = v.take 5 ∧
      (trace "'\n'".toList).map Event.record ≠ (trace "'\\n'".toList).map Event.record := by
  intro u v events
  have first : trace u = events := rfl
  have second : trace v = events := rfl
  have same : (trace u).map Event.record = (trace v).map Event.record := by rw [first, second]
  have isAt : (LexError.unrecognized ⟨1, 6⟩).IsAt u 5 := ⟨rfl, rfl⟩
  have isAt' : (LexError.unrecognized ⟨1, 6⟩).IsAt v 5 := ⟨rfl, rfl⟩
  refine ⟨⟨first, second⟩, ((records_tell_text same).2 _ _ rfl rfl).2.2 5 5 isAt isAt', ?_⟩
  intro other
  exact absurd ((records_tell_text other).1 _ _ rfl rfl) (by decide)

end Texts

end ShellSyntax
