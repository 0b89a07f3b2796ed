import ShellSyntax.Proofs.Reader.Items
import ShellSyntax.Reader.Session

/-!
# Sessions follow cursors

Every reader of a session on a text is that text's first reader, read on by some number of items.
Each step changes these numbers as a step on cursors does, so whole sessions give the answers of
cursors into the list of items. What a reader answers does not depend on what is done to others.
-/

namespace ShellSyntax

/-- Whether a step takes items from the reader of this number. Copying a reader takes none. -/
def ReadStep.takesFrom (n : Nat) (s : ReadStep) : Bool := s.reader = n && s.action ≠ .copy

/-- Whether each of the steps is on a reader made so far, when there are `made` at first. -/
def Addressed : Nat → List ReadStep → Prop
  | _, [] => True
  | made, s :: steps =>
    s.reader < made ∧ Addressed (if s.action = .copy then made + 1 else made) steps

namespace Session

variable {session other later : Session} {s : ReadStep} {steps : List ReadStep}
  {answer : ReadAnswer} {answers : List ReadAnswer} {n : Nat}

theorem run_cons (session : Session) (s : ReadStep) (steps : List ReadStep) :
    session.run (s :: steps) =
      (session.step s).bind fun p => (p.2.run steps).map (p.1 :: ·) := by
  simp only [run, Option.map_eq_bind]
  rfl

theorem run_cons_eq_some_iff :
    session.run (s :: steps) = some answers ↔
      ∃ answer later rest, session.step s = some (answer, later) ∧
        later.run steps = some rest ∧ answers = answer :: rest := by
  rw [run_cons]
  simp only [Option.bind_eq_some_iff, Option.map_eq_some_iff, Prod.exists]
  constructor
  · intro ⟨answer, later, here, rest, run, same⟩
    exact ⟨answer, later, rest, here, run, same.symm⟩
  · intro ⟨answer, later, rest, here, run, same⟩
    exact ⟨answer, later, here, rest, run, same.symm⟩

theorem exists_read (action : ReadAction) (reads : action ≠ .copy) :
    ∃ read : Reader → ReadAnswer × Reader, ∀ (session : Session) (n : Nat),
      session.step ⟨n, action⟩ =
        session[n]?.map fun r => ((read r).1, session.set n (read r).2) := by
  cases action with
  | next => exact ⟨fun r => (.item r.next.1, r.next.2), fun _ _ => rfl⟩
  | nth k => exact ⟨fun r => (.item (r.nth k).1, (r.nth k).2), fun _ _ => rfl⟩
  | take k => exact ⟨fun r => (.items (r.take k).1, (r.take k).2), fun _ _ => rfl⟩
  | rest => exact ⟨fun r => (.items r.items, .exhausted), fun _ _ => rfl⟩
  | count => exact ⟨fun r => (.count r.items.length, .exhausted), fun _ _ => rfl⟩
  | last => exact ⟨fun r => (.item r.items.getLast?, .exhausted), fun _ _ => rfl⟩
  | copy => contradiction

theorem step_cases (taken : session.step s = some (answer, later)) :
    ∃ r, session[s.reader]? = some r ∧
      (s.action ≠ .copy ∧ (∃ moved, later = session.set s.reader moved) ∨
        s.action = .copy ∧ later = session ++ [r]) := by
  obtain ⟨n, action⟩ := s
  by_cases copies : action = .copy
  · subst copies
    obtain ⟨r, here, same⟩ := Option.map_eq_some_iff.mp taken
    cases same
    exact ⟨r, here, .inr ⟨rfl, rfl⟩⟩
  · obtain ⟨read, step⟩ := exists_read action copies
    rw [step] at taken
    obtain ⟨r, here, same⟩ := Option.map_eq_some_iff.mp taken
    cases same
    exact ⟨r, here, .inl ⟨copies, _, rfl⟩⟩

theorem isSome_step : (session.step s).isSome ↔ s.reader < session.length := by
  simp [step]

theorem length_of_step (taken : session.step s = some (answer, later)) :
    later.length = if s.action = .copy then session.length + 1 else session.length := by
  obtain ⟨r, -, ⟨reads, moved, rfl⟩ | ⟨copies, rfl⟩⟩ := step_cases taken
  · rw [if_neg reads, List.length_set]
  · rw [if_pos copies, List.length_append, List.length_singleton]

theorem isSome_run_iff : (session.run steps).isSome ↔ Addressed session.length steps := by
  induction steps generalizing session with
  | nil => simp [run, Addressed]
  | cons s steps ih =>
    rw [run_cons, Addressed, ← isSome_step]
    cases taken : session.step s with
    | none => simp
    | some p =>
      rw [Option.bind_some, Option.isSome_map, ih, length_of_step taken]
      simp

section Independence

theorem getElem?_of_step (taken : session.step s = some (answer, later)) (made : n < session.length)
    (elsewhere : ¬ s.takesFrom n) : later[n]? = session[n]? := by
  obtain ⟨r, -, ⟨reads, moved, rfl⟩ | ⟨-, rfl⟩⟩ := step_cases taken
  · have distinct : s.reader ≠ n := by
      intro same
      exact elsewhere (by simp [ReadStep.takesFrom, same, reads])
    exact List.getElem?_set_ne distinct
  · exact List.getElem?_append_left made

theorem run_congr (same : session[n]? = other[n]?) (only : ∀ s ∈ steps, s.takesFrom n) :
    session.run steps = other.run steps := by
  induction steps generalizing session other with
  | nil => rfl
  | cons s steps ih =>
    obtain ⟨here, further⟩ := List.forall_mem_cons.mp only
    obtain ⟨m, action⟩ := s
    obtain ⟨rfl, reads⟩ : m = n ∧ action ≠ .copy := by simpa [ReadStep.takesFrom] using here
    obtain ⟨read, step⟩ := exists_read action reads
    rw [run_cons, run_cons, step, step, same]
    cases there : other[m]? with
    | none => rfl
    | some r =>
      have first : m < session.length := (List.getElem?_eq_some_iff.mp (same.trans there)).1
      have second : m < other.length := (List.getElem?_eq_some_iff.mp there).1
      have moved : (session.set m (read r).2)[m]? = (other.set m (read r).2)[m]? := by
        rw [List.getElem?_set_self first, List.getElem?_set_self second]
      simp only [Option.map_some, Option.bind_some, ih moved further]

theorem run_filter (made : n < session.length) (went : session.run steps = some answers) :
    session.run (steps.filter (·.takesFrom n)) =
      some (((steps.zip answers).filter (·.1.takesFrom n)).map Prod.snd) := by
  induction steps generalizing session answers with
  | nil => rfl
  | cons s steps ih =>
    obtain ⟨answer, later, rest, taken, goes, rfl⟩ := run_cons_eq_some_iff.mp went
    have kept : n < later.length := by
      rw [length_of_step taken]
      split_ifs
      · exact Nat.lt_succ_of_lt made
      · exact made
    have further := ih kept goes
    rw [List.zip_cons_cons, List.filter_cons, List.filter_cons]
    by_cases here : s.takesFrom n
    · rw [if_pos here, if_pos here]
      exact run_cons_eq_some_iff.mpr ⟨answer, later, _, taken, further, rfl⟩
    · rw [if_neg here, if_neg here, ← further]
      have only : ∀ t ∈ steps.filter (·.takesFrom n), t.takesFrom n :=
        fun t member => (List.mem_filter.mp member).2
      exact run_congr (getElem?_of_step taken made here).symm only

end Independence

end Session

namespace Cursor

variable {items : List Item} {cursors later : List Nat} {s : ReadStep} {answer : ReadAnswer}

theorem run_cons (items : List Item) (cursors : List Nat) (s : ReadStep) (steps : List ReadStep) :
    run items cursors (s :: steps) =
      (step items cursors s).bind fun p => (run items p.2 steps).map (p.1 :: ·) := by
  simp only [run, Option.map_eq_bind]
  rfl

theorem le_length_of_step (taken : step items cursors s = some (answer, later))
    (within : ∀ c ∈ cursors, c ≤ items.length) : ∀ c ∈ later, c ≤ items.length := by
  obtain ⟨n, action⟩ := s
  obtain ⟨c, here, same⟩ := Option.map_eq_some_iff.mp taken
  have moved (target : Nat) : ∀ d ∈ cursors.set n (min target items.length), d ≤ items.length := by
    intro d member
    rcases List.mem_or_eq_of_mem_set member with old | rfl
    · exact within d old
    · exact Nat.min_le_right _ _
  cases action with
  | copy =>
    cases same
    exact List.forall_mem_append.mpr
      ⟨within, List.forall_mem_singleton.mpr (within c (List.mem_of_getElem? here))⟩
  | _ =>
    cases same
    exact moved _

end Cursor

section Simulation

variable (text : Text) (cursors : List Nat) (n k : Nat)

def Session.atCursors : Session := cursors.map (Reader.ofText text).skip

theorem Session.set_atCursors :
    (atCursors text cursors).set n ((Reader.ofText text).skip k) =
      atCursors text (cursors.set n (min k (itemsOf text).length)) := by
  rw [atCursors, atCursors, List.map_set, itemsOf, Reader.skip_min]

theorem Session.set_atCursors_exhausted :
    (atCursors text cursors).set n .exhausted =
      atCursors text (cursors.set n (min (itemsOf text).length (itemsOf text).length)) := by
  rw [← set_atCursors, itemsOf, Reader.skip_eq_exhausted (Nat.le_refl _)]

theorem Session.step_atCursors (s : ReadStep) :
    (atCursors text cursors).step s =
      (Cursor.step (itemsOf text) cursors s).map fun p => (p.1, atCursors text p.2) := by
  obtain ⟨n, action⟩ := s
  rw [step, Cursor.step, atCursors, List.getElem?_map, Option.map_map, Option.map_map]
  refine Option.map_congr fun c _ => ?_
  have skipped (j : Nat) :
      ((Reader.ofText text).skip c).skip j = (Reader.ofText text).skip (c + j) :=
    Reader.skip_skip _ c j
  have remaining : ((Reader.ofText text).skip c).items = (itemsOf text).drop c :=
    Reader.items_skip _ c
  cases action with
  | next =>
    refine Prod.ext ?_ ?_
    · exact congrArg ReadAnswer.item (Reader.getElem?_items _ c).symm
    · simp only [Function.comp_apply, Reader.next_skip]
      exact set_atCursors text cursors n (c + 1)
  | nth j =>
    simp only [Function.comp_apply, Reader.nth_eq, skipped, Reader.next_skip]
    refine Prod.ext ?_ ?_
    · exact congrArg ReadAnswer.item (Reader.getElem?_items _ (c + j)).symm
    · exact set_atCursors text cursors n (c + j + 1)
  | take j =>
    simp only [Function.comp_apply, Reader.take_eq, skipped, remaining]
    exact Prod.ext rfl (set_atCursors text cursors n (c + j))
  | rest =>
    simp only [Function.comp_apply, remaining]
    exact Prod.ext rfl (set_atCursors_exhausted text cursors n)
  | count =>
    simp only [Function.comp_apply, remaining, List.length_drop]
    exact Prod.ext rfl (set_atCursors_exhausted text cursors n)
  | last =>
    simp only [Function.comp_apply, remaining, List.getLast?_drop, ← Nat.not_lt, ite_not]
    exact Prod.ext rfl (set_atCursors_exhausted text cursors n)
  | copy => simp [atCursors]

theorem Session.run_atCursors (steps : List ReadStep) :
    (atCursors text cursors).run steps = Cursor.run (itemsOf text) cursors steps := by
  induction steps generalizing cursors with
  | nil => rfl
  | cons s steps ih =>
    rw [run_cons, Cursor.run_cons, step_atCursors, Option.bind_map]
    simp only [Function.comp_def, ih]

end Simulation

/-- A session on a text answers as cursors into its list of items do, and these never pass its end.
Every session on readers made so far goes through, what is done to other readers changes none of the
answers of a reader, and to pick, take or exhaust items is to read over and over. -/
theorem session_follows_cursors (text : Text) :
    ((itemsOf text).length = text.length + 1 ∧
      (itemsOf text).getLast? = some ⟨none, .ofOffset text text.length⟩ ∧
      ∀ cursors s answer later, Cursor.step (itemsOf text) cursors s = some (answer, later) →
        (∀ c ∈ cursors, c ≤ text.length + 1) → ∀ c ∈ later, c ≤ text.length + 1) ∧
    (∀ steps, (Session.ofText text).run steps = Cursor.run (itemsOf text) [0] steps ∧
      (((Session.ofText text).run steps).isSome ↔ Addressed 1 steps)) ∧
    (∀ (session : Session) steps answers n, n < session.length →
      session.run steps = some answers →
      session.run (steps.filter (·.takesFrom n)) =
        some (((steps.zip answers).filter (·.1.takesFrom n)).map Prod.snd)) ∧
    ∀ r : Reader, r.skip r.items.length = .exhausted ∧ ∀ n, r.items[n]? = (r.skip n).next.1 ∧
      r.nth n = (r.skip n).next ∧ r.take n = (r.items.take n, r.skip n) := by
  have length : (itemsOf text).length = text.length + 1 := Reader.length_itemsFrom .origin text
  refine ⟨⟨length, ?_, ?_⟩, ?_, fun _ _ _ _ => Session.run_filter, ?_⟩
  · rw [List.getLast?_eq_getElem?, length, Nat.add_sub_cancel, itemsOf, Reader.getElem?_items,
      Reader.skip_ofText (Nat.le_refl _), List.drop_length]
    rfl
  · intro cursors s answer later taken
    rw [← length]
    exact Cursor.le_length_of_step taken
  · intro steps
    exact ⟨Session.run_atCursors text [0] steps, Session.isSome_run_iff⟩
  · intro r
    exact ⟨Reader.skip_eq_exhausted (Nat.le_refl _), fun n =>
      ⟨r.getElem?_items n, r.nth_eq n, r.take_eq n⟩⟩

theorem session_follows_cursors_copies :
    let text : Text := "a\n".toList
    let copied : Session := [.ofText text, .ofText text]
    let steps : List ReadStep :=
      [⟨0, .nth 18446744073709551615⟩, ⟨1, .next⟩, ⟨0, .copy⟩, ⟨1, .copy⟩, ⟨3, .rest⟩, ⟨1, .last⟩]
    let answers : List ReadAnswer :=
      [.item none, .item (some ⟨some 'a', ⟨1, 0⟩⟩), .reader 2, .reader 3,
        .items [⟨some '\n', ⟨1, 1⟩⟩, ⟨none, ⟨2, 0⟩⟩], .item (some ⟨none, ⟨2, 0⟩⟩)]
    (Session.ofText text).run (⟨0, .copy⟩ :: steps) = some (.reader 1 :: answers) ∧
      copied.run steps = some answers ∧
      copied.run [⟨1, .next⟩, ⟨1, .last⟩] =
        some [.item (some ⟨some 'a', ⟨1, 0⟩⟩), .item (some ⟨none, ⟨2, 0⟩⟩)] ∧
      ∀ c ∈ [3, 1], c ≤ 3 := by
  intro text copied steps answers
  obtain ⟨⟨-, -, within⟩, follows, independent, -⟩ := session_follows_cursors text
  have went : copied.run steps = some answers := by decide
  exact ⟨(follows _).1.trans (by decide), went, independent copied steps answers 1 (by decide) went,
    within [3, 0] ⟨1, .next⟩ _ _ rfl (by decide)⟩

end ShellSyntax
