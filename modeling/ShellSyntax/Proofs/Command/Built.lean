import ShellSyntax.Command.Build

/-!
# What can be built

The building steps never leave a command, a pipeline or a list empty, and the first node of a list
stays what it was. In return every tree of that shape can be built: each part is begun with its
first member, and the others are added behind it in their order.
-/

namespace ShellSyntax

namespace Simple

theorem Built.wellFormed {c : Simple} (built : c.Built) : c.WellFormed := by
  induction built with
  | named name => exact List.cons_ne_nil name []
  | addArg _ value ih => exact List.append_ne_nil_of_left_ne_nil ih [value]
  | addArgs _ values ih => exact List.append_ne_nil_of_left_ne_nil ih values
  | addInput _ r ih => exact ih
  | addOutput _ r ih => exact ih

theorem Built.addInputs {c : Simple} (built : c.Built) (rs : List InputRedirection) :
    Built ⟨c.args, ⟨c.redirections.input ++ rs, c.redirections.output⟩⟩ := by
  induction rs generalizing c with
  | nil => rwa [List.append_nil]
  | cons r rs ih =>
    rw [List.append_cons]
    exact ih (built.addInput r)

theorem Built.addOutputs {c : Simple} (built : c.Built) (rs : List OutputRedirection) :
    Built ⟨c.args, ⟨c.redirections.input, c.redirections.output ++ rs⟩⟩ := by
  induction rs generalizing c with
  | nil => rwa [List.append_nil]
  | cons r rs ih =>
    rw [List.append_cons]
    exact ih (built.addOutput r)

theorem WellFormed.built {c : Simple} (wellFormed : c.WellFormed) : c.Built := by
  obtain ⟨args, input, output⟩ := c
  obtain ⟨name, others, rfl⟩ := List.exists_cons_of_ne_nil wellFormed
  have named : Built ⟨name :: others, {}⟩ := by
    cases others with
    | nil => exact .named name
    | cons value values => exact ((Built.named name).addArg value).addArgs values
  exact (named.addInputs input).addOutputs output

end Simple

namespace Pipeline

theorem Built.wellFormed {p : Pipeline} (built : p.Built) : p.WellFormed := by
  induction built with
  | @ofSimple c built =>
    exact ⟨List.cons_ne_nil c [], List.forall_mem_singleton.mpr built.wellFormed⟩
  | @pipe p c _ built ih =>
    refine ⟨List.append_ne_nil_of_left_ne_nil ih.1 [c], ?_⟩
    exact List.forall_mem_append.mpr ⟨ih.2, List.forall_mem_singleton.mpr built.wellFormed⟩

theorem Built.pipes {p : Pipeline} (built : p.Built) {cs : List Simple}
    (wellFormed : ∀ c ∈ cs, c.WellFormed) : Built ⟨p.commands ++ cs⟩ := by
  induction cs generalizing p with
  | nil => rwa [List.append_nil]
  | cons c cs ih =>
    obtain ⟨here, later⟩ := List.forall_mem_cons.mp wellFormed
    rw [List.append_cons]
    exact ih (built.pipe here.built) later

theorem WellFormed.built {p : Pipeline} (wellFormed : p.WellFormed) : p.Built := by
  obtain ⟨commands⟩ := p
  obtain ⟨nonempty, each⟩ := wellFormed
  obtain ⟨first, others, rfl⟩ := List.exists_cons_of_ne_nil nonempty
  obtain ⟨here, later⟩ := List.forall_mem_cons.mp each
  exact (Built.ofSimple here.built).pipes later

end Pipeline

theorem Node.allWellFormed_iff {nodes : List Node} :
    Node.AllWellFormed nodes ↔ ∀ n ∈ nodes, n.WellFormed := by
  induction nodes with
  | nil => simp [Node.AllWellFormed]
  | cons n ns ih => rw [Node.AllWellFormed, ih, List.forall_mem_cons]

theorem AndOrList.WellFormed.join {l : AndOrList} {c : Command} (list : l.WellFormed)
    (k : Connector) (command : c.WellFormed) : (l.join k c).WellFormed := by
  obtain ⟨nodes⟩ := l
  obtain ⟨first, each⟩ := list
  cases nodes with
  | nil => cases first
  | cons n ns =>
    refine ⟨first, Node.allWellFormed_iff.mpr ?_⟩
    exact List.forall_mem_append.mpr
      ⟨Node.allWellFormed_iff.mp each, List.forall_mem_singleton.mpr command⟩

theorem Compound.WellFormed.redirect {c : Compound} (list : c.WellFormed) (r : Redirections) :
    (c.redirect r).WellFormed := by
  cases c
  exact list

section Nested

-- Lists hold compounds, which hold lists again, so the three are proved together.

mutual

theorem Command.Built.wellFormed : ∀ {c : Command}, c.Built → c.WellFormed
  | _, .ofSimple built => (Pipeline.Built.ofSimple built).wellFormed
  | _, .pipeline built => built.wellFormed
  | _, .compound built => Compound.Built.wellFormed built

theorem Compound.Built.wellFormed : ∀ {c : Compound}, c.Built → c.WellFormed
  | _, .ofList built => AndOrList.Built.wellFormed built
  | _, .redirect built r => (Compound.Built.wellFormed built).redirect r

theorem AndOrList.Built.wellFormed : ∀ {l : AndOrList}, l.Built → l.WellFormed
  | _, .ofCommand built => ⟨rfl, Command.Built.wellFormed built, trivial⟩
  | _, .join list k command =>
    (AndOrList.Built.wellFormed list).join k (Command.Built.wellFormed command)

end

mutual

theorem Command.WellFormed.built : ∀ {c : Command}, c.WellFormed → c.Built
  | .pipeline _, wellFormed => .pipeline (Pipeline.WellFormed.built wellFormed)
  | .compound _, wellFormed => .compound (Compound.WellFormed.built wellFormed)

theorem Compound.WellFormed.built : ∀ {c : Compound}, c.WellFormed → c.Built
  | ⟨_, redirections⟩, wellFormed =>
    .redirect (.ofList (AndOrList.WellFormed.built wellFormed)) redirections

theorem AndOrList.WellFormed.built : ∀ {l : AndOrList}, l.WellFormed → l.Built
  | ⟨⟨.and, _⟩ :: _⟩, ⟨_, command, others⟩ =>
    AndOrList.Built.joins (.ofCommand (Command.WellFormed.built command)) others

theorem AndOrList.Built.joins : ∀ {ns : List Node} {l : AndOrList}, l.Built →
    Node.AllWellFormed ns → AndOrList.Built ⟨l.nodes ++ ns⟩
  | [], ⟨nodes⟩, built, _ => (List.append_nil nodes).symm ▸ built
  | ⟨k, _⟩ :: _, _, built, ⟨command, others⟩ => by
    rw [List.append_cons]
    exact AndOrList.Built.joins (.join built k (Command.WellFormed.built command)) others

end

end Nested

/-- The trees that can be built, at whatever nesting, are exactly the well-formed ones. -/
theorem built_iff_wellFormed :
    (∀ c : Simple, c.Built ↔ c.WellFormed) ∧
    (∀ p : Pipeline, p.Built ↔ p.WellFormed) ∧
    (∀ c : Command, c.Built ↔ c.WellFormed) ∧
    (∀ c : Compound, c.Built ↔ c.WellFormed) ∧
    (∀ l : AndOrList, l.Built ↔ l.WellFormed) ∧
    ∀ p : Program, p.Built ↔ p.WellFormed :=
  ⟨fun _ => ⟨Simple.Built.wellFormed, Simple.WellFormed.built⟩,
    fun _ => ⟨Pipeline.Built.wellFormed, Pipeline.WellFormed.built⟩,
    fun _ => ⟨Command.Built.wellFormed, Command.WellFormed.built⟩,
    fun _ => ⟨Compound.Built.wellFormed, Compound.WellFormed.built⟩,
    fun _ => ⟨AndOrList.Built.wellFormed, AndOrList.WellFormed.built⟩,
    fun _ => ⟨AndOrList.Built.wellFormed, AndOrList.WellFormed.built⟩⟩

end ShellSyntax
