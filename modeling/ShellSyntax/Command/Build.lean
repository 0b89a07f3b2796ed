import ShellSyntax.Command

/-!
# Building command trees

Every tree begins with one part and grows at its end: arguments, redirections, piped commands and
list nodes are added in the order in which they are given. Only the redirections of a compound
are set as a whole.

A tree is well formed when no command, pipeline or list in it is empty and the first node of each
list says `and`. A tree is built when it is the value of some sequence of building steps, with no
part of it written down directly.
-/

namespace ShellSyntax

namespace Simple

def named (name : String) : Simple := { args := [name] }

def addArg (c : Simple) (value : String) : Simple := { c with args := c.args ++ [value] }

def addArgs (c : Simple) (values : List String) : Simple :=
  { c with args := c.args ++ values }

def addInput (c : Simple) (r : InputRedirection) : Simple :=
  { c with redirections := { c.redirections with input := c.redirections.input ++ [r] } }

def addOutput (c : Simple) (r : OutputRedirection) : Simple :=
  { c with redirections := { c.redirections with output := c.redirections.output ++ [r] } }

end Simple

namespace Pipeline

def ofSimple (c : Simple) : Pipeline := ⟨[c]⟩

def pipe (p : Pipeline) (c : Simple) : Pipeline := ⟨p.commands ++ [c]⟩

end Pipeline

def Command.ofSimple (c : Simple) : Command := .pipeline (.ofSimple c)

namespace Compound

def ofList (l : AndOrList) : Compound := ⟨l, {}⟩

def redirect (c : Compound) (r : Redirections) : Compound := ⟨c.list, r⟩

end Compound

namespace AndOrList

def ofCommand (c : Command) : AndOrList := ⟨[⟨.and, c⟩]⟩

def join (l : AndOrList) (k : Connector) (c : Command) : AndOrList := ⟨l.nodes ++ [⟨k, c⟩]⟩

end AndOrList

def Simple.WellFormed (c : Simple) : Prop := c.args ≠ []

def Pipeline.WellFormed (p : Pipeline) : Prop :=
  p.commands ≠ [] ∧ ∀ c ∈ p.commands, c.WellFormed

mutual

def Command.WellFormed : Command → Prop
  | .pipeline p => p.WellFormed
  | .compound c => Compound.WellFormed c

def Compound.WellFormed : Compound → Prop
  | ⟨list, _⟩ => AndOrList.WellFormed list

def AndOrList.WellFormed : AndOrList → Prop
  | ⟨nodes⟩ => nodes.head?.map Node.connector = some .and ∧ Node.AllWellFormed nodes

def Node.AllWellFormed : List Node → Prop
  | [] => True
  | n :: ns => Node.WellFormed n ∧ Node.AllWellFormed ns

def Node.WellFormed : Node → Prop
  | ⟨_, command⟩ => Command.WellFormed command

end

def Program.WellFormed (p : Program) : Prop := p.list.WellFormed

inductive Simple.Built : Simple → Prop where
  | named (name : String) : Built (.named name)
  | addArg {c : Simple} (h : Built c) (value : String) : Built (c.addArg value)
  | addArgs {c : Simple} (h : Built c) (values : List String) : Built (c.addArgs values)
  | addInput {c : Simple} (h : Built c) (r : InputRedirection) : Built (c.addInput r)
  | addOutput {c : Simple} (h : Built c) (r : OutputRedirection) : Built (c.addOutput r)

inductive Pipeline.Built : Pipeline → Prop where
  | ofSimple {c : Simple} (h : c.Built) : Built (.ofSimple c)
  | pipe {p : Pipeline} {c : Simple} (hp : Built p) (hc : c.Built) : Built (p.pipe c)

mutual

inductive Command.Built : Command → Prop where
  | ofSimple {c : Simple} (h : c.Built) : Command.Built (.ofSimple c)
  | pipeline {p : Pipeline} (h : p.Built) : Command.Built (.pipeline p)
  | compound {c : Compound} (h : Compound.Built c) : Command.Built (.compound c)

inductive Compound.Built : Compound → Prop where
  | ofList {l : AndOrList} (h : AndOrList.Built l) : Compound.Built (.ofList l)
  | redirect {c : Compound} (h : Compound.Built c) (r : Redirections) :
      Compound.Built (c.redirect r)

inductive AndOrList.Built : AndOrList → Prop where
  | ofCommand {c : Command} (h : Command.Built c) : AndOrList.Built (.ofCommand c)
  | join {l : AndOrList} {c : Command} (hl : AndOrList.Built l) (k : Connector)
      (hc : Command.Built c) : AndOrList.Built (l.join k c)

end

def Program.Built (p : Program) : Prop := p.list.Built

end ShellSyntax
