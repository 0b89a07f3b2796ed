/-!
# Command trees

A simple command has arguments, of which the first is its name, and redirections. Simple commands
joined by pipes make a pipeline. Pipelines and parenthesised lists are the commands that an
and-or list joins. Each node of such a list tells how it is joined to the one before it; on the
first node that has no meaning. Two trees are equal when they have the same shape and the same
strings throughout, which is decided by going through both together.
-/

namespace ShellSyntax

inductive InputRedirection where
  | file (name : String)
  | heredoc (marker : String)
deriving DecidableEq

def InputRedirection.target : InputRedirection → String
  | .file name => name
  | .heredoc marker => marker

inductive OutputRedirection where
  | file (name : String)
  | append (name : String)
deriving DecidableEq

def OutputRedirection.target : OutputRedirection → String
  | .file name | .append name => name

structure Redirections where
  input : List InputRedirection := []
  output : List OutputRedirection := []
deriving DecidableEq

def Redirections.isEmpty (r : Redirections) : Bool :=
  r.input.isEmpty && r.output.isEmpty

structure Simple where
  args : List String := []
  redirections : Redirections := {}
deriving DecidableEq

structure Pipeline where
  commands : List Simple := []
deriving DecidableEq

inductive Connector where
  | and
  | or
deriving DecidableEq

mutual

inductive Command where
  | pipeline (pipeline : Pipeline)
  | compound (compound : Compound)

structure Compound where
  list : AndOrList
  redirections : Redirections

structure AndOrList where
  nodes : List Node

structure Node where
  connector : Connector
  command : Command

end

namespace AndOrList

def empty : AndOrList := ⟨[]⟩

def length (l : AndOrList) : Nat := l.nodes.length

def isEmpty (l : AndOrList) : Bool := l.nodes.isEmpty

end AndOrList

structure Program where
  list : AndOrList

mutual

def Command.decEq : (a b : Command) → Decidable (a = b)
  | .pipeline p, .pipeline q => decidable_of_iff (p = q) (by simp)
  | .compound c, .compound d =>
    match Compound.decEq c d with
    | isTrue h => isTrue (by rw [h])
    | isFalse h => isFalse (by simpa using h)
  | .pipeline _, .compound _ => isFalse (by simp)
  | .compound _, .pipeline _ => isFalse (by simp)

def Compound.decEq : (a b : Compound) → Decidable (a = b)
  | ⟨l, r⟩, ⟨m, s⟩ =>
    match AndOrList.decEq l m with
    | isTrue h => decidable_of_iff (r = s) (by simp [h])
    | isFalse h => isFalse (by simp [h])

def AndOrList.decEq : (a b : AndOrList) → Decidable (a = b)
  | ⟨ns⟩, ⟨ms⟩ =>
    match Node.decEqList ns ms with
    | isTrue h => isTrue (by rw [h])
    | isFalse h => isFalse (by simpa using h)

def Node.decEqList : (a b : List Node) → Decidable (a = b)
  | [], [] => isTrue rfl
  | n :: ns, m :: ms =>
    match Node.decEq n m, Node.decEqList ns ms with
    | isTrue h, isTrue hs => isTrue (by rw [h, hs])
    | isFalse h, _ => isFalse (by simp [h])
    | _, isFalse hs => isFalse (by simp [hs])
  | [], _ :: _ => isFalse (by simp)
  | _ :: _, [] => isFalse (by simp)

def Node.decEq : (a b : Node) → Decidable (a = b)
  | ⟨k, c⟩, ⟨l, d⟩ =>
    match Command.decEq c d with
    | isTrue h => decidable_of_iff (k = l) (by simp [h])
    | isFalse h => isFalse (by simp [h])

end

instance : DecidableEq Command := Command.decEq
instance : DecidableEq Compound := Compound.decEq
instance : DecidableEq AndOrList := AndOrList.decEq
instance : DecidableEq Node := Node.decEq

deriving instance DecidableEq for Program

end ShellSyntax
