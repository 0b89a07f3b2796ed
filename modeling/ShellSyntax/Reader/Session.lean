import ShellSyntax.Reader

/-!
# Reading sessions

A session holds several readers, numbered from zero. Each step acts on one of them, and copying a
reader adds the copy at the end. Readers share nothing, so a step on one of them leaves all
others where they are.

A reader of a text can be pictured as a cursor into the fixed list of its items: reading moves the
cursor forward, never past the end of the list, and the list itself never changes. A session is
then a list of such numbers.
-/

namespace ShellSyntax

inductive ReadAction where
  | next
  | nth (n : Nat)
  | take (n : Nat)
  | rest
  | count
  | last
  | copy
deriving DecidableEq

structure ReadStep where
  reader : Nat
  action : ReadAction
deriving DecidableEq

inductive ReadAnswer where
  | item (item? : Option Item)
  | items (items : List Item)
  | count (n : Nat)
  | reader (number : Nat)
deriving DecidableEq

abbrev Session := List Reader

namespace Session

def ofText (text : Text) : Session := [.ofText text]

/-- Takes one step. A step on a reader that does not exist is refused. -/
def step (session : Session) (s : ReadStep) : Option (ReadAnswer × Session) :=
  session[s.reader]?.map fun r =>
    match s.action with
    | .next => (.item r.next.1, session.set s.reader r.next.2)
    | .nth n => (.item (r.nth n).1, session.set s.reader (r.nth n).2)
    | .take n => (.items (r.take n).1, session.set s.reader (r.take n).2)
    | .rest => (.items r.items, session.set s.reader .exhausted)
    | .count => (.count r.items.length, session.set s.reader .exhausted)
    | .last => (.item r.items.getLast?, session.set s.reader .exhausted)
    | .copy => (.reader session.length, session ++ [r])

def run (session : Session) : List ReadStep → Option (List ReadAnswer)
  | [] => some []
  | s :: steps => do
    let (answer, later) ← session.step s
    let answers ← run later steps
    return answer :: answers

end Session

namespace Cursor

def step (items : List Item) (cursors : List Nat) (s : ReadStep) :
    Option (ReadAnswer × List Nat) :=
  cursors[s.reader]?.map fun c =>
    let move := fun target => cursors.set s.reader (min target items.length)
    match s.action with
    | .next => (.item items[c]?, move (c + 1))
    | .nth n => (.item items[c + n]?, move (c + n + 1))
    | .take n => (.items ((items.drop c).take n), move (c + n))
    | .rest => (.items (items.drop c), move items.length)
    | .count => (.count (items.length - c), move items.length)
    | .last => (.item (if c < items.length then items.getLast? else none), move items.length)
    | .copy => (.reader cursors.length, cursors ++ [c])

def run (items : List Item) (cursors : List Nat) : List ReadStep → Option (List ReadAnswer)
  | [] => some []
  | s :: steps => do
    let (answer, later) ← step items cursors s
    let answers ← run items later steps
    return answer :: answers

end Cursor

end ShellSyntax
