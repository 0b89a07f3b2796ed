import ShellSyntax.Automaton

/-!
# Tokenizing

A lexer is an automaton with the tokens it has emitted. It is fed the items of a text in order
until one of them is in error, and after the last one it has to be finished. A text without error
ends in the token of its end; of a text in error no tokens are returned, but the lexer still holds
those emitted before.
-/

namespace ShellSyntax

structure Lexer where
  emitted : Array Token
  state : State
deriving DecidableEq

namespace Lexer

def fresh : Lexer := ⟨#[], .between⟩

def accept (lexer : Lexer) (move : Move) : Lexer :=
  ⟨lexer.emitted ++ move.emitted, move.state⟩

def abandon (lexer : Lexer) : Lexer := ⟨lexer.emitted, .between⟩

/-- Takes the state out for a step and puts the next one back, if there is one. -/
def feed (lexer : Lexer) (item : Item) : Lexer × Result Unit :=
  match lexer.state.step item with
  | .ok move => (lexer.accept move, .ok ())
  | .error e => (lexer.abandon, .error e)
  | .stuck => (lexer.abandon, .stuck)

def run (lexer : Lexer) : List Item → Lexer × Result Unit
  | [] => (lexer, .ok ())
  | item :: items =>
    match lexer.feed item with
    | (later, .ok ()) => later.run items
    | stopped => stopped

def finish (lexer : Lexer) : Result (List Token) :=
  match lexer.state with
  | .finished => .ok lexer.emitted.toList
  | _ => .stuck

@[simp] theorem run_nil (lexer : Lexer) : lexer.run [] = (lexer, .ok ()) := rfl

variable {lexer : Lexer} {item : Item}

theorem run_of_step {move : Move} (taken : lexer.state.step item = .ok move) (items : List Item) :
    lexer.run (item :: items) = (lexer.accept move).run items := by
  simp only [run, feed, taken]

theorem run_of_error {e : LexError} (taken : lexer.state.step item = .error e)
    (items : List Item) : lexer.run (item :: items) = (lexer.abandon, .error e) := by
  simp only [run, feed, taken]

theorem run_of_stuck (taken : lexer.state.step item = .stuck) (items : List Item) :
    lexer.run (item :: items) = (lexer.abandon, .stuck) := by
  simp only [run, feed, taken]

end Lexer

/-- The tokens that are emitted for a text, and what is returned in the end. -/
def lex (text : Text) : List Token × Result (List Token) :=
  let (lexer, fed) := Lexer.fresh.run (itemsOf text)
  (lexer.emitted.toList, fed.andThen fun _ => lexer.finish)

def tokenize (text : Text) : Result (List Token) := (lex text).2

end ShellSyntax
