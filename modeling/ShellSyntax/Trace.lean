import ShellSyntax.Lexer

/-!
# Traces

Lexing a text leaves a trace: one event for each token, when it is emitted, and one event at the
end, which counts the tokens or tells the error. An event is written as a record of named fields
at a level of detail.

The quoted form of a text shows it on one line between double quotes. Quotes and backslashes are
preceded by a backslash, four control characters have a letter or digit of their own, and every
other control character is written by its number in hexadecimal.
-/

namespace ShellSyntax

namespace Quoted

def isControl (c : Char) : Bool :=
  c.toNat < 0x20 || (0x7f ≤ c.toNat && c.toNat < 0xa0)

def hex (c : Char) : Text := Nat.toDigits 16 c.toNat

def escape (c : Char) : Text :=
  match c with
  | '\x22' => ['\\', '\x22']
  | '\\' => ['\\', '\\']
  | '\t' => ['\\', 't']
  | '\r' => ['\\', 'r']
  | '\n' => ['\\', 'n']
  | '\x00' => ['\\', '0']
  | c => if isControl c then ['\\', 'u', '\x7b'] ++ hex c ++ ['\x7d'] else [c]

def encode (text : Text) : Text :=
  '\x22' :: text.flatMap escape ++ ['\x22']

end Quoted

inductive Event where
  | emitted (token : Token)
  | completed (count : Nat)
  | failed (error : LexError)
deriving DecidableEq

def Event.closing : Result (List Token) → List Event
  | .ok tokens => [.completed tokens.length]
  | .error e => [.failed e]
  | .stuck => []

def trace (text : Text) : List Event :=
  let (tokens, result) := lex text
  tokens.map .emitted ++ Event.closing result

/-- The name of a kind, followed by the text it carries in quoted form. -/
def Kind.label : Kind → Text
  | .and => "And".toList
  | .or => "Or".toList
  | .pipe => "Pipe".toList
  | .less => "Less".toList
  | .doubleLess => "DoubleLess".toList
  | .great => "Great".toList
  | .doubleGreat => "DoubleGreat".toList
  | .leftParen => "LParen".toList
  | .rightParen => "RParen".toList
  | .space text => "Space(".toList ++ Quoted.encode text ++ [')']
  | .word text => "Word(".toList ++ Quoted.encode text ++ [')']
  | .quoted .single body => "SingleQuoted(".toList ++ Quoted.encode body ++ [')']
  | .quoted .double body => "DoubleQuoted(".toList ++ Quoted.encode body ++ [')']
  | .eof => "Eof".toList

inductive Level where
  | trace
  | debug
deriving DecidableEq

inductive FieldValue where
  | number (value : Nat)
  | text (value : Text)
deriving DecidableEq

structure Record where
  level : Level
  target : String := "shell_tokenizer::lexer"
  fields : List (String × FieldValue)
deriving DecidableEq

def Event.record : Event → Record
  | .emitted t =>
    { level := .trace
      fields :=
        [("message", .text "emit token".toList),
         ("line", .number t.span.first.line),
         ("column", .number t.span.first.column),
         ("kind", .text t.kind.label)] }
  | .completed count =>
    { level := .debug
      fields := [("message", .text "tokenized input".toList), ("count", .number count)] }
  | .failed e =>
    { level := .debug
      fields := [("message", .text "tokenize failed".toList), ("error", .text e.message.toList)] }

end ShellSyntax
