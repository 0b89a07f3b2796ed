import ShellSyntax.CharClass

/-!
# Tokens, errors and results

A token is a kind together with the span it was read from. Blank runs, words and quoted tokens
carry the text that was read, a quoted token without its quotes. The end of the text is a token
of its own. Every token has a source, the text that is written for it: operators have their signs,
blank runs and words their own text, quoted tokens their body between its quotes, and the end has
none. Rendering a list of tokens joins their sources.

Two things can be wrong with a text: an ampersand that is not doubled, reported at the position
which follows it, and a quote that is never closed, reported from the quote to the last character
of the text. So a result is a value or an error, or else there is none.
-/

namespace ShellSyntax

inductive Kind where
  | and
  | or
  | pipe
  | less
  | doubleLess
  | great
  | doubleGreat
  | leftParen
  | rightParen
  | space (text : Text)
  | word (text : Text)
  | quoted (quote : Quote) (body : Text)
  | eof
deriving DecidableEq

def Lead.doubled : Lead → Kind
  | .less => .doubleLess
  | .great => .doubleGreat
  | .amp => .and
  | .pipe => .or

def Lead.alone? : Lead → Option Kind
  | .less => some .less
  | .great => some .great
  | .pipe => some .pipe
  | .amp => none

def Kind.text? : Kind → Option Text
  | .space text | .word text | .quoted _ text => some text
  | _ => none

structure Token where
  kind : Kind
  span : Span
deriving DecidableEq

namespace Token

def text? (t : Token) : Option Text := t.kind.text?

def isEof (t : Token) : Bool :=
  match t.kind with
  | .eof => true
  | _ => false

def isSpace (t : Token) : Bool :=
  match t.kind with
  | .space _ => true
  | _ => false

end Token

def Kind.source : Kind → Text
  | .and => ['&', '&']
  | .or => ['|', '|']
  | .pipe => ['|']
  | .less => ['<']
  | .doubleLess => ['<', '<']
  | .great => ['>']
  | .doubleGreat => ['>', '>']
  | .leftParen => ['(']
  | .rightParen => [')']
  | .space text | .word text => text
  | .quoted quote body => quote.char :: body ++ [quote.char]
  | .eof => []

def Token.source (t : Token) : Text := t.kind.source

def render (tokens : List Token) : Text := tokens.flatMap Token.source

@[simp] theorem render_nil : render [] = [] := rfl

@[simp] theorem render_cons (t : Token) (ts : List Token) :
    render (t :: ts) = t.source ++ render ts := rfl

@[simp] theorem render_append (ts us : List Token) :
    render (ts ++ us) = render ts ++ render us :=
  List.flatMap_append

theorem Lead.source_doubled (l : Lead) : l.doubled.source = [l.char, l.char] := by
  cases l <;> rfl

theorem Lead.source_of_alone? {l : Lead} {k : Kind} (h : l.alone? = some k) :
    k.source = [l.char] := by
  cases l <;> simp [Lead.alone?] at h <;> subst h <;> rfl

inductive LexError where
  | unrecognized (position : Position)
  | unterminated (span : Span)
deriving DecidableEq

namespace LexError

def span : LexError → Span
  | .unrecognized p => .point p
  | .unterminated s => s

def line (e : LexError) : Nat := e.span.first.line

def summary : LexError → String
  | .unrecognized _ => "unrecognized token"
  | .unterminated _ => "unterminated quoted string"

def message (e : LexError) : String :=
  s!"{e.summary} at line {e.line}, column {e.span.first.column}"

end LexError

/-- A result is `stuck` where a lexer is to read on behind the end, or to stop in front of it. -/
inductive Result (α : Type) where
  | ok (value : α)
  | error (e : LexError)
  | stuck
deriving DecidableEq

namespace Result

variable {α β : Type}

def ofExcept : Except LexError α → Result α
  | .ok value => .ok value
  | .error e => .error e

def error? : Result α → Option LexError
  | .error e => some e
  | .ok _ | .stuck => none

def map (f : α → β) : Result α → Result β
  | .ok value => .ok (f value)
  | .error e => .error e
  | .stuck => .stuck

def andThen (f : α → Result β) : Result α → Result β
  | .ok value => f value
  | .error e => .error e
  | .stuck => .stuck

theorem ofExcept_map (f : α → β) (result : Except LexError α) :
    ofExcept (result.map f) = (ofExcept result).map f := by
  cases result <;> rfl

end Result

end ShellSyntax
