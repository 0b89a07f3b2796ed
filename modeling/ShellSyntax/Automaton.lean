import ShellSyntax.Reader
import ShellSyntax.Token

/-!
# The automaton

The automaton reads items one after the other and never looks ahead. Its state holds what it has
read of a token that may still grow. An item that cannot belong to the pending token closes it
and is then read again as if it stood between two tokens, so one item can emit two tokens. The
item of the end is the last one that may be read.

Between two items an automaton may hold the beginning of a token. Its pending text is what it has
read of that token, and its pending span runs from the first to the last character of it. A pending
sign may still be doubled; of any other pending text it is known what kind of token it begins.
-/

namespace ShellSyntax

/-- Pending texts are held latest character first, with the span read so far. -/
inductive State where
  | between
  | lead (lead : Lead) (start : Position)
  | space (span : Span) (read : Text)
  | word (span : Span) (read : Text)
  | quoted (quote : Quote) (span : Span) (read : Text)
  | finished
deriving DecidableEq

structure Move where
  emitted : List Token
  state : State
deriving DecidableEq

def Move.after (t : Token) (m : Move) : Move := ⟨t :: m.emitted, m.state⟩

namespace State

def enter (item : Item) : Move :=
  let here := Span.point item.position
  match item.char? with
  | none => ⟨[⟨.eof, here⟩], .finished⟩
  | some c =>
    match CharClass.of c with
    | .lead l => ⟨[], .lead l item.position⟩
    | .leftParen => ⟨[⟨.leftParen, here⟩], .between⟩
    | .rightParen => ⟨[⟨.rightParen, here⟩], .between⟩
    | .quote q => ⟨[], .quoted q here []⟩
    | .blank => ⟨[], .space here [c]⟩
    | .plain => ⟨[], .word here [c]⟩

def stepLead (l : Lead) (start : Position) (item : Item) : Result Move :=
  if item.char? = some l.char then
    .ok ⟨[⟨l.doubled, ⟨start, item.position⟩⟩], .between⟩
  else
    match l.alone? with
    | some kind => .ok ((enter item).after ⟨kind, .point start⟩)
    | none => .error (.unrecognized item.position)

def stepSpace (span : Span) (read : Text) (item : Item) : Move :=
  match item.char?.filter isBlank with
  | some c => ⟨[], .space ⟨span.first, item.position⟩ (c :: read)⟩
  | none => (enter item).after ⟨.space read.reverse, span⟩

def stepWord (span : Span) (read : Text) (item : Item) : Move :=
  match item.char?.filter (!isDelimiter ·) with
  | some c => ⟨[], .word ⟨span.first, item.position⟩ (c :: read)⟩
  | none => (enter item).after ⟨.word read.reverse, span⟩

def stepQuoted (q : Quote) (span : Span) (read : Text) (item : Item) : Result Move :=
  let reached : Span := ⟨span.first, item.position⟩
  match item.char? with
  | none => .error (.unterminated span)
  | some c =>
    if c = q.char then .ok ⟨[⟨.quoted q read.reverse, reached⟩], .between⟩
    else .ok ⟨[], .quoted q reached (c :: read)⟩

/-- Reads one item. Nothing is to follow the end of a text. -/
def step : State → Item → Result Move
  | .between, item => .ok (enter item)
  | .lead l start, item => stepLead l start item
  | .space span read, item => .ok (stepSpace span read item)
  | .word span read, item => .ok (stepWord span read item)
  | .quoted q span read, item => stepQuoted q span read item
  | .finished, _ => .stuck

def pending : State → Text
  | .between | .finished => []
  | .lead l _ => [l.char]
  | .space _ read | .word _ read => read.reverse
  | .quoted q _ read => q.char :: read.reverse

def pendingSpan? : State → Option Span
  | .between | .finished => none
  | .lead _ start => some (.point start)
  | .space span _ | .word span _ | .quoted _ span _ => some span

def pendingKind? : State → Option Kind
  | .between | .lead _ _ | .finished => none
  | .space _ read => some (.space read.reverse)
  | .word _ read => some (.word read.reverse)
  | .quoted q _ read => some (.quoted q read.reverse)

end State

end ShellSyntax
