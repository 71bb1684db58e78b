import InlineMarkup.Text.Basic
/-!
# Text.Position — spans, lines and columns

A span is a pair of byte offsets.  A position is a line and a column, both counted from one, the column in characters.
There are two ways to a position: from the text before it (`Position.ofBefore`, where only a line feed ends a line) and
by walking over that text (`Position.walk`, where a carriage return with a line feed counts as one line end).
-/
namespace InlineMarkup

/-- A range of bytes of a text. -/
structure Span where
  start : Nat
  stop : Nat
  deriving DecidableEq, Repr

namespace Span

/-- How many bytes a span has; none when it ends before it starts. -/
def length (s : Span) : Nat := s.stop - s.start

def isEmpty (s : Span) : Bool := s.stop ≤ s.start

/-- The text of a span; empty when the span is no range of the text. -/
def text (s : Span) (t : Text) : Text := (Text.slice? t s.start s.stop).getD []

/-- The span as it is written in a log. -/
def display (s : Span) : String :=
  "Span \x7b start: " ++ toString s.start ++ ", end: " ++ toString s.stop ++ " \x7d"

end Span

/-- A line and a column, counted from one. -/
structure Position where
  line : Nat
  column : Nat
  deriving DecidableEq, Repr

namespace Position

/-- The position right after a text. -/
def ofBefore (t : Text) : Position := ⟨t.count '\n' + 1, (Text.lastLine t).length + 1⟩

/-- The position of a byte offset: an offset inside a character, or past the end, counts as the last place before it
where a character starts or the text ends. -/
def ofOffset (t : Text) (offset : Nat) : Position := ofBefore (Text.upTo t offset)

/-- The position reached from `p` over a text. -/
def walk : Text → Position → Position
  | '\r' :: '\n' :: cs, p => walk cs ⟨p.line + 1, 1⟩
  | '\n' :: cs, p => walk cs ⟨p.line + 1, 1⟩
  | _ :: cs, p => walk cs ⟨p.line, p.column + 1⟩
  | [], p => p

/-- Line and column with a colon between them. -/
def display (p : Position) : String := toString p.line ++ ":" ++ toString p.column

end Position
end InlineMarkup
