import InlineMarkup.Text.Basic
/-!
# Yaml.Event — YAML as a row of events

A YAML stream is read into events with marks.  A stream with a fault in it still has the events before the fault.
-/
namespace InlineMarkup.Yaml

/-- A place in a stream: the byte offset, and line and column counted from zero. -/
structure Mark where
  offset : Nat := 0
  line : Nat := 0
  column : Nat := 0
  deriving DecidableEq, Repr

namespace Mark

/-- The beginning of the first line, which is not worth mentioning. -/
def isStart (m : Mark) : Bool := m.line == 0 && m.column == 0

/-- Line and column as they are printed. -/
def display (m : Mark) : String := "line " ++ toString (m.line + 1) ++ " column " ++ toString (m.column + 1)

/-- Past a character on the same line. -/
def char (m : Mark) (c : Char) : Mark := ⟨m.offset + c.utf8Size, m.line, m.column + 1⟩

/-- Past a line end of so many bytes. -/
def newline (m : Mark) (bytes : Nat) : Mark := ⟨m.offset + bytes, m.line + 1, 0⟩

/-- The end of a stream, which counts as the beginning of a line. -/
def streamEnd (m : Mark) : Mark := if m.column = 0 then m else ⟨m.offset, m.line + 1, 0⟩

end Mark

/-- A part of a document.  A scalar is plain or in quotes. -/
inductive Event where
  | scalar (value : Text) (plain : Bool)
  | listStart
  | listEnd
  | mapStart
  | mapEnd
  deriving DecidableEq, Repr

/-- Why a stream is no YAML: the problem and its place, and what was being read from which place on. -/
structure Fault where
  problem : String
  mark : Mark
  context : Option (String × Mark) := none
  deriving DecidableEq, Repr

/-- The fault in words; a place is left out when it is the start of the stream, and the context's also when it is the
place of the problem. -/
def Fault.message (f : Fault) : String :=
  f.problem ++ (if f.mark.isStart then "" else " at " ++ f.mark.display) ++
    match f.context with
    | none => ""
    | some (words, m) =>
      ", " ++ words ++
        if m.isStart || (m.line == f.mark.line && m.column == f.mark.column) then "" else " at " ++ m.display

/-- The first document of a stream: its events, the fault that ended it, and whether more follows. -/
structure Stream where
  events : List (Event × Mark)
  fault : Option Fault := none
  more : Bool := false
  deriving Repr

end InlineMarkup.Yaml
