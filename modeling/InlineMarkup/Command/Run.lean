import InlineMarkup.Batch
import InlineMarkup.Command.Arguments
import InlineMarkup.Cst.View
import InlineMarkup.LineDiff
/-!
# Command.Run — what a command does to files and prints

A run turns a store into another one, with a text for standard output, lines of reports, and an exit code.
-/
namespace InlineMarkup.Command

/-- A line of the reports of a run. -/
inductive Notice where
  /-- A file of a batch failed. -/
  | failed (f : Failure)
  /-- A failure in full. -/
  | report (d : Diagnostic)
  /-- The run was aborted, since this is no extension of a file name. -/
  | aborted (extension : Text)
  deriving DecidableEq, Repr

/-- What a notice says in short. -/
def Notice.display : Notice → String
  | .failed f => f.display
  | .report d => d.code
  | .aborted e => "extension cannot contain path separators: " ++ String.ofList (Text.quoted e)

/-- What a run leaves behind. -/
structure Outcome where
  files : Store
  output : Text := []
  notices : List Notice := []
  exitCode : Nat := 0
  deriving Repr

/-- Colours of the terminal. -/
inductive Colour where
  | red
  | green
  deriving DecidableEq, Repr

namespace Colour

/-- A control sequence of the terminal. -/
def control (code : String) : Text := '\x1b' :: '[' :: code.toList ++ ['m']

/-- Takes back every style. -/
def reset : Text := control "0"

def code : Colour → Text
  | .red => control "31"
  | .green => control "32"

/-- Begins a style, if styles are wanted. -/
def start (styled : Bool) (colour : Option Colour) (bold : Bool) : Text :=
  if styled then reset ++ (if bold then control "1" else []) ++ colour.elim [] code else []

/-- Ends a style, if styles are wanted. -/
def stop (styled : Bool) : Text := if styled then reset else []

end Colour

/-- The line for a file that was lowered. -/
def translatedLine (t : Translated) : Text :=
  (if t.written then "wrote " else "checked ").toList ++ t.output ++ ['\n']

/-- The last line on a batch. -/
def summaryLine (mode : Mode) (r : Report) : Text :=
  (toString r.translated.length).toList ++
    (match mode with
      | .write => " translated, "
      | .check => " checked, ").toList ++
    (toString r.failures.length).toList ++ " failed\n".toList

/-- What is printed on a batch. -/
def reportText (styled : Bool) (mode : Mode) (r : Report) : Text :=
  r.translated.flatMap translatedLine ++
    Colour.start styled (some (if r.isSuccess then .green else .red)) true ++ summaryLine mode r ++
    Colour.stop styled

/-- The mark and the colour of a line of a comparison. -/
def changeMark : LineDiff.Change → Char × Option Colour
  | .same => (' ', none)
  | .removed => ('-', some .red)
  | .added => ('+', some .green)

/-- A line of a comparison. -/
def changeLine (styled : Bool) (c : LineDiff.Change) (line : Text) : Text :=
  Colour.start styled (changeMark c).2 false ++ (changeMark c).1 :: line ++ ['\n']

/-- What is printed on two texts that are compared. -/
def diffText (styled : Bool) (before after : Text) : Text :=
  ((LineDiff.diff? before after).getD []).flatMap (fun b => (Text.lines b.2).flatMap (changeLine styled b.1)) ++
    Colour.stop styled

/-- The exit code of a run that was aborted. -/
def abortedCode : Nat := 101

/-- Lowers the files below a root. -/
def build (styled : Bool) (s : Store) (named : Option Path) (root : Path) (mode : Mode) :
    Except Diagnostic Outcome := do
  let settings ← Settings.resolve s named root
  match Batch.run settings mode s root with
  | (s', none) => pure { files := s', notices := [.aborted settings.outputExtension], exitCode := abortedCode }
  | (s', some report) =>
    let report ← report
    pure
      { files := s'
        output := reportText styled mode report
        notices := report.failures.flatMap fun f => [.failed f, .report f.error]
        exitCode := if report.isSuccess then 0 else 1 }

/-- The document in a file. -/
def readDocument (s : Store) (p : Path) : Except Diagnostic Document :=
  match s.readText p with
  | .ok t => .ok ⟨String.ofList p, t⟩
  | .error f => .error (f.report p)

/-- Lowers one file and prints it, or what it changes. -/
def translate (styled : Bool) (s : Store) (named : Option Path) (file : Path) (diff : Bool) :
    Except Diagnostic Outcome := do
  let settings ← Settings.resolve s named ['.']
  let doc ← readDocument s file
  let lowered ← (doc.translate settings).result
  pure { files := s, output := if diff then diffText styled doc.text lowered else lowered }

/-- Prints the tree of a file. -/
def showTree (s : Store) (file : Path) (json : Bool) : Except Diagnostic Outcome := do
  let doc ← readDocument s file
  let tree ← doc.parse
  pure { files := s, output := if json then tree.json ++ ['\n'] else tree.dump }

/-- What an action does, if nothing stops it. -/
def perform (styled : Bool) (s : Store) (i : Invocation) : Except Diagnostic Outcome :=
  match i.action with
  | .build root check => build styled s i.settings root (if check then .check else .write)
  | .translate file diff => translate styled s i.settings file diff
  | .showTree file json => showTree s file json

/-- Runs a command line that was understood.  A failure is reported, and changes no file. -/
def run (styled : Bool) (s : Store) (i : Invocation) : Outcome :=
  match perform styled s i with
  | .ok outcome => outcome
  | .error d => { files := s, notices := [.report d], exitCode := 1 }

end InlineMarkup.Command
