import InlineMarkup.Files.Store
import InlineMarkup.Lowering.Translate
import InlineMarkup.Settings.Read
/-!
# Batch — all source files below a root

Each file is lowered by itself and written beside its source.  A file that fails is reported and does not stop the
others.  A file that can be lowered but has no output path, because the extension of outputs has a slash in it, aborts the
whole run: there is no report then.
-/
namespace InlineMarkup

/-- Whether a batch writes what it lowers. -/
inductive Mode where
  | write
  | check
  deriving DecidableEq, Repr

/-- A file that was lowered. -/
structure Translated where
  input : Path
  output : Path
  written : Bool
  deriving DecidableEq, Repr

/-- A file that failed. -/
structure Failure where
  path : Path
  error : Diagnostic
  deriving DecidableEq, Repr

/-- What a batch did, in the order of discovery. -/
structure Report where
  translated : List Translated := []
  failures : List Failure := []
  deriving DecidableEq, Repr

namespace Report

def isSuccess (r : Report) : Bool := r.failures.isEmpty

def total (r : Report) : Nat := r.translated.length + r.failures.length

end Report

namespace Failure

/-- The failure on one line. -/
def display (f : Failure) : String := f.error.displayFor (String.ofList f.path)

end Failure

namespace Batch

/-- The lowered form of a file. -/
def lower (settings : Settings) (s : Store) (p : Path) : Except Diagnostic Text := do
  let t ← (s.readText p).mapError (·.report p)
  ((⟨String.ofList p, t⟩ : Document).translate settings).result

/-- The lowered form of a file and where it goes.  There is nothing if it can go nowhere: then the run is aborted. -/
def prepare (settings : Settings) (s : Store) (p : Path) : Option (Except Diagnostic (Path × Text)) :=
  match lower settings s p with
  | .error d => some (.error d)
  | .ok written => (settings.outputPath? p).map fun output => .ok (output, written)

/-- Lowers one file, and writes it unless this is only a check.  Nothing comes of it if the run is aborted. -/
def translateFile (settings : Settings) (mode : Mode) (s : Store) (p : Path) :
    Store × Option (Except Diagnostic Translated) :=
  match prepare settings s p with
  | none => (s, none)
  | some (.error d) => (s, some (.error d))
  | some (.ok (output, t)) =>
    match mode with
    | .check => (s, some (.ok ⟨p, output, false⟩))
    | .write =>
      match s.writeText output t with
      | .ok s' => (s', some (.ok ⟨p, output, true⟩))
      | .error f => (s, some (.error (f.report output)))

/-- Lowers files one after another, up to one that aborts the run. -/
def translateAll (settings : Settings) (mode : Mode) :
    Store → List Path → Store × Option (List (Path × Except Diagnostic Translated))
  | s, [] => (s, some [])
  | s, p :: ps =>
    match translateFile settings mode s p with
    | (s₁, none) => (s₁, none)
    | (s₁, some r) =>
      let rs := translateAll settings mode s₁ ps
      (rs.1, rs.2.map ((p, r) :: ·))

/-- The report on the outcomes of files. -/
def collect (outcomes : List (Path × Except Diagnostic Translated)) : Report where
  translated := outcomes.filterMap fun (_, r) => r.toOption
  failures := outcomes.filterMap fun (p, r) =>
    match r with
    | .error d => some ⟨p, d⟩
    | .ok _ => none

/-- Lowers every source file below a root.  Only a root that cannot be walked is an error.  A run that is aborted returns
nothing. -/
def run (settings : Settings) (mode : Mode) (s : Store) (root : Path) : Store × Option (Except Diagnostic Report) :=
  match s.discover root settings.inputExtension with
  | .error f => (s, some (.error (f.report root)))
  | .ok ps =>
    let r := translateAll settings mode s ps
    (r.1, r.2.map fun outcomes => .ok (collect outcomes))

end Batch
end InlineMarkup
