import InlineMarkup.Command.Run
/-!
# Command.Usage — what a user is told

The help, the words for a command line that is not run, the full form of a notice, and when the terminal gets styles.
-/
namespace InlineMarkup.Command

def version : String := "mbx 0.1.0"

def usage : String :=
  "Translate MoonBit sources with inline markup into plain MoonBit.\n\n" ++
  "Usage: mbx [OPTIONS] <COMMAND>\n\n" ++
  "Commands:\n" ++
  "  build [ROOT] [--check]    Translate every source file under a directory (src)\n" ++
  "  translate <FILE> [--diff] Translate one file and print the result\n" ++
  "  cst <FILE> [--json]       Show the concrete syntax tree of a file\n" ++
  "  help                      Print this message\n\n" ++
  "Options:\n" ++
  "      --config <CONFIG>     Configuration file (mbx.yaml in the source root, if any)\n" ++
  "  -v, --verbose             Log more\n" ++
  "  -h, --help                Print help\n" ++
  "  -V, --version             Print version"

namespace Rejection

def message : Rejection → String
  | .helpWanted | .nothingGiven => usage
  | .versionWanted => version
  | .commandMissing => "error: a command is required"
  | .commandUnknown => "error: unrecognized command"
  | .argumentUnknown => "error: unexpected argument"
  | .argumentMissing => "error: a required argument was not provided"
  | .argumentRepeated => "error: an argument cannot be used more than once"
  | .valueBad => "error: a value is required"
  | .valueUnwanted => "error: unexpected value"

end Rejection

/-- A notice in full. -/
def Notice.text : Notice → String
  | .failed f => f.display
  | .report d => d.code ++ "\n  " ++ d.display ++ d.help.elim "" ("\n  help: " ++ ·)
  | .aborted e => (Notice.aborted e).display

/-- Styles are wanted on a terminal that has some, unless they are turned off. -/
def wantsStyles (terminal noColour : Option String) : Bool :=
  noColour.isNone && terminal.isSome && terminal != some "dumb"

/-- The paths that a run looks at, each with whether it looks at everything below. -/
def Invocation.paths (i : Invocation) : List (Path × Bool) :=
  (i.settings.toList.map fun p => (p, false)) ++
    match i.action with
    | .build root _ => [(root, true), (Path.join root Settings.fileName, false)]
    | .translate file _ => [(file, false), (Path.join ['.'] Settings.fileName, false)]
    | .showTree file _ => [(file, false)]

/-- The files that were changed, with what they hold now. -/
def Outcome.changes (o : Outcome) (before : Store) : List (Location × Text) :=
  o.files.entries.filterMap fun (l, e) =>
    match e with
    | .file (.text t) => if before.lookup l = some e then none else some (l, t)
    | _ => none

end InlineMarkup.Command
