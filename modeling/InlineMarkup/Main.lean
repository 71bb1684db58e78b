import InlineMarkup.Command.Usage
/-!
# Main — the command line program

Reads from disk what a run looks at, runs it as a function on a store, and writes back what changed.
-/
namespace InlineMarkup

/-- A location as a path from the top. -/
def diskPath (l : Location) : String := String.ofList (l.flatMap fun n => '/' :: n)

/-- What is on disk at a location, with the names below it if it is a directory. -/
def observe (l : Location) : IO (Option (Entry × List Text)) := do
  try
    let path ← IO.FS.realPath (if l.isEmpty then "/" else diskPath l)
    if ← path.isDir then
      return some (.directory, (← path.readDir).toList.map fun d => d.fileName.toList)
    let bytes ← IO.FS.readBinFile path
    match String.fromUTF8? bytes with
    | some t => return some (.file (.text t.toList), [])
    | none => return some (.file (.binary bytes.toList), [])
  catch _ => return none

/-- Takes up what is on the way that a path leads, as far as it goes. -/
def observePath (s : Store) (start : Location) (pieces : List Text) : IO Store := do
  let mut s := s
  let mut l := start
  for piece in pieces do
    match s.step l piece with
    | .error _ => return s
    | .ok next =>
      if (s.lookup next).isNone then
        match ← observe next with
        | some (e, _) => s := s.add next e
        | none => return s
      l := next
  return s

/-- Takes up everything below a location. -/
def observeBelow (s : Store) (l : Location) : IO Store := do
  let mut s := s
  let mut waiting := [l]
  while true do
    match waiting with
    | [] => break
    | l :: rest =>
      waiting := rest
      match ← observe l with
      | some (e, names) =>
        s := s.add l e
        waiting := names.map (fun n => l ++ [n]) ++ waiting
      | none => pure ()
  return s

/-- The part of the disk that a run looks at. -/
def observeFor (i : Command.Invocation) : IO Store := do
  let here := (Text.pieces '/' (← IO.currentDir).toString.toList).filter (· != [])
  let mut s : Store ← observePath { workingDirectory := here } [] here
  for (p, below) in i.paths do
    s ← observePath s (if p.head? = some '/' then [] else here) (Text.pieces '/' p)
    if below then
      if let .ok l := s.locate p then s ← observeBelow s l
  return s

/-- Runs a command line that was understood. -/
def runInvocation (i : Command.Invocation) : IO UInt32 := do
  let styled := Command.wantsStyles (← IO.getEnv "TERM") (← IO.getEnv "NO_COLOR")
  let before ← observeFor i
  let outcome := Command.run styled before i
  for (l, t) in outcome.changes before do
    IO.FS.writeFile (diskPath l) (String.ofList t)
  for n in outcome.notices do
    IO.eprintln n.text
  IO.print (String.ofList outcome.output)
  return outcome.exitCode.toUInt32

/-- Runs a command line. -/
def runWords (words : List String) : IO UInt32 := do
  match Command.Invocation.ofWords (words.map String.toList) with
  | .ok i => runInvocation i
  | .error r =>
    if r.exitCode = 0 then IO.println r.message else IO.eprintln r.message
    return r.exitCode.toUInt32

end InlineMarkup

def main (words : List String) : IO UInt32 := InlineMarkup.runWords words
