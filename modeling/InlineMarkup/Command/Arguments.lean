import InlineMarkup.Files.Path
/-!
# Command.Arguments — the command line

A line has options, one command, and what the command takes.  A value is looked at only when it is settled: when the next
option or operand is taken, or when its level of the line ends.  The line's own level ends after that of its command.
-/
namespace InlineMarkup.Command

/-- What to do. -/
inductive Action where
  | build (root : Path) (check : Bool)
  | translate (file : Path) (diff : Bool)
  | showTree (file : Path) (json : Bool)
  deriving DecidableEq, Repr

/-- A command line that was understood. -/
structure Invocation where
  action : Action
  settings : Option Path := none
  verbosity : Nat := 0
  deriving DecidableEq, Repr

/-- Why a command line is not run. -/
inductive Rejection where
  | helpWanted
  | versionWanted
  | nothingGiven
  | commandMissing
  | commandUnknown
  | argumentUnknown
  | argumentMissing
  | argumentRepeated
  | valueBad
  | valueUnwanted
  deriving DecidableEq, Repr

/-- What was asked for is no failure. -/
def Rejection.exitCode : Rejection → Nat
  | .helpWanted | .versionWanted => 0
  | _ => 2

/-- The names of the commands. -/
inductive Name where
  | build
  | translate
  | cst
  deriving DecidableEq, Repr

namespace Name

def all : List Name := [.build, .translate, .cst]

def word : Name → Text
  | .build => "build".toList
  | .translate => "translate".toList
  | .cst => "cst".toList

/-- The flag that a command takes. -/
def flag : Name → Text
  | .build => "check".toList
  | .translate => "diff".toList
  | .cst => "json".toList

def ofWord? (w : Text) : Option Name := all.find? (·.word == w)

end Name

/-- The word that asks for help on commands. -/
def helpWord : Text := "help".toList

/-- How a word of the line looks. -/
inductive Word where
  | escape
  | long (name : Text) (value : Option Text)
  | short (letters : Text)
  | plain
  deriving DecidableEq, Repr

/-- Two dashes begin a long option, which may have its value behind an equals sign; one dash begins letters. -/
def Word.ofText : Text → Word
  | ['-', '-'] => .escape
  | '-' :: '-' :: r =>
    match r.dropWhile (· != '=') with
    | [] => .long r none
    | _ :: value => .long (r.takeWhile (· != '=')) (some value)
  | ['-'] => .plain
  | '-' :: r => .short r
  | _ => .plain

/-- An option. -/
inductive Switch where
  | settings
  | verbose
  | help
  | version
  | flag
  deriving DecidableEq, Repr

/-- A level of the line: its own, or that of a command. -/
inductive Level where
  | line
  | command (n : Name)
  deriving DecidableEq, Repr

namespace Level

/-- The option of a long name. -/
def long? (l : Level) (name : Text) : Option Switch :=
  if name = "config".toList then some .settings
  else if name = "verbose".toList then some .verbose
  else if name = "help".toList then some .help
  else match l with
    | .line => if name = "version".toList then some .version else none
    | .command n => if name = n.flag then some .flag else none

/-- The option of a letter. -/
def short? (l : Level) (c : Char) : Option Switch :=
  if c = 'v' then some .verbose
  else if c = 'h' then some .help
  else if c = 'V' && l = .line then some .version
  else none

end Level

/-- What was taken and is still to be looked at. -/
inductive Pending where
  | nothing
  | settings (value : Option Text)
  | operand (value : Text)
  deriving DecidableEq, Repr

/-- What a level has so far. -/
structure Taken where
  settings : Option Path := none
  verbosity : Nat := 0
  flag : Bool := false
  operand : Option Path := none
  pending : Pending := .nothing
  /-- Only operands follow. -/
  escaped : Bool := false
  deriving DecidableEq, Repr

namespace Taken

/-- Something was given at this level. -/
def isGiven (t : Taken) : Bool := t.settings.isSome || 0 < t.verbosity || t.flag || t.operand.isSome

/-- Takes the path of a settings file, once. -/
def setSettings (t : Taken) (value : Text) : Except Rejection Taken :=
  if t.settings.isSome then .error .argumentRepeated
  else if value.isEmpty then .error .valueBad
  else .ok { t with settings := some value }

/-- Looks at what is pending. -/
def settle (t : Taken) : Except Rejection Taken :=
  let rest := { t with pending := .nothing }
  match t.pending with
  | .nothing => .ok t
  | .settings none => .error .valueBad
  | .settings (some value) => rest.setSettings value
  | .operand value => if value.isEmpty then .error .valueBad else .ok { rest with operand := some value }

/-- The largest verbosity that is counted. -/
def mostVerbose : Nat := 255

/-- Takes an option; only the path of settings has a value. -/
def switch (t : Taken) (value : Option Text) : Switch → Except Rejection Taken
  | .settings => do
    let t ← t.settle
    match value with
    | some v => t.setSettings v
    | none => pure { t with pending := .settings none }
  | s =>
    match value with
    | some _ => .error .valueUnwanted
    | none => do
      let t ← t.settle
      match s with
      | .help => .error .helpWanted
      | .version => .error .versionWanted
      | .flag => if t.flag then .error .argumentRepeated else pure { t with flag := true }
      | _ => pure { t with verbosity := min (t.verbosity + 1) mostVerbose }

/-- Takes letters of options. -/
def switches (l : Level) : Taken → Text → Except Rejection Taken
  | t, [] => .ok t
  | t, c :: r =>
    match l.short? c with
    | none => .error .argumentUnknown
    | some s => (t.switch none s).bind fun t => switches l t r

/-- Takes a word that is an option, or the escape, or the value of the option before it; gives nothing for another. -/
def option? (l : Level) (t : Taken) (word : Text) : Option (Except Rejection Taken) :=
  if t.escaped then none
  else match Word.ofText word with
    | .escape => some (.ok { t with escaped := true })
    | .long name value => some (match l.long? name with
      | none => .error .argumentUnknown
      | some s => t.switch value s)
    | .short letters => some (t.switches l letters)
    | .plain =>
      match t.pending with
      | .settings none => some (.ok { t with pending := .settings (some word) })
      | _ => none

/-- There is an operand already, whatever it turns out to be. -/
def hasOperand (t : Taken) : Bool :=
  match t.pending with
  | .operand _ => true
  | _ => t.operand.isSome

/-- Takes the words of a command. -/
def ofCommand (n : Name) : Taken → List Text → Except Rejection Taken
  | t, [] => t.settle
  | t, w :: ws =>
    match t.option? (.command n) w with
    | some r => r.bind fun t => ofCommand n t ws
    | none =>
      if t.hasOperand then .error .argumentUnknown
      else t.settle.bind fun t => ofCommand n { t with pending := .operand w } ws

/-- What the help command is asked: about one command at most. -/
def helpOn : List Text → Rejection
  | [] => .helpWanted
  | [w] => if (Name.ofWord? w).isSome || w = helpWord then .helpWanted else .commandUnknown
  | _ => .commandUnknown

/-- Takes the words of the line up to its command, and gives the words after it. -/
def ofLine : Taken → List Text → Except Rejection (Taken × Option (Name × List Text))
  | t, [] => .ok (t, none)
  | t, w :: ws =>
    match t.option? .line w with
    | some r => r.bind fun t => ofLine t ws
    | none =>
      match Name.ofWord? w with
      | some n => if t.escaped then .error .argumentUnknown else .ok (t, some (n, ws))
      | none =>
        if w = helpWord then .error (if t.escaped then .argumentUnknown else helpOn ws)
        else .error .commandUnknown

/-- What a command is to do with what it was given. -/
def action (t : Taken) : Name → Except Rejection Action
  | .build => .ok (.build (t.operand.getD "src".toList) t.flag)
  | .translate => (t.operand.map fun f => Action.translate f t.flag).elim (.error .argumentMissing) .ok
  | .cst => (t.operand.map fun f => Action.showTree f t.flag).elim (.error .argumentMissing) .ok

end Taken

/-- Reads a command line.  What a command is given itself wins over what stands before it. -/
def Invocation.ofWords (words : List Text) : Except Rejection Invocation := do
  let (outer, command?) ← Taken.ofLine {} words
  match command? with
  | none =>
    let outer ← outer.settle
    .error (if outer.isGiven then .commandMissing else .nothingGiven)
  | some (name, rest) =>
    let inner ← Taken.ofCommand name {} rest
    let action ← inner.action name
    let outer ← outer.settle
    pure
      { action
        settings := inner.settings <|> outer.settings
        verbosity := if inner.verbosity = 0 then outer.verbosity else inner.verbosity }

end InlineMarkup.Command
