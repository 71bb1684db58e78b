import InlineMarkup.Files.Store
import InlineMarkup.Settings
import InlineMarkup.Yaml.Look
import InlineMarkup.Yaml.Parse
/-!
# Settings.Read — settings from YAML

Fields are read in the order in which they stand, and the first thing that is wrong is reported, a fault of the stream
itself only when it is reached.  A file that is named wins; otherwise a file in the root directory, if it is there;
otherwise the defaults.
-/
namespace InlineMarkup.Settings

open Yaml (Mark)

/-- Why a text gives no settings. -/
inductive ReadFault where
  /-- At a field something else was expected than what is there. -/
  | invalidType (path : List String) (found expected : String) (mark : Mark)
  /-- A name that is no field. -/
  | unknownField (path : List String) (name : Text) (fields : List String) (mark : Mark)
  /-- A field that was given before. -/
  | duplicateField (path : List String) (name : String) (mark : Mark)
  /-- The text is no YAML. -/
  | malformed (fault : Yaml.Fault)
  /-- The text ends too early. -/
  | endOfText
  /-- More than one document. -/
  | severalDocuments
  deriving DecidableEq, Repr

namespace ReadFault

/-- The words for a fault at a path and a mark. -/
def located (path : List String) (words : String) (mark : Mark) : String :=
  (if path.isEmpty then "" else ".".intercalate path ++ ": ") ++ words ++
    if mark.isStart then "" else " at " ++ mark.display

def message : ReadFault → String
  | .invalidType path found expected mark =>
    located path ("invalid type: " ++ found ++ ", expected " ++ expected) mark
  | .unknownField path name fields mark =>
    located path ("unknown field `" ++ String.ofList name ++ "`, expected one of " ++
      ", ".intercalate (fields.map fun f => "`" ++ f ++ "`")) mark
  | .duplicateField path name mark => located path ("duplicate field `" ++ name ++ "`") mark
  | .malformed f => f.message
  | .endOfText => "EOF while parsing a value"
  | .severalDocuments => "deserializing from YAML containing more than one document is not supported"

/-- The byte offset of a fault; a fault of the whole text is at its start. -/
def offset : ReadFault → Nat
  | .invalidType _ _ _ m | .unknownField _ _ _ m | .duplicateField _ _ m => m.offset
  | .malformed f => f.mark.offset
  | .endOfText | .severalDocuments => 0

end ReadFault

/-- The events that are still to be read, and the fault that ended the stream. -/
structure Source where
  events : List (Yaml.Event × Mark)
  fault : Option Yaml.Fault

/-- A reading step. -/
abbrev Reading := StateT Source (Except ReadFault)

/-- The next event. -/
def nextEvent : Reading (Yaml.Event × Mark) := do
  let s ← get
  match s.events, s.fault with
  | e :: es, _ => do
    set { s with events := es }
    return e
  | [], some f => throw (.malformed f)
  | [], none => throw .endOfText

/-- Something else was expected. -/
def mistaken {α : Type} (path : List String) (expected : String) (e : Yaml.Event × Mark) : Reading α :=
  throw (.invalidType path e.1.describe expected e.2)

/-- Any scalar, as it is written. -/
def readText (path : List String) : Reading Text := do
  match ← nextEvent with
  | (.scalar t _, _) => return t
  | e => mistaken path "a string" e

/-- A natural number of 64 bits. -/
def readNat (path : List String) : Reading Nat := do
  let e ← nextEvent
  match e with
  | (.scalar t true, _) =>
    match Yaml.natural? t with
    | some n => if n < Nat.pow 2 64 then return n else mistaken path "usize" e
    | none => mistaken path "usize" e
  | _ => mistaken path "usize" e

def readBool (path : List String) : Reading Bool := do
  let e ← nextEvent
  match e with
  | (.scalar t true, _) =>
    match Yaml.truth? t with
    | some b => return b
    | none => mistaken path "a boolean" e
  | _ => mistaken path "a boolean" e

/-- The fields of a mapping that began at a mark, each at most once, up to its end. -/
def readFields {α : Type} (path fields : List String) (start : Mark) (readField : String → α → Reading α) :
    Nat → List String → α → Reading α
  | 0, _, _ => throw .endOfText
  | n + 1, seen, a => do
    match ← nextEvent with
    | (.mapEnd, _) => return a
    | (.scalar t _, m) =>
      match fields.find? fun f => f.toList == t with
      | none => throw (.unknownField path t fields m)
      | some f =>
        if seen.contains f then throw (.duplicateField path f start)
        else do
          let a ← readField f a
          readFields path fields start readField n (f :: seen) a
    | e => mistaken path "field identifier" e

/-- A mapping with these fields; an empty scalar stands for one without any. -/
def readRecord {α : Type} (path fields : List String) (expected : String) (readField : String → α → Reading α)
    (default : α) : Reading α := do
  let e ← nextEvent
  match e with
  | (.mapStart, m) => do readFields path fields m readField ((← get).events.length + 1) [] default
  | (.scalar [] true, _) => return default
  | _ => mistaken path expected e

def builderFields : List String := ["element", "attribute", "text"]

def readBuilderField (f : String) (b : Builders) : Reading Builders := do
  let t ← readText ["builders", f]
  match f with
  | "element" => return { b with element := t }
  | "attribute" => return { b with attr := t }
  | _ => return { b with text := t }

def settingFields : List String := ["builders", "input_extension", "output_extension", "max_depth", "parallel"]

def readSettingField (f : String) (s : Settings) : Reading Settings := do
  match f with
  | "builders" =>
    let b ← readRecord [f] builderFields "struct BuilderNames" readBuilderField {}
    return { s with builders := b }
  | "input_extension" => return { s with inputExtension := ← readText [f] }
  | "output_extension" => return { s with outputExtension := ← readText [f] }
  | "max_depth" => return { s with maxDepth := ← readNat [f] }
  | _ => return { s with parallel := ← readBool [f] }

/-- The settings in a stream of events. -/
def ofStream (s : Yaml.Stream) : Except ReadFault Settings := do
  if s.events.isEmpty && s.fault.isNone then return {}
  let (settings, rest) ←
    (readRecord [] settingFields "struct TranslateConfig" readSettingField {}).run ⟨s.events, s.fault⟩
  match rest.fault with
  | some f => throw (.malformed f)
  | none => if s.more then throw .severalDocuments else return settings

/-- The settings in a YAML document. -/
def ofDocument (doc : Document) : Except Diagnostic Settings :=
  match ofStream (Yaml.Stream.read doc.text) with
  | .error f => .error
      { kind := .config, message := "invalid configuration: " ++ f.message, document := some doc
        span := some ⟨f.offset, f.offset⟩, cause := some f.message }
  | .ok s =>
    match s.checked with
    | .error f => .error { kind := .config, message := f.message }
    | .ok s => .ok s

/-! ## Files with settings -/

/-- The file that is looked for in a root directory. -/
def fileName : Text := "mbx.yaml".toList

/-- The settings in a file. -/
def load (s : Store) (p : Path) : Except Diagnostic Settings :=
  match s.readText p with
  | .error f => .error (f.report p)
  | .ok t => ofDocument ⟨String.ofList p, t⟩

/-- The settings for a root directory, or from a file that is named. -/
def resolve (s : Store) (named : Option Path) (root : Path) : Except Diagnostic Settings :=
  match named with
  | some p => load s p
  | none =>
    let p := root.join fileName
    if s.isFile p then load s p else .ok {}

end InlineMarkup.Settings
