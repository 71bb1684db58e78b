import InlineMarkup.Files.Path
import InlineMarkup.Text.Quoted
/-!
# Settings — how documents are lowered and files are found

Builder names must be callable, extensions must be there and differ, and some depth must be allowed (`checked`).  Dots
before an extension do not belong to it.
-/
namespace InlineMarkup

/-- The functions that build elements, attributes and text. -/
structure Builders where
  element : Text := "h".toList
  attr : Text := "attr".toList
  text : Text := "text".toList
  deriving DecidableEq, Repr

/-- The settings of a run. -/
structure Settings where
  builders : Builders := {}
  /-- The extension of source files, in either case. -/
  inputExtension : Text := "mbx".toList
  outputExtension : Text := "mbt".toList
  /-- How deep the lowering of a document may go. -/
  maxDepth : Nat := 256
  parallel : Bool := false
  deriving DecidableEq, Repr

namespace Settings

/-- Where the lowered form of a file goes. -/
def outputPath? (s : Settings) (input : Path) : Option Path := input.withExtension? s.outputExtension

/-! ## Which settings make sense -/

/-- A name that can be called: a word, perhaps of a package or a type. -/
def isCallable (name : Text) : Bool :=
  let body := match name with
    | '@' :: r => r
    | r => r
  match body with
  | [] => false
  | c :: _ => !c.isDigit && body.all fun c => c.isAlphanum || c == '_' || c == '.' || c == ':' || c == '/'

/-- Why settings make no sense. -/
inductive CheckFault where
  | notCallable (field : String) (name : Text)
  | emptyExtension
  | sameExtension (extension : Text)
  | zeroDepth
  deriving DecidableEq, Repr

def CheckFault.message : CheckFault → String
  | .notCallable field name => field ++ " is not a valid call target: " ++ String.ofList (Text.quoted name)
  | .emptyExtension => "file extensions must not be empty"
  | .sameExtension e => "input and output extension are both " ++ String.ofList (Text.quoted e)
  | .zeroDepth => "max_depth must be at least 1"

/-- The first builder that cannot be called. -/
def uncallable? (b : Builders) : Option (String × Text) :=
  [("builders.element", b.element), ("builders.attribute", b.attr), ("builders.text", b.text)].find? fun f =>
    !isCallable f.2

/-- An extension without the dots before it. -/
def bareExtension (e : Text) : Text := e.dropWhile (· == '.')

/-- The settings with bare extensions, if they make sense. -/
def checked (s : Settings) : Except CheckFault Settings :=
  match uncallable? s.builders with
  | some (field, name) => .error (.notCallable field name)
  | none =>
    let input := bareExtension s.inputExtension
    let output := bareExtension s.outputExtension
    if input.isEmpty || output.isEmpty then .error .emptyExtension
    else if Text.sameAsciiFold input output then .error (.sameExtension input)
    else if s.maxDepth = 0 then .error .zeroDepth
    else .ok { s with inputExtension := input, outputExtension := output }

end Settings
end InlineMarkup
