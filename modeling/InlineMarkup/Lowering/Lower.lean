import InlineMarkup.Event
import InlineMarkup.Lowering.Fault
import InlineMarkup.Lowering.Joint
import InlineMarkup.Lowering.Shape
import InlineMarkup.Lowering.TextRun
import InlineMarkup.Settings
/-!
# Lowering.Lower — elements to builder calls

An element becomes a call of the element builder, `h("tag", [attr("name", value), …], [child, …])`.  Host code without
markup is copied; host code with markup is composed from its children, with the markup lowered.

Each of the four functions takes the number of levels that it may still go down, itself included, and refuses to start
when there is none left.
-/
namespace InlineMarkup.Lowering

/-- A step of lowering, with its log. -/
abbrev Step (α : Type) := Logged Fault α

/-- What lowering reads and never changes. -/
structure Input where
  source : Text
  settings : Settings
  deriving Repr

namespace Input

/-- A text between double quotes as it is. -/
def inQuotes (t : Text) : Text := '"' :: t ++ ['"']

/-- A call of a builder. -/
def call (builder : Text) (args : List Text) : Text :=
  builder ++ '(' :: Text.join [',', ' '] args ++ [')']

/-- A list of builder calls. -/
def listOf (items : List Text) : Text := '[' :: Text.join [',', ' '] items ++ [']']

/-- The error of a node that is too deep. -/
def tooDeep {α : Type} (i : Input) (t : Tree) : Step α := .fail (.tooDeep i.settings.maxDepth t.span)

/-- Checks that the tags of an element agree; a single tag always does. -/
def checkTags (i : Input) (t tag : Tree) (name : Text) : Step Unit :=
  if isSelfClosing t then pure ()
  else match closingTag? t with
    | none => .fail (.neverClosed name tag.span)
    | some close =>
      let closingName := (tagName? i.source close).getD []
      if closingName = name then pure ()
      else .fail
        (.mismatch name closingName tag.span close.span (Position.ofOffset i.source tag.span.start))

/-- The tag that opens an element, with its name, once the tags of the element agree. -/
def tagOf (i : Input) (t : Tree) : Step (Tree × Text) :=
  match openingTag? t with
  | none => .fail (.noOpeningTag t.span)
  | some tag =>
    match (tagName? i.source tag).filter (!·.isEmpty) with
    | none => .fail (.noTagName tag.span)
    | some name => do
      i.checkTags t tag name
      pure (tag, name)

/-- A quoted attribute value as a host string: double quotes stay as they are, single quotes are replaced. -/
def attributeString (i : Input) (value : Tree) : Text :=
  let raw := value.text i.source
  if raw.head? = some '\'' then
    inQuotes (requote (((value.child? .attributeContent).map (·.text i.source)).getD []))
  else raw

/-- The empty host string, for an attribute without a value. -/
def emptyString : Text := ['"', '"']

/-- Text that ends in a line comment gets a line end, and the indentation of the line it began on. -/
def closeComment (i : Input) (t : Tree) (written : Text) : Step Text :=
  if t.endsWithComment i.source then do
    Logged.note (.endsInComment t.span)
    pure (written ++ lineBreak i.source [] ++ lineIndent i.source t.span.start)
  else pure written

mutual

/-- Host code, with the markup in it lowered. -/
def compose (i : Input) : Nat → Tree → Step Text
  | 0, t => i.tooDeep t
  | room + 1, t =>
    if !t.hasMarkup then pure (t.text i.source)
    else if t.kind = .element then i.lowerElement room t
    else do
      let written ← Logged.each (fun c => i.compose room c) t.children
      pure (weave i.source (t.children.zip written))

/-- An expression as an argument of a builder call. -/
def lowerExpression (i : Input) : Nat → Tree → Step Text
  | 0, t => i.tooDeep t
  | room + 1, t => do
    let core := unwrap i.source t
    let written ←
      if core.kind = .identifier ∨ core.kind = .qualifiedName then pure (core.text i.source)
      else if core.kind = .element then i.lowerElement room core
      else if t.hasMarkup then i.compose room t
      else pure (t.text i.source)
    i.closeComment t written

/-- An attribute as a builder call. -/
def lowerAttribute (i : Input) : Nat → Tree → Step Text
  | 0, t => i.tooDeep t
  | room + 1, t => do
    let name := ((t.child? .attributeName).map (·.text i.source)).getD []
    let value ←
      match t.child? .attributeValue, t.child? .interpolation with
      | some value, _ => pure (i.attributeString value)
      | none, some braces =>
        match braces.child? .expression with
        | some e => i.lowerExpression room e
        | none => do
          Logged.note (.emptyValue name t.span)
          pure emptyString
      | none, none =>
        if t.children.any (·.isToken i.source ['=']) then do
          Logged.note (.missingValue name t.span)
          pure emptyString
        else pure "true".toList
    Logged.note (.loweredAttribute name)
    pure (call i.settings.builders.attr [inQuotes name, value])

/-- An element as a builder call.  Of its content, blank text, comments and empty braces give no child. -/
def lowerElement (i : Input) : Nat → Tree → Step Text
  | 0, t => i.tooDeep t
  | room + 1, t => do
    let (tag, name) ← i.tagOf t
    let attributes ←
      Logged.each (fun a => i.lowerAttribute room a) (tag.children.filter (·.kind == .attribute))
    let children ←
      Logged.each (fun c =>
        match c.kind with
        | .text => pure
            ((normalizeText (c.text i.source)).map fun t => call i.settings.builders.text [inQuotes (escapeText t)])
        | .element => do
          let written ← i.lowerElement room c
          pure (some written)
        | .interpolation =>
          match c.child? .expression with
          | none => pure none
          | some e =>
            let core := unwrap i.source e
            match room with
            | 0 => i.tooDeep (if core.kind = .element then core else e)
            | room' + 1 =>
              if core.kind = .element then do
                let written ← i.lowerElement room' core
                pure (some written)
              else do
                let written ← i.lowerExpression room' e
                pure (some (call i.settings.builders.text [written]))
        | _ => pure none) (content t)
    let children := children.filterMap id
    Logged.note (.loweredElement name attributes.length children.length)
    pure (call i.settings.builders.element [inQuotes name, listOf attributes, listOf children])

end

end Input
end InlineMarkup.Lowering
