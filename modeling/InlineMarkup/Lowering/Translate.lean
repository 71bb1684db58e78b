import InlineMarkup.Cst.Build
import InlineMarkup.Lowering.Lower
import InlineMarkup.Lowering.Masking
/-!
# Lowering.Translate — whole documents

A document without markup stays as it is.  Otherwise its top-level items are composed one by one, the text between them
is copied, and the result ends with a line end.  Code that is copied as it stands must hold no markup of its own.
-/
namespace InlineMarkup.Lowering

/-- Where there is markup in a node that is copied as it stands. -/
def verbatimMarkup? (source : Text) (n : Node) : Option (Node × Span) :=
  if n.kind.isVerbatim then
    (findTag? (maskLiterals (n.span.text source)) n.span.start).map fun found => (n, found)
  else none

/-- Fails at the first node, by number, with markup that would be copied as it stands. -/
def rejectVerbatim (c : Cst) : Step Unit :=
  match c.arena.nodes.toList.findSome? (verbatimMarkup? c.source) with
  | none => pure ()
  | some (n, found) => do
    Logged.note (.verbatimMarkup n.kind found)
    .fail (.verbatimMarkup n.kind found n.span)

/-- The written items with the text before, between and after them, from a place on. -/
def assembleFrom (source : Text) : Nat → List (Tree × Text) → Text
  | place, [] => (Text.after? source place).getD []
  | place, (t, written) :: more =>
    (Text.slice? source place t.span.start).getD [] ++ written ++ assembleFrom source t.span.stop more

/-- The text with a line end behind it, unless it has one. -/
def endLine (source t : Text) : Text := if t.getLast? = some '\n' then t else t ++ lineBreak source []

/-- Lowers a parsed document. -/
def assemble (settings : Settings) (c : Cst) : Step Text := do
  rejectVerbatim c
  let root := c.tree
  if !root.hasMarkup then pure c.source
  else do
    let i : Input := ⟨c.source, settings⟩
    let written ← Logged.each (fun t => i.compose settings.maxDepth t) root.children
    pure (endLine c.source (assembleFrom c.source 0 (root.children.zip written)))

end InlineMarkup.Lowering

namespace InlineMarkup

open Lowering

/-- Parses and lowers a document. -/
def Document.translate (doc : Document) (settings : Settings) : Logged Diagnostic Text :=
  match doc.parse with
  | .error d => .fail d
  | .ok c => do
    Logged.note (.parsed doc.name c.arena.size)
    let output ← (assemble settings c).mapError (Fault.report doc)
    Logged.note (.translated doc.name c.arena.markupIndex.elements)
    pure output

end InlineMarkup
