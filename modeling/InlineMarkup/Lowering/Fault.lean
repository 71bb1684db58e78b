import InlineMarkup.Cst.Kind
import InlineMarkup.Diagnostic
/-!
# Lowering.Fault — why a document cannot be lowered
-/
namespace InlineMarkup.Lowering

/-- Why a document cannot be lowered. -/
inductive Fault where
  /-- The tree goes deeper than allowed. -/
  | tooDeep (limit : Nat) (node : Span)
  /-- An element has no tag that opens it. -/
  | noOpeningTag (element : Span)
  /-- A tag that opens an element has no name. -/
  | noTagName (tag : Span)
  /-- An element is never closed. -/
  | neverClosed (name : Text) (opening : Span)
  /-- The closing tag has another name than the opening tag, which stands at a position. -/
  | mismatch (name closingName : Text) (opening closing : Span) (openedAt : Position)
  /-- Markup stands in a leaf that is copied as it is. -/
  | verbatimMarkup (kind : Kind) (found leaf : Span)
  deriving DecidableEq, Repr

/-- What a leaf that is copied as it is belongs to. -/
def verbatimWords : Kind → String
  | .head => "declaration or loop header"
  | .pattern => "pattern"
  | .typeExpr => "type"
  | .parameters => "parameter list"
  | _ => "host"

/-- The report on a document that cannot be lowered. -/
def Fault.report (doc : Document) : Fault → Diagnostic
  | .tooDeep limit node =>
    { kind := .nestingLimit
      message := "markup nested deeper than " ++ toString limit ++ " levels"
      document := some doc, span := some node
      help := some "raise `max_depth` in mbx.yaml or split the element into helper functions" }
  | .noOpeningTag element =>
    { kind := .malformedElement, message := "element without an opening tag", document := some doc
      span := some element }
  | .noTagName tag =>
    { kind := .malformedElement, message := "element has no tag name", document := some doc, span := some tag
      help := some "write a tag name right after `<`, e.g. `<div>`" }
  | .neverClosed name opening =>
    { kind := .unmatchedElement
      message := "element <" ++ String.ofList name ++ "> is never closed"
      document := some doc, span := some opening
      help := some ("add `</" ++ String.ofList name ++ ">` after the element's content") }
  | .mismatch name closingName opening closing openedAt =>
    { kind := .unmatchedElement
      message := "closing tag </" ++ String.ofList closingName ++ "> does not match <" ++ String.ofList name ++ ">"
      document := some doc, span := some closing
      related := [⟨opening, "<" ++ String.ofList name ++ "> opened here"⟩]
      help := some ("the element opened at " ++ openedAt.display ++ " must be closed with `</" ++
        String.ofList name ++ ">`") }
  | .verbatimMarkup kind found leaf =>
    { kind := .unsupportedForm
      message := "markup inside a " ++ verbatimWords kind ++ " construct that cannot be translated"
      document := some doc, span := some found
      related := [⟨leaf, "copied as plain text"⟩]
      help := some ("bind the markup to a `let` first, or rewrite the surrounding code with `if`, `match`, `for`, " ++
        "`loop`, `try` or a lambda") }

end InlineMarkup.Lowering
