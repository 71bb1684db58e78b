import InlineMarkup.Cst.GapTokens
import InlineMarkup.Cst.OfParse
import InlineMarkup.Cst.Tree
import InlineMarkup.Diagnostic
import InlineMarkup.Grammar.Document
/-!
# Cst.Build — the concrete tree of a document

A document's parse becomes nodes, the ends of the nodes are moved back over layout, and the text between named children
becomes tokens.
-/
namespace InlineMarkup

open Grammar

/-- Advice for a document that the grammar refused at this point. -/
def parseHelp (rest : Text) : String :=
  match rest with
  | '<' :: _ =>
    "a `<` directly followed by a letter or `/` always starts markup; put spaces around the less-than operator"
  | '{' :: _ | '}' :: _ => "check that braces in element content are balanced"
  | _ => "the input is not valid MBX at this position"

/-- The report on a document that the grammar refused. -/
def refusal (doc : Document) (a : Attempts Rule) : Diagnostic where
  kind := .parse
  message := a.explain ++ " at " ++ (Position.walk (Text.upTo doc.text a.furthest) ⟨1, 1⟩).display
  document := some doc
  span := some ⟨a.furthest, a.furthest⟩
  help := some (parseHelp ((Text.after? doc.text a.furthest).getD []))

/-- The concrete tree of a document's parse tree. -/
def Cst.ofParse (source : Text) (p : Parse Rule) : Cst :=
  ⟨source, ((Arena.ofParse p).trim source).addTokens source, 0⟩

/-- The concrete tree of a document. -/
def Document.parse (doc : Document) : Except Diagnostic Cst :=
  match parseDocument doc.text with
  | .matched _ (p :: _) _ => .ok (Cst.ofParse doc.text p)
  | .matched _ [] _ => .error { kind := .internal, message := "grammar produced no program node" }
  | .failed a => .error (refusal doc a)
  | .exhausted => .error { kind := .internal, message := "grammar produced no program node" }

end InlineMarkup
