import InlineMarkup.Cst.Arena
import InlineMarkup.Grammar.Parse
/-!
# Cst.OfParse — nodes of a parse

Parse trees become nodes in the order of a walk that visits parents before their children.  A parse tree whose rule makes
no node is dropped with everything below it, and what is below a leaf is ignored.
-/
namespace InlineMarkup

open Grammar (Parse Rule)

namespace ParseTree

mutual

/-- How many rules matched in a parse tree. -/
def size : Parse Rule → Nat
  | .node _ _ _ inner => sizes inner + 1

def sizes : List (Parse Rule) → Nat
  | [] => 0
  | p :: ps => size p + sizes ps

end

end ParseTree

namespace Arena

/-- Adds the waiting parse trees, each below the node that it waits for, until none is left; `steps` bounds how many
are visited. -/
def addWaiting : Nat → Arena → List (Parse Rule × Nat) → Arena
  | 0, a, _ => a
  | _ + 1, a, [] => a
  | steps + 1, a, (.node rule start stop inner, parent) :: waiting =>
    match Kind.ofRule? rule with
    | none => addWaiting steps a waiting
    | some k =>
      let a' := a.push k ⟨start, stop⟩ (some parent)
      if k.isLeaf then addWaiting steps a' waiting
      else addWaiting steps a' (inner.map (·, a.size) ++ waiting)

/-- The nodes of a whole document's parse tree; the root has number zero. -/
def ofParse : Parse Rule → Arena
  | .node _ start stop inner =>
    addWaiting (ParseTree.sizes inner) (Arena.push {} .program ⟨start, stop⟩ none) (inner.map (·, 0))

end Arena
end InlineMarkup
