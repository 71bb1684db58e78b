import InlineMarkup.Cst.Arena
/-!
# Cst.Tree — the tree below a node

`Arena.tree` reads the tree below a node off the arena.  What is asked of nodes while a document is lowered is asked of
these trees: their text, their children by kind, whether there is markup in them, and whether they end in a comment.
-/
namespace InlineMarkup

/-- A node with the trees of its children. -/
inductive Tree where
  | node (kind : Kind) (span : Span) (children : List Tree)
  deriving Repr

namespace Tree

def kind : Tree → Kind
  | .node k _ _ => k

def span : Tree → Span
  | .node _ s _ => s

def children : Tree → List Tree
  | .node _ _ cs => cs

/-- The tree's part of the source. -/
def text (t : Tree) (source : Text) : Text := t.span.text source

/-- The first child of a kind. -/
def child? (t : Tree) (k : Kind) : Option Tree := t.children.find? (·.kind == k)

/-- A token with exactly this text. -/
def isToken (t : Tree) (source : Text) (w : Text) : Bool := t.kind == .token && t.text source == w

mutual

/-- An element stands at the root or below. -/
def hasMarkup : Tree → Bool
  | .node k _ cs => k.isMarkup || anyMarkup cs

/-- An element stands in one of the trees. -/
def anyMarkup : List Tree → Bool
  | [] => false
  | t :: ts => t.hasMarkup || anyMarkup ts

end

mutual

/-- How many nodes a tree has. -/
def count : Tree → Nat
  | .node _ _ cs => counts cs + 1

def counts : List Tree → Nat
  | [] => 0
  | t :: ts => t.count + counts ts

end

mutual

/-- The edges on the longest way down. -/
def height : Tree → Nat
  | .node _ _ cs => heights cs

/-- The nodes on the longest way down into one of the trees. -/
def heights : List Tree → Nat
  | [] => 0
  | t :: ts => max (t.height + 1) (heights ts)

end

mutual

/-- The node reached by going to the last child as long as there is one. -/
def lastLeaf : Tree → Tree
  | .node k s cs => (lastLeafOf? cs).getD (.node k s [])

/-- The same below the last of the trees. -/
def lastLeafOf? : List Tree → Option Tree
  | [] => none
  | t :: ts =>
    match lastLeafOf? ts with
    | some leaf => some leaf
    | none => some t.lastLeaf

end

end Tree

/-- Whether `//` stands outside double quotes; `quoted` tells on which side the text begins. -/
def hasCommentMark : Bool → Text → Bool
  | _, [] => false
  | true, '\\' :: _ :: cs => hasCommentMark true cs
  | quoted, '"' :: cs => hasCommentMark (!quoted) cs
  | false, '/' :: '/' :: _ => true
  | quoted, _ :: cs => hasCommentMark quoted cs

/-- Whether a piece of host code ends inside a line comment. -/
def endsInComment (t : Text) : Bool := hasCommentMark false (Text.lastLine t)

/-- Whether the tree's text ends inside a line comment, so that anything put behind it on the line would be lost. -/
def Tree.endsWithComment (t : Tree) (source : Text) : Bool :=
  let leaf := t.lastLeaf
  match leaf.kind with
  | .comment => true
  | .rawCode | .head | .pattern | .typeExpr => endsInComment (leaf.text source)
  | _ => false

namespace Arena

/-- The tree below a node, to a depth. -/
def unfold (a : Arena) : Nat → Nat → Tree
  | 0, id =>
    match a.get? id with
    | some n => .node n.kind n.span []
    | none => .node .token ⟨0, 0⟩ []
  | d + 1, id =>
    match a.get? id with
    | some n => .node n.kind n.span (n.children.map (a.unfold d))
    | none => .node .token ⟨0, 0⟩ []

/-- The tree below a node.  Numbers grow on the way down, so the depth of the arena's size is enough. -/
def tree (a : Arena) (id : Nat) : Tree := a.unfold a.size id

end Arena

/-- A parsed document: its text, its nodes and the number of the root. -/
structure Cst where
  source : Text
  arena : Arena
  root : Nat
  deriving Repr

/-- The whole tree of a document. -/
def Cst.tree (c : Cst) : Tree := c.arena.tree c.root

end InlineMarkup
