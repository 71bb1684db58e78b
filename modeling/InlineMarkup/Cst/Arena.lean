import InlineMarkup.Cst.Kind
import InlineMarkup.Text.Position
/-!
# Cst.Arena — nodes by number

A tree under construction is a row of nodes that name their children by number.  A node is added after its parent, and
a list of children is replaced only by later nodes, so every child has a greater number than its parent
(`Arena.Ascending`).

Passes that need children before parents walk the row backwards.  One of them moves the ends of nodes back over layout,
which the grammar takes into their ranges, though never before the end of the last child (`Arena.trim`).  Another finds
which nodes have markup below them (`Arena.markupIndex`).
-/
namespace InlineMarkup

/-- A node: its kind, its range and the numbers of its children. -/
structure Node where
  kind : Kind
  span : Span
  children : List Nat := []
  deriving DecidableEq, Repr

/-- Nodes by number. -/
structure Arena where
  nodes : Array Node := #[]
  deriving Repr

namespace Arena

def size (a : Arena) : Nat := a.nodes.size

def get? (a : Arena) (id : Nat) : Option Node := a.nodes[id]?

/-- The children of a node; none for a number without a node. -/
def children (a : Arena) (id : Nat) : List Nat := ((a.get? id).map Node.children).getD []

/-- Changes one node. -/
def update (a : Arena) (id : Nat) (f : Node → Node) : Arena := ⟨a.nodes.modify id f⟩

/-- Adds a node, as the last child of `parent` if there is one.  Its number is the size of the arena before. -/
def push (a : Arena) (kind : Kind) (span : Span) (parent : Option Nat) : Arena :=
  let added : Arena := ⟨a.nodes.push ⟨kind, span, []⟩⟩
  match parent with
  | none => added
  | some p => added.update p fun n => { n with children := n.children ++ [a.size] }

/-- Moves the end of a node. -/
def setStop (a : Arena) (id stop : Nat) : Arena := a.update id fun n => { n with span := { n.span with stop } }

/-- Gives a node other children. -/
def replaceChildren (a : Arena) (id : Nat) (children : List Nat) : Arena := a.update id fun n => { n with children }

/-- Every child exists and has a greater number than its parent. -/
def Ascending (a : Arena) : Prop :=
  ∀ id n, a.get? id = some n → ∀ c ∈ n.children, id < c ∧ c < a.size

/-! ## Ends of nodes -/

/-- Where the last child of a node ends, or else where the node starts. -/
def lastChildStop (a : Arena) (n : Node) : Nat :=
  match n.children.getLast? with
  | some c => ((a.get? c).map (·.span.stop)).getD n.span.start
  | none => n.span.start

/-- Moves the end of one node back over layout. -/
def trimAt (source : Text) (a : Arena) (id : Nat) : Arena :=
  match a.get? id with
  | none => a
  | some n =>
    if n.kind.keepsTrailingBlanks then a
    else match Text.slice? source n.span.start n.span.stop with
      | none => a
      | some t => a.setStop id (max (n.span.start + Text.bytes (Text.trimEnd Text.isLayout t)) (a.lastChildStop n))

/-- Moves the end of every node back over layout, children before their parents. -/
def trim (a : Arena) (source : Text) : Arena := (List.range a.size).reverse.foldl (trimAt source) a

end Arena

/-! ## Markup below nodes -/

/-- For every node whether it is an element or has one below it, and how many elements there are. -/
structure MarkupIndex where
  flags : Array Bool
  elements : Nat
  deriving Repr

namespace MarkupIndex

/-- No flag is set for a node that is not there. -/
def contains (x : MarkupIndex) (id : Nat) : Bool := x.flags[id]?.getD false

/-- Takes one node into account. -/
def visit (a : Arena) (x : MarkupIndex) (id : Nat) : MarkupIndex :=
  match a.get? id with
  | none => x
  | some n =>
    { flags := x.flags.setIfInBounds id (n.kind.isMarkup || n.children.any x.contains)
      elements := if n.kind.isMarkup then x.elements + 1 else x.elements }

end MarkupIndex

/-- The flags of all nodes. -/
def Arena.markupIndex (a : Arena) : MarkupIndex :=
  (List.range a.size).reverse.foldl (MarkupIndex.visit a) ⟨Array.replicate a.size false, 0⟩

end InlineMarkup
