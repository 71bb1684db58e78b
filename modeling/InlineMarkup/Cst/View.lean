import InlineMarkup.Cst.Tree
import InlineMarkup.Text.Quoted
/-!
# Cst.View — trees to look at

A tree can be listed with one node a line, indented by depth, or taken as a snapshot that holds the texts of its leaves
and prints as JSON.
-/
namespace InlineMarkup

/-- What the line of a node says. -/
def Node.headline (source : Text) (n : Node) : Text :=
  n.kind.name.toList ++ '@' :: (toString n.span.start).toList ++ ['.', '.'] ++ (toString n.span.stop).toList ++
    (if n.kind.isLeaf then ' ' :: Text.quoted (n.span.text source) else [])

/-- The lines of the waiting nodes, each indented by the depth that it waits at, until none is left; the children of a
node come before the nodes that waited with it.  `steps` bounds how many are listed. -/
def Arena.listWaiting (a : Arena) (source : Text) : Nat → List (Nat × Nat) → Text
  | 0, _ => []
  | _ + 1, [] => []
  | steps + 1, (id, depth) :: waiting =>
    match a.get? id with
    | none => a.listWaiting source steps waiting
    | some n =>
      List.replicate (2 * depth) ' ' ++ n.headline source ++
        '\n' :: a.listWaiting source steps (n.children.map (·, depth + 1) ++ waiting)

/-- A tree on its own, with the texts of its leaves. -/
inductive Snapshot where
  | node (kind : Kind) (span : Span) (text : Option Text) (children : List Snapshot)
  deriving Repr

namespace Tree

mutual

/-- The snapshot of a tree. -/
def snapshot (source : Text) : Tree → Snapshot
  | .node k s cs => .node k s (if k.isLeaf then some (s.text source) else none) (snapshots source cs)

def snapshots (source : Text) : List Tree → List Snapshot
  | [] => []
  | t :: ts => t.snapshot source :: snapshots source ts

end

end Tree

namespace Snapshot

/-- A line of JSON at a depth. -/
def jsonLine (depth : Nat) (t : Text) : Text := '\n' :: List.replicate (2 * depth) ' ' ++ t

mutual

/-- A snapshot as JSON, at a depth. -/
def jsonAt (depth : Nat) : Snapshot → Text
  | .node k s t cs =>
    let span :=
      "\"span\": ".toList ++ '{' :: jsonLine (depth + 2) ("\"start\": ".toList ++ (toString s.start).toList ++ [',']) ++
        jsonLine (depth + 2) ("\"end\": ".toList ++ (toString s.stop).toList) ++ jsonLine (depth + 1) ['}']
    let fields := [span] ++ (t.toList.map fun t => "\"text\": ".toList ++ Text.jsonString t) ++
      (if cs.isEmpty then []
        else ["\"children\": ".toList ++ '[' :: jsonItems (depth + 2) cs ++ jsonLine (depth + 1) [']']])
    '{' :: jsonLine (depth + 1) ("\"kind\": ".toList ++ Text.jsonString k.name.toList) ++
      (fields.flatMap fun f => ',' :: jsonLine (depth + 1) f) ++ jsonLine depth ['}']

/-- The items of a JSON list, each on a line of its own. -/
def jsonItems (depth : Nat) : List Snapshot → Text
  | [] => []
  | [s] => jsonLine depth (s.jsonAt depth)
  | s :: ss => jsonLine depth (s.jsonAt depth) ++ ',' :: jsonItems depth ss

end

end Snapshot

/-- The listing of a document's tree. -/
def Cst.dump (c : Cst) : Text := c.arena.listWaiting c.source c.tree.count [(c.root, 0)]

/-- The snapshot of a document's tree. -/
def Cst.snapshot (c : Cst) : Snapshot := c.tree.snapshot c.source

/-- The snapshot of a document's tree as JSON. -/
def Cst.json (c : Cst) : Text := c.snapshot.jsonAt 0

end InlineMarkup
