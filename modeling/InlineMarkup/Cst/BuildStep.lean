import InlineMarkup.Cst.Arena
/-!
# Cst.BuildStep — building an arena step by step

The three ways to change an arena, and when each of them is admissible: the nodes that a step names exist, and new
children have greater numbers than their parent.
-/
namespace InlineMarkup

/-- A change of an arena. -/
inductive BuildStep where
  | push (kind : Kind) (span : Span) (parent : Option Nat)
  | setStop (node stop : Nat)
  | replaceChildren (node : Nat) (children : List Nat)
  deriving DecidableEq, Repr

namespace BuildStep

/-- Why a step is not admissible. -/
inductive Refusal where
  | noSuchNode
  | childPrecedesParent
  deriving DecidableEq, Repr

/-- What is wrong with a step on an arena, if anything. -/
def refusal? (a : Arena) : BuildStep → Option Refusal
  | .push _ _ none => none
  | .push _ _ (some p) => if p < a.size then none else some .noSuchNode
  | .setStop node _ => if node < a.size then none else some .noSuchNode
  | .replaceChildren node children =>
    if a.size ≤ node || children.any (a.size ≤ ·) then some .noSuchNode
    else if children.any (· ≤ node) then some .childPrecedesParent
    else none

/-- The arena after a step. -/
def apply (a : Arena) : BuildStep → Arena
  | .push kind span parent => a.push kind span parent
  | .setStop node stop => a.setStop node stop
  | .replaceChildren node children => a.replaceChildren node children

/-- The node that a step adds or changes. -/
def target (a : Arena) : BuildStep → Nat
  | .push .. => a.size
  | .setStop node _ | .replaceChildren node _ => node

end BuildStep
end InlineMarkup
