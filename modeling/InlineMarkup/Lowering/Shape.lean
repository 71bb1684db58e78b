import InlineMarkup.Cst.Tree
/-!
# Lowering.Shape — what expressions and elements consist of

An expression that merely wraps another one, in parentheses or in levels of the grammar, stands for what it wraps.  An
element consists of a tag that opens it, its content and perhaps a tag that closes it.
-/
namespace InlineMarkup.Lowering

/-- Kinds that may only wrap something else. -/
def wraps : Kind → Bool
  | .expression | .unary | .postfixed | .parenExpr => true
  | _ => false

/-- The only child that is neither a comment nor a parenthesis. -/
def singleOperand? (source : Text) (t : Tree) : Option Tree :=
  match t.children.filter fun c => c.kind != .comment && !c.isToken source ['('] && !c.isToken source [')'] with
  | [c] => some c
  | _ => none

/-- Looks through at most `n` wrappers. -/
def unwrapUpTo (source : Text) : Nat → Tree → Tree
  | 0, t => t
  | n + 1, t =>
    match singleOperand? source t with
    | some c => if wraps t.kind then unwrapUpTo source n c else t
    | none => t

/-- How many wrappers are looked through before an expression counts as compound. -/
def maxUnwrap : Nat := 16

/-- What an expression stands for. -/
def unwrap (source : Text) (t : Tree) : Tree := unwrapUpTo source maxUnwrap t

/-- The tag that opens an element or is all of it: the last one. -/
def openingTag? (t : Tree) : Option Tree :=
  t.children.reverse.find? fun c => c.kind == .elementOpening || c.kind == .elementSelfClosing

/-- The tag that closes an element: the last one. -/
def closingTag? (t : Tree) : Option Tree := t.children.reverse.find? (·.kind == .elementClosing)

/-- The element is a single tag. -/
def isSelfClosing (t : Tree) : Bool := t.children.any (·.kind == .elementSelfClosing)

/-- What stands between the tags of an element. -/
def content (t : Tree) : List Tree :=
  t.children.filter fun c =>
    c.kind != .elementOpening && c.kind != .elementSelfClosing && c.kind != .elementClosing

/-- The name in a tag. -/
def tagName? (source : Text) (tag : Tree) : Option Text := (tag.child? .tagName).map (·.text source)

end InlineMarkup.Lowering
