import InlineMarkup.Text.Basic
/-!
# Grammar.Expr — parsing expressions

A grammar is a table of rules over parsing expressions with ordered choice.  Between the parts of a sequence and between
repetitions a grammar may skip layout; how a rule is written (`Style`) says whether it does so inside, and whether the
rule leaves a node in the parse tree.
-/
namespace InlineMarkup
namespace Grammar

/-- A set of characters that a grammar names. -/
inductive CharSet where
  | any
  | letter
  | digit
  | alphanumeric
  deriving DecidableEq, Repr

/-- Membership; letters and digits are the ASCII ones. -/
def CharSet.holds : CharSet → Char → Bool
  | .any, _ => true
  | .letter, c => c.isAlpha
  | .digit, c => c.isDigit
  | .alphanumeric, c => c.isAlphanum

/-- A parsing expression over rules of type `R`. -/
inductive Expr (R : Type) where
  /-- These characters, in this order. -/
  | word (w : Text)
  /-- One character of a set. -/
  | one (s : CharSet)
  /-- The beginning of the input. -/
  | first
  /-- The end of the input. -/
  | last
  /-- One after the other, with layout skipped in between. -/
  | seq (p q : Expr R)
  /-- The first, or else the second. -/
  | alt (p q : Expr R)
  /-- The expression if it matches, or else nothing. -/
  | opt (p : Expr R)
  /-- The expression as often as it matches, with layout skipped in between. -/
  | many (p : Expr R)
  /-- Further repetitions, each after skipped layout: what `many` goes on with after the first. -/
  | more (p : Expr R)
  /-- Matches where the expression does, and takes nothing. -/
  | ahead (p : Expr R)
  /-- Matches where the expression does not, and takes nothing. -/
  | never (p : Expr R)
  /-- A rule of the grammar. -/
  | rule (r : R)
  deriving Repr

namespace Expr

/-- At least one repetition. -/
def many1 {R : Type} (p : Expr R) : Expr R := .seq p (.many p)

end Expr

/-- How a rule is written. -/
inductive Style where
  /-- A node; layout is skipped where the caller skips it. -/
  | plain
  /-- No node; layout is skipped where the caller skips it. -/
  | silent
  /-- A node with nothing below it; no layout is skipped inside. -/
  | token
  /-- A node; no layout is skipped inside. -/
  | compact
  /-- A node; layout is skipped inside. -/
  | spaced
  deriving DecidableEq, Repr

end Grammar

/-- A grammar with rules of type `R`. -/
structure Grammar (R : Type) where
  style : R → Grammar.Style
  body : R → Grammar.Expr R
  /-- The layout that is skipped. -/
  layout : Grammar.Expr R

end InlineMarkup
