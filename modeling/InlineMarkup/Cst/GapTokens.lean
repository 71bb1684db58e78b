import InlineMarkup.Cst.Arena
import InlineMarkup.Text.Letter
/-!
# Cst.GapTokens — the words between named nodes

The text between the named children of a node is split into tokens: runs of word characters, runs of other symbols, and
brackets, separators and quotes one by one.  Blank characters belong to no token.
-/
namespace InlineMarkup

/-- What a character counts as in the text between nodes. -/
inductive GapClass where
  | blank
  | word
  /-- A bracket, separator or quote: always a token of its own. -/
  | single
  | symbol
  deriving DecidableEq, Repr

def GapClass.of (c : Char) : GapClass :=
  if Text.isBlank c then .blank
  else if Text.isAlphanumeric c || c == '_' then .word
  else if c ∈ ['{', '}', '(', ')', '[', ']', ',', ';', '"', '\''] then .single
  else .symbol

/-- The token that a character begins at a place. -/
def GapClass.opens (k : GapClass) (place : Nat) : Option (Nat × GapClass) :=
  if k = .blank then none else some (place, k)

/-- Splits from a place on; `current` is where the token that is not yet finished began, and its class. -/
def splitFrom : Text → Nat → Option (Nat × GapClass) → List Span
  | [], _, none => []
  | [], place, some (start, _) => [⟨start, place⟩]
  | c :: cs, place, none => splitFrom cs (place + c.utf8Size) ((GapClass.of c).opens place)
  | c :: cs, place, some (start, k) =>
    if GapClass.of c = k ∧ k ≠ .single then splitFrom cs (place + c.utf8Size) (some (start, k))
    else ⟨start, place⟩ :: splitFrom cs (place + c.utf8Size) ((GapClass.of c).opens place)

/-- The tokens of a gap that begins at a byte offset. -/
def splitTokens (gap : Text) (offset : Nat) : List Span := splitFrom gap offset none

/-- The tokens of the source between two offsets; none if that is no range of it. -/
def gapTokens (source : Text) (start stop : Nat) : List Span :=
  if start < stop then
    match Text.slice? source start stop with
    | some gap => splitTokens gap start
    | none => []
  else []

namespace Arena

/-- Adds a token for each span, and gives their numbers. -/
def pushTokens (a : Arena) : List Span → Arena × List Nat
  | [] => (a, [])
  | s :: ss =>
    let r := (a.push .token s none).pushTokens ss
    (r.1, a.size :: r.2)

/-- Goes through the children of a node from `cursor` on, and adds the tokens before each and after the last. -/
def withGapTokens (a : Arena) (source : Text) (cursor stop : Nat) : List Nat → Arena × List Nat
  | [] => a.pushTokens (gapTokens source cursor stop)
  | c :: cs =>
    let s := ((a.get? c).map Node.span).getD ⟨0, 0⟩
    let r := a.pushTokens (gapTokens source cursor s.start)
    let r' := r.1.withGapTokens source (max cursor s.stop) stop cs
    (r'.1, r.2 ++ c :: r'.2)

/-- Puts the tokens of a node's gaps among its children; a leaf has none. -/
def addTokensAt (source : Text) (a : Arena) (id : Nat) : Arena :=
  match a.get? id with
  | none => a
  | some n =>
    if n.kind.isLeaf then a
    else
      let r := a.withGapTokens source n.span.start n.span.stop n.children
      r.1.replaceChildren id r.2

/-- Puts tokens among the children of every node that is there before. -/
def addTokens (a : Arena) (source : Text) : Arena := (List.range a.size).foldl (addTokensAt source) a

end Arena
end InlineMarkup
