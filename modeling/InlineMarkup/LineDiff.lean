import InlineMarkup.Text.Basic
/-!
# LineDiff — two texts compared line by line

A common subsequence of the lines is read off the usual table of lengths, from its last cell backwards.  The lines of both
texts are then merged along it, round by round.
-/
namespace InlineMarkup.LineDiff

/-- How a line occurs in two texts. -/
inductive Change where
  | same
  | removed
  | added
  deriving DecidableEq, Repr

/-- The cells of a row of the table after `done`, which is a row so far, backwards; `above` is the rest of the row above
and `corner` the cell before it. -/
def rowFrom (a : Text) : List Text → List Nat → Nat → List Nat → List Nat
  | [], _, _, done => done.reverse
  | b :: bs, above, corner, done =>
    let up := above.headD 0
    let cell := if a = b then corner + 1 else max (done.headD 0) up
    rowFrom a bs above.tail up (cell :: done)

/-- The rows of the table of lengths of common subsequences, one for each line of the first text. -/
def rows (bs : List Text) : List Text → List Nat → List (List Nat)
  | [], _ => []
  | a :: as, above =>
    let row := rowFrom a bs above 0 []
    row :: rows bs as row

/-- The table, row after row. -/
def table (as bs : List Text) : Array Nat := (rows bs as (bs.map fun _ => 0)).flatten.toArray

/-- Walks back through the table from the cell of the last of `i` and `j` lines, and gives the common lines, in order.
The cell to the left of a row's first one is the last one of the row above. -/
def walk (as bs : Array Text) (cells : Array Nat) : Nat → Nat → Nat → List Text → List Text
  | 0, _, _, common => common
  | _ + 1, 0, _, common => common
  | _ + 1, _ + 1, 0, common => common
  | n + 1, i + 1, j + 1, common =>
    let a := as.getD i []
    if a = bs.getD j [] then walk as bs cells n i j (a :: common)
    else if i = 0 && j = 0 then common
    else if i = 0 || cells.getD ((i - 1) * bs.size + j) 0 < cells.getD (i * bs.size + j - 1) 0 then
      walk as bs cells n (i + 1) j common
    else walk as bs cells n i (j + 1) common

/-- The common lines of two texts, put together. -/
def commonText (before after : Text) : Text :=
  let as := Text.lines before
  let bs := Text.lines after
  Text.join ['\n'] (walk as.toArray bs.toArray (table as bs) (as.length + bs.length) as.length bs.length [])

/-- The lines of a text; the empty text has none, so a single empty line among common ones does not count. -/
def linesOf (t : Text) : List Text := if t.isEmpty then [] else Text.lines t

/-- What is still to be merged: lines of both texts, and the common ones among them. -/
structure Pending where
  before : List Text
  after : List Text
  common : List Text
  deriving DecidableEq, Repr

/-- Lines that occur in the same way. -/
abbrev Block := Change × List Text

namespace Pending

/-- The lines of two texts. -/
def ofTexts (before after : Text) : Pending :=
  ⟨linesOf before, linesOf after, linesOf (commonText before after)⟩

/-- No lines are left; common lines do not count. -/
def isDone (p : Pending) : Bool := p.before.isEmpty && p.after.isEmpty

/-- How many lines there are to merge. -/
def size (p : Pending) : Nat := p.before.length + p.after.length

/-- The lines that three lists begin with. -/
def agreeing : List Text → List Text → List Text → List Text
  | a :: as, b :: bs, c :: cs => if a = c && b = c then c :: agreeing as bs cs else []
  | _, _, _ => []

/-- The lines that both texts and the common lines begin with. -/
def same (p : Pending) : List Text := agreeing p.before p.after p.common

/-- What is left behind these lines. -/
def rest (p : Pending) : Pending :=
  ⟨p.before.drop p.same.length, p.after.drop p.same.length, p.common.drop p.same.length⟩

/-- The line is not the next common one. -/
def differs (p : Pending) (l : Text) : Bool := p.common.head? != some l

/-- One round: the lines that all three begin with, then the lines of either text up to the next common one, removed
before added.  What is left over goes into the next round. -/
def round (p : Pending) : List Block × Pending :=
  let q := p.rest
  ([(.same, p.same), (.removed, q.before.takeWhile q.differs), (.added, q.after.takeWhile q.differs)].filter
      (!·.2.isEmpty),
    ⟨q.before.dropWhile q.differs, q.after.dropWhile q.differs, q.common⟩)

/-- Merges round by round until no lines are left; nothing if some are after so many rounds. -/
def merge : Nat → Pending → Option (List Block)
  | 0, p => if p.isDone then some [] else none
  | n + 1, p => if p.isDone then some [] else (merge n p.round.2).map (p.round.1 ++ ·)

end Pending

/-- How one text turns into another, block by block; as many rounds as there are lines. -/
def diff? (before after : Text) : Option (List (Change × Text)) :=
  let p := Pending.ofTexts before after
  (p.merge p.size).map fun blocks => blocks.map fun b => (b.1, Text.join ['\n'] b.2)

end InlineMarkup.LineDiff
