import InlineMarkup.Grammar.Expr
/-!
# Grammar.Parse — running a grammar

`run` evaluates a parsing expression on the rest of an input and gives the parse trees of the rules that matched.  It
also keeps the `Attempts`: the furthest place where a rule was tried in vain, and the rules tried there, from which a
refused input is explained.  The trees of a failed branch are dropped, its attempts stay.

The first argument of `run` bounds the depth of the evaluation, and an evaluation that would go deeper is `exhausted`.
-/
namespace InlineMarkup.Grammar

/-- A place in the input: a byte offset and what follows it. -/
structure Cursor where
  offset : Nat
  rest : Text
  deriving DecidableEq, Repr

namespace Cursor

/-- Past one character of the set. -/
def one? (c : Cursor) (s : CharSet) : Option Cursor :=
  match c.rest with
  | [] => none
  | x :: xs => if s.holds x then some ⟨c.offset + x.utf8Size, xs⟩ else none

/-- Past these characters. -/
def word? (c : Cursor) (w : Text) : Option Cursor :=
  (Text.strip? w c.rest).map fun rest => ⟨c.offset + Text.bytes w, rest⟩

end Cursor

/-- What a rule matched: its range and the rules that matched inside it. -/
inductive Parse (R : Type) where
  | node (rule : R) (start stop : Nat) (inner : List (Parse R))
  deriving Repr

/-- Whether layout is skipped here, and whether rules leave nodes and are remembered as tried. -/
inductive Layout where
  /-- Layout is skipped. -/
  | spaced
  /-- No layout is skipped. -/
  | compact
  /-- No layout is skipped, and rules go unnoticed. -/
  | token
  deriving DecidableEq, Repr

/-- Whether the evaluation only looks ahead, and for a match or for none. -/
inductive Look where
  | here
  | ahead
  | never
  deriving DecidableEq, Repr

namespace Look

/-- Inside a look ahead for a match. -/
def enterAhead : Look → Look
  | .never => .never
  | _ => .ahead

/-- Inside a look ahead for no match. -/
def enterNever : Look → Look
  | .never => .ahead
  | _ => .never

end Look

namespace Style

/-- The layout inside a rule of this style, called where the layout is `l`. -/
def inside (s : Style) (l : Layout) : Layout :=
  match s with
  | .plain | .silent => l
  | .token => .token
  | .compact => .compact
  | .spaced => .spaced

/-- The layout under which the rule itself is noted. -/
def around (s : Style) (l : Layout) : Layout :=
  match s with
  | .plain | .silent | .token => l
  | .compact => .compact
  | .spaced => .spaced

end Style

/-- The furthest place where rules were tried in vain, the rules wanted there, and the rules that should not have
matched there. -/
structure Attempts (R : Type) where
  furthest : Nat := 0
  wanted : List R := []
  unwanted : List R := []
  deriving Repr

namespace Attempts

variable {R : Type}

/-- How many rules are noted at a place. -/
def countAt (a : Attempts R) (at_ : Nat) : Nat :=
  if a.furthest = at_ then a.wanted.length + a.unwanted.length else 0

/-- The notes at a place, or none if they belong to another. -/
def atPlace (a : Attempts R) (at_ : Nat) : List R × List R :=
  if a.furthest = at_ then (a.wanted, a.unwanted) else ([], [])

/-- Notes a rule tried in vain at a place.  `old` are the attempts when the rule was entered, `a` those when it was left:
a rule that left exactly one note of its own there stands back behind it; otherwise it stands for all of them. -/
def note (old a : Attempts R) (r : R) (place : Nat) (unwanted : Bool) : Attempts R :=
  if a.countAt place = old.countAt place + 1 then a
  else if a.furthest ≤ place then
    let kept := if a.furthest = place then
        let n := old.atPlace place
        (a.wanted.take n.1.length, a.unwanted.take n.2.length)
      else ([], [])
    if unwanted then ⟨place, kept.1, kept.2 ++ [r]⟩ else ⟨place, kept.1 ++ [r], kept.2⟩
  else a

end Attempts

/-- How an evaluation ends. -/
inductive Outcome (R : Type) where
  | exhausted
  | failed (attempts : Attempts R)
  | matched (rest : Cursor) (trees : List (Parse R)) (attempts : Attempts R)
  deriving Repr

namespace Outcome

variable {R : Type}

/-- Goes on after a match, with the trees of both. -/
@[inline] def next (o : Outcome R) (f : Cursor → Attempts R → Outcome R) : Outcome R :=
  match o with
  | .matched c xs a =>
    match f c a with
    | .matched c' ys a' => .matched c' (xs ++ ys) a'
    | o' => o'
  | o' => o'

/-- Goes on after a failure. -/
@[inline] def orElse (o : Outcome R) (f : Attempts R → Outcome R) : Outcome R :=
  match o with
  | .failed a => f a
  | o' => o'

/-- The outcome of a place that either is reached or not. -/
@[inline] def ofCursor? (c? : Option Cursor) (a : Attempts R) : Outcome R :=
  match c? with
  | some c => .matched c [] a
  | none => .failed a

/-- The outcome of a rule, from the outcome of its body. -/
@[inline] def ofBody (o : Outcome R) (r : R) (noted : Bool) (k : Look) (c : Cursor) (old : Attempts R) : Outcome R :=
  match o with
  | .exhausted => .exhausted
  | .failed a => .failed (if noted && k != .never then old.note a r c.offset false else a)
  | .matched c' xs a =>
    .matched c' (if noted && k == .here then [.node r c.offset c'.offset xs] else xs)
      (if noted && k == .never then old.note a r c.offset true else a)

end Outcome

variable {R : Type}

/-- Evaluates a parsing expression. -/
def run (G : Grammar R) : Nat → Expr R → Layout → Look → Cursor → Attempts R → Outcome R
  | 0, _, _, _, _, _ => .exhausted
  | _ + 1, .word w, _, _, c, a => .ofCursor? (c.word? w) a
  | _ + 1, .one s, _, _, c, a => .ofCursor? (c.one? s) a
  | _ + 1, .first, _, _, c, a => if c.offset = 0 then .matched c [] a else .failed a
  | _ + 1, .last, _, _, c, a => if c.rest.isEmpty then .matched c [] a else .failed a
  | n + 1, .seq p q, l, k, c, a =>
    (run G n p l k c a).next fun c₁ a₁ =>
      match l with
      | .spaced => (run G n G.layout .compact k c₁ a₁).next fun c₂ a₂ => run G n q l k c₂ a₂
      | _ => run G n q l k c₁ a₁
  | n + 1, .alt p q, l, k, c, a => (run G n p l k c a).orElse fun a₁ => run G n q l k c a₁
  | n + 1, .opt p, l, k, c, a => (run G n p l k c a).orElse fun a₁ => .matched c [] a₁
  | n + 1, .many p, l, k, c, a =>
    ((run G n p l k c a).next fun c₁ a₁ => run G n (.more p) l k c₁ a₁).orElse fun a₁ => .matched c [] a₁
  | n + 1, .more p, l, k, c, a =>
    (match l with
      | .spaced => (run G n G.layout .compact k c a).next fun c₁ a₁ =>
          (run G n p l k c₁ a₁).next fun c₂ a₂ => run G n (.more p) l k c₂ a₂
      | _ => (run G n p l k c a).next fun c₁ a₁ => run G n (.more p) l k c₁ a₁).orElse
      fun a₁ => .matched c [] a₁
  | n + 1, .ahead p, l, k, c, a =>
    match run G n p l k.enterAhead c a with
    | .matched _ _ a₁ => .matched c [] a₁
    | o => o
  | n + 1, .never p, l, k, c, a =>
    match run G n p l k.enterNever c a with
    | .matched _ _ a₁ => .failed a₁
    | .failed a₁ => .matched c [] a₁
    | .exhausted => .exhausted
  | n + 1, .rule r, l, k, c, a =>
    match G.style r with
    | .silent => run G n (G.body r) l k c a
    | s => (run G n (G.body r) (s.inside l) k c a).ofBody r (s.around l != .token) k c a

end InlineMarkup.Grammar
