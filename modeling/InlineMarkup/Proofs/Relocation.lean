import InlineMarkup.Proofs.FirstChar
/-!
# Proofs.Relocation — a text is read the same wherever it stands

Only the beginning of the input is asked for by its offset, and only the rule for the whole document asks for it.  So an
evaluation with any other rule is found again where the same text stands further on, with all offsets moved
(`Eval.shift`).
-/
namespace InlineMarkup.Grammar

variable {R : Type}

/-- The place with the same text behind it, `d` bytes further on. -/
def Cursor.shift (d : Nat) (c : Cursor) : Cursor := ⟨c.offset + d, c.rest⟩

mutual

def Parse.shift (d : Nat) : Parse R → Parse R
  | .node r start stop inner => .node r (start + d) (stop + d) (shiftAll d inner)

def Parse.shiftAll (d : Nat) : List (Parse R) → List (Parse R)
  | [] => []
  | p :: ps => p.shift d :: shiftAll d ps

end

theorem Parse.shiftAll_append (d : Nat) : ∀ xs ys : List (Parse R), shiftAll d (xs ++ ys) = shiftAll d xs ++ shiftAll d ys
  | [], ys => rfl
  | x :: xs, ys => by
    rw [List.cons_append, shiftAll, shiftAll_append d xs ys]
    rfl

def shiftMatch (d : Nat) (m : Cursor × List (Parse R)) : Cursor × List (Parse R) := (m.1.shift d, Parse.shiftAll d m.2)

/-- The expression does not ask whether it stands at the beginning; `α` tells so for the rules. -/
def Expr.anywhere (α : R → Bool) : Expr R → Bool
  | .word _ | .one _ | .last => true
  | .first => false
  | .seq p q | .alt p q => p.anywhere α && q.anywhere α
  | .opt p | .many p | .more p | .ahead p | .never p => p.anywhere α
  | .rule r => α r

/-- All rules but that for the whole document. -/
def Rule.anywhere (r : Rule) : Bool := r != .program

theorem Rule.anywhere_body (r : Rule) (hr : r.anywhere = true) : (document.body r).anywhere Rule.anywhere = true :=
  (by decide : ∀ r ∈ all, r.anywhere = true → (document.body r).anywhere Rule.anywhere = true) r r.mem_all hr

theorem anywhere_skip (l : Layout) : (document.skip l).anywhere Rule.anywhere = true := by
  cases l with
  | spaced => decide
  | compact => rfl
  | token => rfl

theorem Cursor.word?_shift (d : Nat) (c : Cursor) (w : Text) : (c.shift d).word? w = (c.word? w).map (Cursor.shift d) := by
  unfold Cursor.word? Cursor.shift
  cases Text.strip? w c.rest with
  | none => rfl
  | some rest => simp [Nat.add_right_comm]

theorem Cursor.one?_shift (d : Nat) (c : Cursor) (s : CharSet) : (c.shift d).one? s = (c.one? s).map (Cursor.shift d) := by
  obtain ⟨off, rest⟩ := c
  cases rest with
  | nil => rfl
  | cons x rest =>
    cases hx : s.holds x with
    | true => simp [Cursor.one?, Cursor.shift, hx, Nat.add_right_comm]
    | false => simp [Cursor.one?, Cursor.shift, hx]

theorem treesOf_shift (d : Nat) (s : Style) (l : Layout) (k : Look) (r : Rule) (c c' : Cursor) (xs : List (Parse Rule)) :
    treesOf s l k r (c.shift d) (c'.shift d) (Parse.shiftAll d xs) = Parse.shiftAll d (treesOf s l k r c c' xs) := by
  unfold treesOf
  split
  · rfl
  · rfl

/-- **A text is read the same further on.** -/
theorem Eval.shift {e : Expr Rule} {l : Layout} {k : Look} {c : Cursor} {o : Result Rule} (h : Eval document e l k c o)
    (d : Nat) : e.anywhere Rule.anywhere = true → Eval document e l k (c.shift d) (o.map (shiftMatch d)) := by
  induction h with
  | @word w l k c =>
    intro _
    have := Eval.word (G := document) (w := w) (l := l) (k := k) (c := c.shift d)
    rw [Cursor.word?_shift, Option.map_map] at this
    rw [Option.map_map]
    exact this
  | @one s l k c =>
    intro _
    have := Eval.one (G := document) (s := s) (l := l) (k := k) (c := c.shift d)
    rw [Cursor.one?_shift, Option.map_map] at this
    rw [Option.map_map]
    exact this
  -- the only case where the offset is read
  | first => intro he; cases he
  | @last l k c =>
    intro _
    have := Eval.last (G := document) (l := l) (k := k) (c := c.shift d)
    cases hc : c.rest.isEmpty with
    | true => rwa [show (c.shift d).rest.isEmpty = true from hc] at this
    | false => rwa [show (c.shift d).rest.isEmpty = false from hc] at this
  | seqFail _ ih => intro he; exact .seqFail (ih (Bool.and_eq_true_iff.1 he).1)
  | seqStuck _ _ ihp ihs => intro he; exact .seqStuck (ihp (Bool.and_eq_true_iff.1 he).1) (ihs (anywhere_skip _))
  | @seq p q l k c c₁ c₂ xs ys o _ _ _ ihp ihs ihq =>
    intro he
    obtain ⟨hp, hq⟩ := Bool.and_eq_true_iff.1 he
    have := Eval.seq (ihp hp) (ihs (anywhere_skip _)) (ihq hq)
    rw [Option.map_map] at this ⊢
    simpa only [Function.comp_def, shiftMatch, Parse.shiftAll_append] using this
  | altLeft _ ih => intro he; exact .altLeft (ih (Bool.and_eq_true_iff.1 he).1)
  | altRight _ _ ihp ihq =>
    intro he
    obtain ⟨hp, hq⟩ := Bool.and_eq_true_iff.1 he
    exact .altRight (ihp hp) (ihq hq)
  | @opt p l k c o _ ih =>
    intro he
    have := Eval.opt (ih he)
    cases o with
    | none => exact this
    | some m => exact this
  | manyNone _ ih => intro he; exact .manyNone (ih he)
  | manySome _ _ ihp ihm =>
    intro he
    have := Eval.manySome (ihp he) (ihm he)
    rwa [← Parse.shiftAll_append] at this
  | moreStuck _ ih => intro _; exact .moreStuck (ih (anywhere_skip _))
  | moreNone _ _ ihs ihp => intro he; exact .moreNone (ihs (anywhere_skip _)) (ihp he)
  | moreSome _ _ _ ihs ihp ihm =>
    intro he
    have := Eval.moreSome (ihs (anywhere_skip _)) (ihp he) (ihm he)
    rwa [← Parse.shiftAll_append, ← Parse.shiftAll_append] at this
  | @ahead p l k c o _ ih =>
    intro he
    have := Eval.ahead (ih he)
    cases o with
    | none => exact this
    | some m => exact this
  | neverSome _ ih => intro he; exact .neverSome (ih he)
  | neverNone _ ih => intro he; exact .neverNone (ih he)
  | silent hs _ ih => intro he; exact .silent hs (ih (Rule.anywhere_body _ he))
  | @node r l k c o hs _ ih =>
    intro he
    have := Eval.node hs (ih (Rule.anywhere_body _ he))
    rw [Option.map_map] at this ⊢
    simpa only [Function.comp_def, shiftMatch, treesOf_shift] using this

end InlineMarkup.Grammar
