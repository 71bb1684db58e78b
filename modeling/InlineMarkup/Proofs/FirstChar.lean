import InlineMarkup.Proofs.Starts
/-!
# Proofs.FirstChar — what cannot begin with a character

An evaluation always ends (`Eval.total`), so an expression that cannot match fails.  Whether it can match where the next
character is one of a class is read off the grammar (`Expr.admits`): the expression fails where it admits no character of
the class (`Eval.none_of_admits`), and at the end of the input if it may not be empty (`Eval.none_at_end`).  A `Barrier`
is a class together with rules that are known not to admit it.
-/
namespace InlineMarkup.Grammar

/-- **Every evaluation ends.** -/
theorem Eval.total {e : Expr Rule} (he : e.fits Rule.mayBeEmpty Rule.rank layoutReach depthPerCharacter = true)
    (l : Layout) (k : Look) (c : Cursor) : ∃ o, Eval document e l k c o := by
  have hroom : Room Rule.mayBeEmpty Rule.rank layoutReach depthPerCharacter _ ⟨e, l, k, c⟩ :=
    .intro layoutReach (fun _ => Nat.le_refl _) document_bounded.layoutLe he (Nat.le_refl _)
  obtain ⟨o, ho⟩ := run_ends document_bounded {} hroom
  exact ⟨o, eval_of_run document _ e l k c {} o ho⟩

theorem Eval.none_at_end {e : Expr Rule} (he : e.fits Rule.mayBeEmpty Rule.rank layoutReach depthPerCharacter = true)
    (hempty : e.mayBeEmpty Rule.mayBeEmpty = false) (l : Layout) (k : Look) (off : Nat) :
    Eval document e l k ⟨off, []⟩ none := by
  obtain ⟨o, ho⟩ := Eval.total he l k ⟨off, []⟩
  cases o with
  | none => exact ho
  | some m =>
    obtain ⟨u, hu, hnil⟩ := ho.past document_bounded.empty m rfl
    have hu0 : u = [] := (List.append_eq_nil_iff.1 hu.rest.symm).1
    rw [hnil hu0] at hempty
    cases hempty

/-! ## Classes of characters -/

/-- A class of characters, as far as a grammar can tell: those that begin words, and the named sets they may be in. -/
structure CharClass where
  char : Char → Bool
  set : CharSet → Bool

namespace CharClass

/-- The character belongs to the class. -/
def Has (κ : CharClass) (x : Char) : Prop := κ.char x = true ∧ ∀ s : CharSet, s.holds x = true → κ.set s = true

/-- One character alone. -/
def only (x : Char) : CharClass := ⟨(· == x), (·.holds x)⟩

theorem only_has (x : Char) : (only x).Has x := ⟨by simp [only], fun _ h => h⟩

end CharClass

section Admits

variable {R : Type} (ν : R → Bool) (κ : CharClass) (α : R → Bool)

/-- The expression may match a text that begins with a character of the class. -/
def Expr.takes : Expr R → Bool
  | .word [] | .first | .last | .ahead _ | .never _ => false
  | .word (y :: _) => κ.char y
  | .one s => κ.set s
  | .seq p q => p.takes || (p.mayBeEmpty ν && q.takes)
  | .alt p q => p.takes || q.takes
  | .opt p | .many p | .more p => p.takes
  | .rule r => α r

/-- The expression may match where a character of the class stands; `α` tells so for the rules. -/
def Expr.admits : Expr R → Bool
  | .word [] | .first | .opt _ | .many _ | .more _ | .never _ => true
  | .last => false
  | .word (y :: _) => κ.char y
  | .one s => κ.set s
  | .seq p q => p.admits && (p.takes ν κ α || q.admits)
  | .alt p q => p.admits || q.admits
  | .ahead p => p.admits
  | .rule r => α r

/-- `α` holds for every rule that may match where a character of the class stands. -/
def AdmitsSound (G : Grammar R) : Prop := ∀ r, (G.body r).admits ν κ α = true → α r = true

end Admits

/-- **A match begins with a character that the expression admits.** -/
theorem Eval.admits {κ : CharClass} {α : Rule → Bool} (hα : AdmitsSound Rule.mayBeEmpty κ α document) {x : Char}
    (hx : κ.Has x) {e : Expr Rule} {l : Layout} {k : Look} {c : Cursor} {o : Result Rule}
    (h : Eval document e l k c o) : ∀ m rest, o = some m → Settled c → c.rest = x :: rest →
    e.admits Rule.mayBeEmpty κ α = true ∧ (m.1 ≠ c → e.takes Rule.mayBeEmpty κ α = true) := by
  rintro ⟨c', xs⟩ rest rfl hc hrest
  induction h using Eval.match_induction with
  | @word w l k c c' _ hw =>
    have hpast := Cursor.Past.word hw
    cases w with
    | nil => exact ⟨rfl, fun hne => absurd hpast.eq_of_nil hne⟩
    | cons y w =>
      have hy : y = x := (List.cons.inj (hpast.rest.symm.trans hrest)).1
      exact ⟨hy ▸ hx.1, fun _ => hy ▸ hx.1⟩
  | one hs =>
    obtain ⟨y, hy, hpast⟩ := Cursor.Past.one hs
    obtain rfl : y = x := (List.cons.inj (hpast.rest.symm.trans hrest)).1
    exact ⟨hx.2 _ hy, fun _ => hx.2 _ hy⟩
  | last hnil =>
    rw [hrest] at hnil
    cases hnil
  | @seq p q l k c c₁ c₂ _ _ _ _ _ hp hs _ ihp _ ihq =>
    obtain ⟨hpa, hpt⟩ := ihp hc hrest
    rw [Expr.admits, Expr.takes, hpa, Bool.true_and]
    by_cases hmoved : c₁ = c
    · -- the first part took nothing, and there is no layout behind it
      subst hmoved
      have hempty : p.mayBeEmpty Rule.mayBeEmpty = true := Bool.of_not_eq_false fun he => hp.moved he rfl
      have hready : Ready l c₁ := fun _ => hc
      cases hready.skip_eq hs
      obtain ⟨hqa, hqt⟩ := ihq hc hrest
      rw [hqa, hempty, Bool.or_true, Bool.true_and]
      exact ⟨rfl, fun hne => by rw [hqt hne, Bool.or_true]⟩
    · rw [hpt hmoved]
      exact ⟨rfl, fun _ => rfl⟩
  | altLeft _ ihp =>
    obtain ⟨ha, ht⟩ := ihp hc hrest
    rw [Expr.admits, Expr.takes, ha]
    exact ⟨rfl, fun hne => by rw [ht hne]; rfl⟩
  | altRight _ ihq =>
    obtain ⟨ha, ht⟩ := ihq hc hrest
    rw [Expr.admits, Expr.takes, ha, Bool.or_true]
    exact ⟨rfl, fun hne => by rw [ht hne, Bool.or_true]⟩
  | optSome _ ihp => exact ⟨rfl, (ihp hc hrest).2⟩
  | @manySome p l k c c₁ _ _ _ _ _ _ ihp ihm =>
    refine ⟨rfl, fun hne => ?_⟩
    by_cases hmoved : c₁ = c
    · subst hmoved
      exact (ihm hc hrest).2 hne
    · exact (ihp hc hrest).2 hmoved
  | @moreSome p l k c c₁ c₂ _ _ _ _ _ hs _ _ _ ihp ihm =>
    have hready : Ready l c := fun _ => hc
    cases hready.skip_eq hs
    refine ⟨rfl, fun hne => ?_⟩
    by_cases hmoved : c₂ = c
    · subst hmoved
      exact (ihm hc hrest).2 hne
    · exact (ihp hc hrest).2 hmoved
  | ahead _ ihp => exact ⟨(ihp hc hrest).1, fun hne => absurd rfl hne⟩
  | silent _ _ ih | node _ _ ih =>
    have := hα _ (ih hc hrest).1
    exact ⟨this, fun _ => this⟩
  | _ => exact ⟨rfl, fun hne => absurd rfl hne⟩

/-- **An expression fails where it admits no character of the class.** -/
theorem Eval.none_of_admits {κ : CharClass} {α : Rule → Bool} (hα : AdmitsSound Rule.mayBeEmpty κ α document)
    {e : Expr Rule} (he : e.fits Rule.mayBeEmpty Rule.rank layoutReach depthPerCharacter = true)
    (ha : e.admits Rule.mayBeEmpty κ α = false) {l : Layout} {k : Look} {off : Nat} {x : Char} {rest : Text}
    (hx : κ.Has x) (hc : Settled ⟨off, x :: rest⟩) : Eval document e l k ⟨off, x :: rest⟩ none := by
  obtain ⟨o, ho⟩ := Eval.total he l k ⟨off, x :: rest⟩
  cases o with
  | none => exact ho
  | some m =>
    rw [(ho.admits hα hx m rest rfl hc rfl).1] at ha
    cases ha

/-! ## Barriers -/

/-- A class of characters that none of these rules can begin with. -/
structure Barrier where
  chars : CharClass
  rules : List Rule
  /-- No body of the rules admits the class, as long as the rules themselves do not. -/
  closed : (rules.all fun r => !(document.body r).admits Rule.mayBeEmpty chars fun r => decide (r ∉ rules)) = true

/-- The expression cannot begin with a character of the class. -/
def Barrier.refuses (b : Barrier) (e : Expr Rule) : Bool :=
  e.fits Rule.mayBeEmpty Rule.rank layoutReach depthPerCharacter &&
    !e.admits Rule.mayBeEmpty b.chars fun r => decide (r ∉ b.rules)

/-- **What a barrier refuses fails before it.** -/
theorem Barrier.fails (b : Barrier) {e : Expr Rule} (he : b.refuses e = true) {x : Char} (hx : b.chars.Has x) {off : Nat}
    {rest : Text} (hc : Settled ⟨off, x :: rest⟩) (l : Layout) (k : Look) :
    Eval document e l k ⟨off, x :: rest⟩ none := by
  obtain ⟨hfits, hadmits⟩ := Bool.and_eq_true_iff.1 he
  rw [Bool.not_eq_true'] at hadmits
  refine Eval.none_of_admits (fun r hr => ?_) hfits hadmits hx hc
  rw [decide_eq_true_eq]
  intro hmem
  have := List.all_eq_true.1 b.closed r hmem
  rw [hr] at this
  cases this

end InlineMarkup.Grammar
