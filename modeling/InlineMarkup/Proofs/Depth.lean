import InlineMarkup.Grammar.Document
import InlineMarkup.Proofs.Calls
import InlineMarkup.Proofs.Cuts
/-!
# Proofs.Depth — evaluations end

A grammar in which no rule comes back to itself before a character is taken, and in which every repetition takes a
character each time, is evaluated to a depth that is linear in the length of the input (`run_ends`).  Both conditions are
checked on the grammar (`Bounded`), with a rank for each rule that bounds the depth up to the next character, and each
call lowers that bound (`Calls.room`).  The document grammar passes the check (`document_bounded`), so every document is
parsed or refused (`parseDocument_ends`, `document_wellFormed`).
-/
namespace InlineMarkup.Grammar

variable {R : Type}

/-- How deep an evaluation goes, itself included, before it takes a character: `ρ` bounds the rules' bodies and `s` the
skipped layout. -/
def Expr.reach (ν : R → Bool) (ρ : R → Nat) (s : Nat) : Expr R → Nat
  | .word _ | .one _ | .first | .last => 1
  | .seq p q => max (p.reach ν ρ s) (if p.mayBeEmpty ν then max s (q.reach ν ρ s) else 0) + 1
  | .alt p q => max (p.reach ν ρ s) (q.reach ν ρ s) + 1
  | .opt p | .many p | .ahead p | .never p => p.reach ν ρ s + 1
  | .more p => max s (p.reach ν ρ s) + 1
  | .rule r => ρ r + 1

/-- Whatever is evaluated after a character was taken reaches at most `d` deep, and what is repeated takes one. -/
def Expr.fits (ν : R → Bool) (ρ : R → Nat) (s d : Nat) : Expr R → Bool
  | .word _ | .one _ | .first | .last | .rule _ => true
  | .seq p q => p.fits ν ρ s d && q.fits ν ρ s d && decide (q.reach ν ρ s ≤ d)
  | .alt p q => p.fits ν ρ s d && q.fits ν ρ s d
  | .opt p | .ahead p | .never p => p.fits ν ρ s d
  | .many p | .more p => p.fits ν ρ s d && !p.mayBeEmpty ν && decide (max s (p.reach ν ρ s) + 1 ≤ d)

/-- The depth of skipped layout inside a rule. -/
def skipReach (G : Grammar R) (s : Nat) (r : R) : Nat :=
  match (G.style r).inside .spaced with
  | .spaced => s
  | _ => 0

/-- The rules reach as deep as `ρ` says, the layout as deep as `s`, and nothing deeper than `d`. -/
structure Bounded (G : Grammar R) (ν : R → Bool) (ρ : R → Nat) (s d : Nat) : Prop where
  empty : EmptySound G ν
  reach : ∀ r, (G.body r).reach ν ρ (G.skipReach s r) ≤ ρ r
  fits : ∀ r, (G.body r).fits ν ρ (G.skipReach s r) d = true
  layoutReach : G.layout.reach ν ρ 0 ≤ s
  layoutFits : G.layout.fits ν ρ 0 d = true
  layoutLe : s ≤ d

theorem Expr.reach_pos (ν : R → Bool) (ρ : R → Nat) (s : Nat) (e : Expr R) : 0 < e.reach ν ρ s := by
  cases e <;> simp [Expr.reach]

/-! ## Room for what is called -/

/-- The run is not cut off. -/
def Outcome.Ends (o : Outcome R) : Prop := ∃ r, o.result? = some r

theorem Outcome.ends_of_ne {o : Outcome R} (h : o ≠ .exhausted) : o.Ends := by
  cases o with
  | exhausted => exact absurd rfl h
  | failed a => exact ⟨none, rfl⟩
  | matched c xs a => exact ⟨some (c, xs), rfl⟩

/-- A match takes a piece of what is left, and only an expression that may be empty takes none. -/
theorem Eval.length_le {G : Grammar R} {ν : R → Bool} (hν : EmptySound G ν) {e : Expr R} {l : Layout} {k : Look}
    {c c' : Cursor} {xs : List (Parse R)} (h : Eval G e l k c (some (c', xs))) :
    c'.rest.length ≤ c.rest.length ∧ (e.mayBeEmpty ν = false → c'.rest.length < c.rest.length) := by
  obtain ⟨u, hu, hu'⟩ := h.past hν _ rfl
  have hlen : c.rest.length = u.length + c'.rest.length := by rw [hu.rest, List.length_append]
  refine ⟨by omega, fun hne => ?_⟩
  have hu0 : u ≠ [] := fun h0 => by rw [hu' h0] at hne; cases hne
  have := List.length_pos_iff.2 hu0
  omega

/-- With a character less to go, there is room for everything. -/
theorem room_of_lt {d m m' x n : Nat} (hm : m' < m) (hx : x ≤ d) (hn : d * m ≤ n) : d * m' + x ≤ n := by
  have : d * (m' + 1) ≤ d * m := Nat.mul_le_mul_left d hm
  rw [Nat.mul_add, Nat.mul_one] at this
  omega

/-- With the same or fewer characters to go, there is room for what there was room for. -/
theorem room_of_le {d m m' x n : Nat} (hm : m' ≤ m) (hn : d * m + x ≤ n) : d * m' + x ≤ n := by
  have : d * m' ≤ d * m := Nat.mul_le_mul_left d hm
  omega

/-- There is room for a goal in `n` levels: `d` levels for each character left, and the reach of the expression. -/
def Room (ν : R → Bool) (ρ : R → Nat) (s d n : Nat) (g : Goal R) : Prop :=
  ∃ s', (g.layout = .spaced → s ≤ s') ∧ s' ≤ d ∧ g.expr.fits ν ρ s' d = true ∧
    d * g.place.rest.length + g.expr.reach ν ρ s' ≤ n

section
variable {G : Grammar R} {ν : R → Bool} {ρ : R → Nat} {s d n m : Nat} {g g' : Goal R}

theorem Room.intro {e : Expr R} {l : Layout} {k : Look} {c : Cursor} (s' : Nat) (hl : l = .spaced → s ≤ s') (hs : s' ≤ d)
    (hf : e.fits ν ρ s' d = true) (hn : d * c.rest.length + e.reach ν ρ s' ≤ n) : Room ν ρ s d n ⟨e, l, k, c⟩ :=
  ⟨s', hl, hs, hf, hn⟩

theorem Room.pos (h : Room ν ρ s d n g) : 0 < n := by
  obtain ⟨s', -, -, -, hn⟩ := h
  have := g.expr.reach_pos ν ρ s'
  omega

theorem Room.mono (h : Room ν ρ s d n g) (hn : n ≤ m) : Room ν ρ s d m g := by
  obtain ⟨s', hl, hs, hf, hroom⟩ := h
  exact ⟨s', hl, hs, hf, Nat.le_trans hroom hn⟩

theorem room_rule (hsd : s ≤ d) (r : R) (l : Layout) (k : Look) (c : Cursor) :
    Room ν ρ s d (d * c.rest.length + (ρ r + 1)) ⟨.rule r, l, k, c⟩ :=
  .intro s (fun _ => Nat.le_refl s) hsd rfl (Nat.le_refl _)

/-- **A call has room in one level less.** -/
theorem Calls.room (hG : Bounded G ν ρ s d) (h : Calls G g g') (hroom : Room ν ρ s d (n + 1) g) : Room ν ρ s d n g' := by
  obtain ⟨s', hl, hs, hf, hn⟩ := hroom
  cases h with
  | seqFirst =>
    simp only [Expr.fits, Bool.and_eq_true, Expr.reach] at hf hn
    exact .intro s' hl hs hf.1.1 (by omega)
  | @seqSkip p q k c c₁ xs hp =>
    simp only [Expr.reach] at hn
    obtain ⟨hle, hlt⟩ := hp.length_le hG.empty
    have hs' := hl rfl
    have hreach := hG.layoutReach
    refine .intro 0 (fun h => by cases h) (Nat.zero_le d) hG.layoutFits ?_
    cases hempty : p.mayBeEmpty ν with
    | true =>
      rw [hempty, if_pos rfl] at hn
      exact room_of_le hle (by omega)
    | false => exact room_of_lt (hlt hempty) (by omega) (by omega)
  | @seqSecond p q l k c c₁ c₂ xs ys hp hskip =>
    simp only [Expr.fits, Bool.and_eq_true, decide_eq_true_eq, Expr.reach] at hf hn
    obtain ⟨hle, hlt⟩ := hp.length_le hG.empty
    have hle' := (hskip.length_le hG.empty).1
    refine .intro s' hl hs hf.1.2 ?_
    cases hempty : p.mayBeEmpty ν with
    | true =>
      rw [hempty, if_pos rfl] at hn
      exact room_of_le (Nat.le_trans hle' hle) (by omega)
    | false => exact room_of_lt (Nat.lt_of_le_of_lt hle' (hlt hempty)) hf.2 (by omega)
  | altFirst =>
    simp only [Expr.fits, Bool.and_eq_true, Expr.reach] at hf hn
    exact .intro s' hl hs hf.1 (by omega)
  | altSecond =>
    simp only [Expr.fits, Bool.and_eq_true, Expr.reach] at hf hn
    exact .intro s' hl hs hf.2 (by omega)
  | opt => exact .intro s' hl hs hf (Nat.le_of_succ_le_succ hn)
  | manyFirst =>
    simp only [Expr.fits, Bool.and_eq_true] at hf
    exact .intro s' hl hs hf.1.1 (Nat.le_of_succ_le_succ hn)
  | manyMore hp =>
    have hmore : (Expr.more _).fits ν ρ s' d = true := hf
    simp only [Expr.fits, Bool.and_eq_true, decide_eq_true_eq, Bool.not_eq_true', Expr.reach] at hf hn
    exact .intro s' hl hs hmore (room_of_lt ((hp.length_le hG.empty).2 hf.1.2) hf.2 (by omega))
  | moreSkip =>
    simp only [Expr.reach] at hn
    have hs' := hl rfl
    have hreach := hG.layoutReach
    exact .intro 0 (fun h => by cases h) (Nat.zero_le d) hG.layoutFits (room_of_le (Nat.le_refl _) (by omega))
  | moreNext hskip =>
    simp only [Expr.fits, Bool.and_eq_true, Expr.reach] at hf hn
    exact .intro s' hl hs hf.1.1 (room_of_le (hskip.length_le hG.empty).1 (by omega))
  | moreMore hskip hp =>
    have hmore : (Expr.more _).fits ν ρ s' d = true := hf
    simp only [Expr.fits, Bool.and_eq_true, decide_eq_true_eq, Bool.not_eq_true', Expr.reach] at hf hn
    have hlt := Nat.lt_of_lt_of_le ((hp.length_le hG.empty).2 hf.1.2) (hskip.length_le hG.empty).1
    exact .intro s' hl hs hmore (room_of_lt hlt hf.2 (by omega))
  | ahead => exact .intro s' hl hs hf (Nat.le_of_succ_le_succ hn)
  | never => exact .intro s' hl hs hf (Nat.le_of_succ_le_succ hn)
  | @rule r l k c =>
    simp only [Expr.reach] at hn
    have hreach := hG.reach r
    refine .intro (G.skipReach s r) (fun hin => ?_) ?_ (hG.fits r) (by omega)
    · -- layout is skipped in the body only where the style of the rule lets it be
      cases hstyle : G.style r <;> simp_all [skipReach, Style.inside]
    · have := hG.layoutLe
      unfold skipReach
      split <;> omega

/-- **Nested evaluations have room in as many levels less.** -/
theorem Nests.room (hG : Bounded G ν ρ s d) (h : Nests G n g g') (hroom : Room ν ρ s d m g) :
    ∃ m', m = m' + n ∧ Room ν ρ s d m' g' := by
  induction h generalizing m with
  | here => exact ⟨m, rfl, hroom⟩
  | inside hcall _ ih =>
    obtain ⟨m, rfl⟩ := Nat.exists_eq_succ_of_ne_zero (Nat.ne_of_gt hroom.pos)
    obtain ⟨m', rfl, hroom'⟩ := ih (hcall.room hG hroom)
    exact ⟨m', rfl, hroom'⟩

/-- **An evaluation with room for the depth of its grammar is not cut off.** -/
theorem run_ends (hG : Bounded G ν ρ s d) {e : Expr R} {l : Layout} {k : Look} {c : Cursor} (a : Attempts R)
    (hroom : Room ν ρ s d n ⟨e, l, k, c⟩) : (run G n e l k c a).Ends := by
  refine Outcome.ends_of_ne fun hcut => ?_
  obtain ⟨g, hg⟩ := exists_nests hcut
  obtain ⟨m, hm, hroom'⟩ := hg.room hG hroom
  have := hroom'.pos
  omega

/-! ## Well-formed grammars -/

/-- What is repeated in an expression. -/
def Expr.repeated : Expr R → List (Expr R)
  | .word _ | .one _ | .first | .last | .rule _ => []
  | .seq p q | .alt p q => p.repeated ++ q.repeated
  | .opt p | .ahead p | .never p => p.repeated
  | .many p | .more p => p :: p.repeated

/-- One place is further on than another, by a character at least. -/
def Cursor.Before (c c' : Cursor) : Prop := ∃ u, u ≠ [] ∧ c.Past u c'

/-- A grammar that can be evaluated by descent from an expression.  Every text is matched or refused, no rule comes back
to itself at the same place, what is repeated takes a character, and evaluations nest at most `K` levels deep for each
character and once more. -/
structure WellFormed (G : Grammar R) (start : Expr R) (K : Nat) : Prop where
  ends : ∀ t a n, K * (t.length + 1) ≤ n → ∃ o, (run G n start .spaced .here ⟨0, t⟩ a).result? = some o ∧
    Eval G start .spaced .here ⟨0, t⟩ o
  advances : ∀ n r l k c l' k' c', Nests G (n + 1) ⟨.rule r, l, k, c⟩ ⟨.rule r, l', k', c'⟩ → c.Before c'
  repeats : ∀ e, (e = G.layout ∨ ∃ r, e = G.body r) → ∀ p ∈ e.repeated,
    ∀ l k c c' xs, Eval G p l k c (some (c', xs)) → c.Before c'
  depth : ∀ t n g, Nests G n ⟨start, .spaced, .here, ⟨0, t⟩⟩ g → n ≤ K * (t.length + 1)

theorem mayBeEmpty_of_repeated {e p : Expr R} (h : e.fits ν ρ s d = true) (hp : p ∈ e.repeated) :
    p.mayBeEmpty ν = false := by
  induction e with
  | word | one | first | last | rule => cases hp
  | seq e f ihe ihf =>
    simp only [Expr.fits, Bool.and_eq_true] at h
    rcases List.mem_append.1 hp with hp | hp
    · exact ihe h.1.1 hp
    · exact ihf h.1.2 hp
  | alt e f ihe ihf =>
    simp only [Expr.fits, Bool.and_eq_true] at h
    rcases List.mem_append.1 hp with hp | hp
    · exact ihe h.1 hp
    · exact ihf h.2 hp
  | opt e ih | ahead e ih | never e ih => exact ih h hp
  | many e ih | more e ih =>
    simp only [Expr.fits, Bool.and_eq_true, Bool.not_eq_true'] at h
    rcases List.mem_cons.1 hp with rfl | hp
    · exact h.1.2
    · exact ih h.1.1 hp

/-- **What is repeated takes a character.** -/
theorem Bounded.repeats (hG : Bounded G ν ρ s d) {e p : Expr R} (he : e = G.layout ∨ ∃ r, e = G.body r)
    (hp : p ∈ e.repeated) {l : Layout} {k : Look} {c c' : Cursor} {xs : List (Parse R)}
    (h : Eval G p l k c (some (c', xs))) : c.Before c' := by
  have hempty : p.mayBeEmpty ν = false := by
    rcases he with rfl | ⟨r, rfl⟩
    · exact mayBeEmpty_of_repeated hG.layoutFits hp
    · exact mayBeEmpty_of_repeated (hG.fits r) hp
  obtain ⟨u, hu, hnil⟩ := h.past hG.empty _ rfl
  refine ⟨u, fun h0 => ?_, hu⟩
  rw [hnil h0] at hempty
  cases hempty

/-- **A rule that is evaluated inside itself is evaluated further on.** -/
theorem Bounded.advances (hG : Bounded G ν ρ s d) {r : R} {l l' : Layout} {k k' : Look} {c c' : Cursor}
    (h : Nests G (n + 1) ⟨.rule r, l, k, c⟩ ⟨.rule r, l', k', c'⟩) : c.Before c' := by
  obtain ⟨u, hu⟩ := h.past
  refine ⟨u, ?_, hu⟩
  rintro rfl
  obtain rfl : c' = c := hu.eq_of_nil
  -- at the same place the rule needs as much room as it had, and the calls in between have taken some of it
  obtain ⟨m, hm, s', -, -, -, hroom⟩ := h.room hG (room_rule hG.layoutLe r l k c')
  simp only [Expr.reach] at hroom
  omega

end

/-! ## The document grammar -/

namespace Rule

theorem mem_all (r : Rule) : r ∈ all := by
  cases r with
  | kw k => cases k <;> decide
  | _ => decide

/-- The rules that can match without taking a character. -/
def mayBeEmpty : Rule → Bool
  | .program | .endOfInput | .attributeContent | .attributeContentSingle => true
  | _ => false

/-- How deep a rule's body goes before it takes a character.  A rule ranks above those that it can begin with. -/
def rank : Rule → Nat
  | .program => 75
  | .stmt => 70
  | .argument => 65
  | .exprStmt => 62
  | .expression => 60
  | .unary => 58
  | .postfixed => 56
  | .primary => 54
  | .decl | .arrowFn | .recordField | .rawStmt | .rawItem | .matchArm | .elementContent | .postfixOp => 36
  | .identifier | .infixOp | .declHead | .letStmt | .guardStmt | .guardHead | .jumpStmt | .pattern | .typeExpr
  | .rawPiece | .ifExpr | .matchExpr | .forExpr | .whileExpr | .loopExpr | .tryExpr | .lambda | .matchLambda
  | .lambdaParams | .returnType | .patternText | .forHead | .fieldAccess | .element | .attribute => 26
  | _ => 8

end Rule

/-- How deep the layout goes before it takes a character. -/
def layoutReach : Nat := 12

/-- **The document grammar is bounded**: no rule comes back to itself before a character is taken, and every repetition
takes one. -/
theorem document_bounded : Bounded document Rule.mayBeEmpty Rule.rank layoutReach depthPerCharacter where
  empty r := (by decide +kernel : ∀ r ∈ Rule.all, (document.body r).mayBeEmpty Rule.mayBeEmpty = true →
    r.mayBeEmpty = true) r r.mem_all
  reach r := (by decide +kernel : ∀ r ∈ Rule.all, (document.body r).reach Rule.mayBeEmpty Rule.rank
    (document.skipReach layoutReach r) ≤ r.rank) r r.mem_all
  fits r := (by decide +kernel : ∀ r ∈ Rule.all, (document.body r).fits Rule.mayBeEmpty Rule.rank
    (document.skipReach layoutReach r) depthPerCharacter = true) r r.mem_all
  layoutReach := by decide +kernel
  layoutFits := by decide +kernel
  layoutLe := by decide +kernel

theorem room_of_fits {e : Expr Rule} (hfits : e.fits Rule.mayBeEmpty Rule.rank layoutReach depthPerCharacter = true)
    (hreach : e.reach Rule.mayBeEmpty Rule.rank layoutReach ≤ depthPerCharacter) (l : Layout) (k : Look) (c : Cursor) :
    Room Rule.mayBeEmpty Rule.rank layoutReach depthPerCharacter (depthPerCharacter * (c.rest.length + 1)) ⟨e, l, k, c⟩ := by
  refine .intro layoutReach (fun _ => Nat.le_refl _) document_bounded.layoutLe hfits ?_
  rw [Nat.mul_add, Nat.mul_one]
  exact Nat.add_le_add_left hreach _

theorem room_program (t : Text) : Room Rule.mayBeEmpty Rule.rank layoutReach depthPerCharacter
    (depthPerCharacter * (t.length + 1)) ⟨.rule .program, .spaced, .here, ⟨0, t⟩⟩ :=
  room_of_fits rfl (by decide +kernel) .spaced .here ⟨0, t⟩

/-- **A run that is deep enough** finds what an expression evaluates to. -/
theorem run_of_eval {e : Expr Rule} {l : Layout} {k : Look} {c : Cursor} {o : Result Rule} (h : Eval document e l k c o)
    {n : Nat} (hroom : Room Rule.mayBeEmpty Rule.rank layoutReach depthPerCharacter n ⟨e, l, k, c⟩) (a : Attempts Rule) :
    (run document n e l k c a).result? = some o := by
  obtain ⟨o', ho'⟩ := run_ends document_bounded a hroom
  rw [ho', h.unique (eval_of_run document _ _ _ _ _ _ _ ho')]

/-- **Every document is parsed or refused**: the evaluation of the document grammar is never cut off. -/
theorem parseDocument_ends (t : Text) : (parseDocument t).Ends := run_ends document_bounded {} (room_program t)

/-- **What the document grammar evaluates to is what parsing gives.** -/
theorem parseDocument_of_eval {t : Text} {o : Result Rule}
    (h : Eval document (.rule .program) .spaced .here ⟨0, t⟩ o) : (parseDocument t).result? = some o :=
  run_of_eval h (room_program t) {}

/-- **The document grammar is well-formed.** -/
theorem document_wellFormed : WellFormed document (.rule .program) depthPerCharacter where
  ends t a n hn := by
    obtain ⟨o, ho⟩ := run_ends document_bounded a ((room_program t).mono hn)
    exact ⟨o, ho, eval_of_run document _ _ _ _ _ _ _ ho⟩
  advances _ _ _ _ _ _ _ _ h := document_bounded.advances h
  repeats _ he _ hp _ _ _ _ _ h := document_bounded.repeats he hp h
  depth t n g h := by
    obtain ⟨m, hm, -⟩ := h.room document_bounded (room_program t)
    omega

end InlineMarkup.Grammar
