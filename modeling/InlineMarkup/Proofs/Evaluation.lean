import InlineMarkup.Grammar.Parse
import InlineMarkup.Proofs.Cuts
/-!
# Proofs.Evaluation — what a parsing expression evaluates to

`Eval G e l k c o` says that the expression `e`, evaluated at the place `c`, ends with the result `o`: no match, or a
match with the place behind it and the parse trees.  It knows neither a bound on the depth nor attempts.  Every
evaluation that `run` finishes is one of these (`eval_of_run`), and there is at most one (`Eval.unique`).  What holds
of every match is shown along the evaluations that match (`Eval.match_induction`); so a match takes a piece of the input
(`Eval.past`).
-/
namespace InlineMarkup.Grammar

variable {R : Type}

/-- What an evaluation gives: nothing, or the place behind the match and the parse trees. -/
abbrev Result (R : Type) := Option (Cursor × List (Parse R))

/-- What is evaluated between two parts: the layout where it is skipped, the empty word elsewhere. -/
def skip (G : Grammar R) : Layout → Expr R
  | .spaced => G.layout
  | _ => .word []

/-- A rule of this style, called here, leaves a node. -/
def Style.leaves (s : Style) (l : Layout) (k : Look) : Bool := s.around l != .token && k == .here

/-- The trees of a rule that matched from `c` up to `c'`, from the trees of its body. -/
def treesOf (s : Style) (l : Layout) (k : Look) (r : R) (c c' : Cursor) (xs : List (Parse R)) : List (Parse R) :=
  if s.leaves l k then [.node r c.offset c'.offset xs] else xs

/-- The expression, evaluated at a place, has this result. -/
inductive Eval (G : Grammar R) : Expr R → Layout → Look → Cursor → Result R → Prop where
  | word {w l k c} : Eval G (.word w) l k c ((c.word? w).map (·, []))
  | one {s l k c} : Eval G (.one s) l k c ((c.one? s).map (·, []))
  | first {l k c} : Eval G .first l k c (if c.offset = 0 then some (c, []) else none)
  | last {l k c} : Eval G .last l k c (if c.rest.isEmpty then some (c, []) else none)
  | seqFail {p q l k c} : Eval G p l k c none → Eval G (.seq p q) l k c none
  | seqStuck {p q l k c c₁ xs} : Eval G p l k c (some (c₁, xs)) → Eval G (G.skip l) .compact k c₁ none →
      Eval G (.seq p q) l k c none
  | seq {p q l k c c₁ c₂ xs ys o} : Eval G p l k c (some (c₁, xs)) →
      Eval G (G.skip l) .compact k c₁ (some (c₂, ys)) → Eval G q l k c₂ o →
      Eval G (.seq p q) l k c (o.map fun m => (m.1, xs ++ (ys ++ m.2)))
  | altLeft {p q l k c m} : Eval G p l k c (some m) → Eval G (.alt p q) l k c (some m)
  | altRight {p q l k c o} : Eval G p l k c none → Eval G q l k c o → Eval G (.alt p q) l k c o
  | opt {p l k c o} : Eval G p l k c o → Eval G (.opt p) l k c (some (o.getD (c, [])))
  | manyNone {p l k c} : Eval G p l k c none → Eval G (.many p) l k c (some (c, []))
  | manySome {p l k c c₁ c₂ xs ys} : Eval G p l k c (some (c₁, xs)) → Eval G (.more p) l k c₁ (some (c₂, ys)) →
      Eval G (.many p) l k c (some (c₂, xs ++ ys))
  | moreStuck {p l k c} : Eval G (G.skip l) .compact k c none → Eval G (.more p) l k c (some (c, []))
  | moreNone {p l k c c₁ xs} : Eval G (G.skip l) .compact k c (some (c₁, xs)) → Eval G p l k c₁ none →
      Eval G (.more p) l k c (some (c, []))
  | moreSome {p l k c c₁ c₂ c₃ xs ys zs} : Eval G (G.skip l) .compact k c (some (c₁, xs)) →
      Eval G p l k c₁ (some (c₂, ys)) → Eval G (.more p) l k c₂ (some (c₃, zs)) →
      Eval G (.more p) l k c (some (c₃, xs ++ (ys ++ zs)))
  | ahead {p l k c o} : Eval G p l k.enterAhead c o → Eval G (.ahead p) l k c (o.map fun _ => (c, []))
  | neverSome {p l k c m} : Eval G p l k.enterNever c (some m) → Eval G (.never p) l k c none
  | neverNone {p l k c} : Eval G p l k.enterNever c none → Eval G (.never p) l k c (some (c, []))
  | silent {r l k c o} : G.style r = .silent → Eval G (G.body r) l k c o → Eval G (.rule r) l k c o
  | node {r l k c o} : G.style r ≠ .silent → Eval G (G.body r) ((G.style r).inside l) k c o →
      Eval G (.rule r) l k c (o.map fun m => (m.1, treesOf (G.style r) l k r c m.1 m.2))

/-! ## Running finds evaluations -/

/-- What a run gives, if it was not cut off. -/
def Outcome.result? : Outcome R → Option (Result R)
  | .exhausted => none
  | .failed _ => some none
  | .matched c xs _ => some (some (c, xs))

theorem Outcome.result?_ofCursor? (c? : Option Cursor) (a : Attempts R) :
    (Outcome.ofCursor? c? a).result? = some (c?.map (·, [])) := by
  cases c? <;> rfl

theorem Outcome.orElse_ne_failed (o : Outcome R) (c : Cursor) :
    (o.orElse fun a => .matched c [] a).result? ≠ some none := by
  cases o <;> simp [Outcome.orElse, Outcome.result?]

/-- Goes on behind the layout where layout is skipped, and right here elsewhere. -/
def afterSkip (G : Grammar R) (n : Nat) (l : Layout) (k : Look) (c : Cursor) (a : Attempts R)
    (f : Cursor → Attempts R → Outcome R) : Outcome R :=
  match l with
  | .spaced => (run G n G.layout .compact k c a).next f
  | _ => f c a

theorem run_seq (G : Grammar R) (n : Nat) (p q : Expr R) (l : Layout) (k : Look) (c : Cursor) (a : Attempts R) :
    run G (n + 1) (.seq p q) l k c a = (run G n p l k c a).next fun c₁ a₁ =>
      afterSkip G n l k c₁ a₁ fun c₂ a₂ => run G n q l k c₂ a₂ := by
  cases l <;> rfl

theorem run_more (G : Grammar R) (n : Nat) (p : Expr R) (l : Layout) (k : Look) (c : Cursor) (a : Attempts R) :
    run G (n + 1) (.more p) l k c a = (afterSkip G n l k c a fun c₁ a₁ =>
      (run G n p l k c₁ a₁).next fun c₂ a₂ => run G n (.more p) l k c₂ a₂).orElse fun a₁ => .matched c [] a₁ := by
  cases l <;> rfl

theorem run_silent {G : Grammar R} {r : R} (hs : G.style r = .silent) (n : Nat) (l : Layout) (k : Look) (c : Cursor)
    (a : Attempts R) : run G (n + 1) (.rule r) l k c a = run G n (G.body r) l k c a := by
  rw [run, hs]

theorem run_node {G : Grammar R} {r : R} (hs : G.style r ≠ .silent) (n : Nat) (l : Layout) (k : Look) (c : Cursor)
    (a : Attempts R) :
    run G (n + 1) (.rule r) l k c a =
      (run G n (G.body r) ((G.style r).inside l) k c a).ofBody r ((G.style r).around l != .token) k c a := by
  rw [run]
  cases h : G.style r with
  | silent => exact absurd h hs
  | _ => rfl

theorem Outcome.result?_ofBody (o : Outcome R) (r : R) (s : Style) (l : Layout) (k : Look) (c : Cursor)
    (old : Attempts R) :
    (o.ofBody r (s.around l != .token) k c old).result? =
      o.result?.map fun x => x.map fun m => (m.1, treesOf s l k r c m.1 m.2) := by
  cases o <;> rfl

/-- A repetition stops where nothing more matches, so it never fails. -/
theorem run_more_ne_failed (G : Grammar R) (n : Nat) (p : Expr R) (l : Layout) (k : Look) (c : Cursor)
    (a : Attempts R) : (run G n (.more p) l k c a).result? ≠ some none := by
  cases n with
  | zero => simp [run, Outcome.result?]
  | succ n => rw [run_more]; exact Outcome.orElse_ne_failed _ c

theorem Outcome.result?_cases {o : Outcome R} {r : Result R} (h : o.result? = some r) :
    (∃ c xs a, o = .matched c xs a ∧ r = some (c, xs)) ∨ (∃ a, o = .failed a ∧ r = none) := by
  cases o with
  | exhausted => simp [result?] at h
  | failed a => exact .inr ⟨a, rfl, by simpa [result?] using h.symm⟩
  | matched c xs a => exact .inl ⟨c, xs, a, rfl, by simpa [result?] using h.symm⟩

/-- What follows a match, if the whole was not cut off. -/
theorem Outcome.next_cases {o : Outcome R} {f : Cursor → Attempts R → Outcome R} {r : Result R}
    (h : (o.next f).result? = some r) :
    (∃ a, o = .failed a ∧ r = none) ∨
    (∃ c xs a r', o = .matched c xs a ∧ (f c a).result? = some r' ∧ r = r'.map fun m => (m.1, xs ++ m.2)) := by
  cases o with
  | exhausted => simp [next, result?] at h
  | failed a => exact .inl ⟨a, rfl, by simpa [next, result?] using h.symm⟩
  | matched c xs a =>
    refine .inr ⟨c, xs, a, ?_⟩
    simp only [next] at h
    cases hf : f c a with
    | exhausted => simp [hf, result?] at h
    | failed a' => exact ⟨none, rfl, rfl, by simpa [hf, result?] using h.symm⟩
    | matched c' ys a' => exact ⟨some (c', ys), rfl, rfl, by simpa [hf, result?] using h.symm⟩

/-- What follows a failure, if the whole was not cut off. -/
theorem Outcome.orElse_cases {o : Outcome R} {f : Attempts R → Outcome R} {r : Result R}
    (h : (o.orElse f).result? = some r) :
    (∃ m, o.result? = some (some m) ∧ r = some m) ∨ (∃ a, o = .failed a ∧ (f a).result? = some r) := by
  cases o with
  | exhausted => simp [orElse, result?] at h
  | failed a => exact .inr ⟨a, rfl, h⟩
  | matched c xs a => exact .inl ⟨(c, xs), rfl, by simpa [orElse, result?] using h.symm⟩

/-- What follows skipped layout, if the whole was not cut off. -/
theorem afterSkip_cases {G : Grammar R} {n : Nat}
    (ih : ∀ e l k c a o, (run G n e l k c a).result? = some o → Eval G e l k c o)
    {l : Layout} {k : Look} {c : Cursor} {a : Attempts R} {f : Cursor → Attempts R → Outcome R} {r : Result R}
    (h : (afterSkip G n l k c a f).result? = some r) :
    (Eval G (G.skip l) .compact k c none ∧ r = none) ∨
    (∃ c' xs a' r', Eval G (G.skip l) .compact k c (some (c', xs)) ∧ (f c' a').result? = some r' ∧
      r = r'.map fun m => (m.1, xs ++ m.2)) := by
  have here : Eval G (.word []) .compact k c (some (c, [])) := Eval.word
  cases l with
  | compact => exact .inr ⟨c, [], a, r, here, h, by simp⟩
  | token => exact .inr ⟨c, [], a, r, here, h, by simp⟩
  | spaced =>
    obtain ⟨a', hl, rfl⟩ | ⟨c', xs, a', r', hl, hf, rfl⟩ := Outcome.next_cases h
    · exact .inl ⟨ih G.layout _ _ _ a _ (by rw [hl]; rfl), rfl⟩
    · exact .inr ⟨c', xs, a', r', ih G.layout _ _ _ a _ (by rw [hl]; rfl), hf, rfl⟩

/-- **A run that is not cut off finds an evaluation.** -/
theorem eval_of_run (G : Grammar R) :
    ∀ (n : Nat) (e : Expr R) (l : Layout) (k : Look) (c : Cursor) (a : Attempts R) (o : Result R),
      (run G n e l k c a).result? = some o → Eval G e l k c o
  | 0, _, _, _, _, _, _, h => by simp [run, Outcome.result?] at h
  | n + 1, e, l, k, c, a, o, h => by
    have ih := eval_of_run G n
    cases e with
    | word w =>
      rw [run, Outcome.result?_ofCursor?] at h
      cases h
      exact .word
    | one s =>
      rw [run, Outcome.result?_ofCursor?] at h
      cases h
      exact .one
    | first =>
      have ho : o = if c.offset = 0 then some (c, []) else none := by
        rw [run] at h
        split at h <;> simp_all [Outcome.result?]
      exact ho ▸ .first
    | last =>
      have ho : o = if c.rest.isEmpty then some (c, []) else none := by
        rw [run] at h
        split at h <;> simp_all [Outcome.result?]
      exact ho ▸ .last
    | seq p q =>
      rw [run_seq] at h
      obtain ⟨a₁, hp, rfl⟩ | ⟨c₁, xs, a₁, r, hp, hr, rfl⟩ := Outcome.next_cases h
      · exact .seqFail (ih p l k c a none (by rw [hp]; rfl))
      · have hp' := ih p l k c a (some (c₁, xs)) (by rw [hp]; rfl)
        obtain ⟨hs, rfl⟩ | ⟨c₂, ys, a₂, r', hs, hq, rfl⟩ := afterSkip_cases ih hr
        · exact .seqStuck hp' hs
        · simpa [Function.comp_def] using Eval.seq hp' hs (ih q l k c₂ a₂ r' hq)
    | alt p q =>
      rw [run] at h
      obtain ⟨m, hp, rfl⟩ | ⟨a₁, hp, hq⟩ := Outcome.orElse_cases h
      · exact .altLeft (ih p l k c a _ hp)
      · exact .altRight (ih p l k c a none (by rw [hp]; rfl)) (ih q l k c a₁ o hq)
    | opt p =>
      rw [run] at h
      obtain ⟨m, hp, rfl⟩ | ⟨a₁, hp, hq⟩ := Outcome.orElse_cases h
      · exact .opt (ih p l k c a _ hp)
      · cases hq
        exact .opt (ih p l k c a none (by rw [hp]; rfl))
    | many p =>
      rw [run] at h
      obtain ⟨m, hp, rfl⟩ | ⟨a₁, hp, hq⟩ := Outcome.orElse_cases h
      · obtain ⟨_, _, hn⟩ | ⟨c₁, xs, a₁, r, hp', hr, hm⟩ := Outcome.next_cases hp
        · cases hn
        · cases r with
          | none => cases hm
          | some m' =>
            cases hm
            exact .manySome (ih p l k c a _ (by rw [hp']; rfl)) (ih _ l k c₁ a₁ _ hr)
      · cases hq
        obtain ⟨a₂, hp', _⟩ | ⟨c₁, xs, a₂, r, _, hr, hm⟩ :=
            Outcome.next_cases (r := none) (by rw [hp]; rfl)
        · exact .manyNone (ih p l k c a none (by rw [hp']; rfl))
        · cases r with
          | none => exact absurd hr (run_more_ne_failed G n p l k c₁ a₂)
          | some m' => cases hm
    | more p =>
      rw [run_more] at h
      obtain ⟨m, hp, rfl⟩ | ⟨a₁, hp, hq⟩ := Outcome.orElse_cases h
      · obtain ⟨_, hn⟩ | ⟨c₁, xs, a₁, r, hs, hr, hm⟩ := afterSkip_cases ih hp
        · cases hn
        · obtain ⟨_, _, rfl⟩ | ⟨c₂, ys, a₂, r', hp', hr', rfl⟩ := Outcome.next_cases hr
          · cases hm
          · cases r' with
            | none => cases hm
            | some m' =>
              cases hm
              exact .moreSome hs (ih p l k c₁ a₁ _ (by rw [hp']; rfl)) (ih _ l k c₂ a₂ _ hr')
      · cases hq
        obtain ⟨hs, _⟩ | ⟨c₁, xs, a₂, r, hs, hr, hm⟩ := afterSkip_cases ih (r := none) (by rw [hp]; rfl)
        · exact .moreStuck hs
        · obtain ⟨_, hp', rfl⟩ | ⟨c₂, ys, a₃, r', _, hr', rfl⟩ := Outcome.next_cases hr
          · exact .moreNone hs (ih p l k c₁ a₂ none (by rw [hp']; rfl))
          · cases r' with
            | none => exact absurd hr' (run_more_ne_failed G n p l k c₂ a₃)
            | some m' => cases hm
    | ahead p =>
      rw [run] at h
      cases hp : run G n p l k.enterAhead c a with
      | exhausted => simp [hp, Outcome.result?] at h
      | failed a₁ =>
        rw [hp] at h
        cases h
        exact .ahead (ih p l _ c a none (by rw [hp]; rfl))
      | matched c₁ xs a₁ =>
        rw [hp] at h
        cases h
        exact .ahead (ih p l _ c a _ (by rw [hp]; rfl))
    | never p =>
      rw [run] at h
      cases hp : run G n p l k.enterNever c a with
      | exhausted => simp [hp, Outcome.result?] at h
      | failed a₁ =>
        rw [hp] at h
        cases h
        exact .neverNone (ih p l _ c a none (by rw [hp]; rfl))
      | matched c₁ xs a₁ =>
        rw [hp] at h
        cases h
        exact .neverSome (ih p l _ c a _ (by rw [hp]; rfl))
    | rule r =>
      by_cases hs : G.style r = .silent
      · rw [run_silent hs] at h
        exact .silent hs (ih _ l k c a o h)
      · rw [run_node hs, Outcome.result?_ofBody] at h
        obtain ⟨o', hb, rfl⟩ := Option.map_eq_some_iff.1 h
        exact .node hs (ih _ _ k c a o' hb)

/-! ## There is at most one result -/

/-- **An expression has at most one result at a place.** -/
theorem Eval.unique {G : Grammar R} {e : Expr R} {l : Layout} {k : Look} {c : Cursor} {o o' : Result R}
    (h : Eval G e l k c o) (h' : Eval G e l k c o') : o = o' := by
  induction h generalizing o' with
  | word => cases h'; rfl
  | one => cases h'; rfl
  | first => cases h'; rfl
  | last => cases h'; rfl
  | seqFail _ ihp =>
    cases h' with
    | seqFail => rfl
    | seqStuck => rfl
    | seq hp => cases ihp hp
  | seqStuck _ _ ihp ihs =>
    cases h' with
    | seqFail => rfl
    | seqStuck => rfl
    | seq hp hs => cases ihp hp; cases ihs hs
  | seq _ _ _ ihp ihs ihq =>
    cases h' with
    | seqFail hp => cases ihp hp
    | seqStuck hp hs => cases ihp hp; cases ihs hs
    | seq hp hs hq => cases ihp hp; cases ihs hs; rw [ihq hq]
  | altLeft _ ihp =>
    cases h' with
    | altLeft hp => exact ihp hp
    | altRight hp => cases ihp hp
  | altRight _ _ ihp ihq =>
    cases h' with
    | altLeft hp => cases ihp hp
    | altRight _ hq => exact ihq hq
  | opt _ ihp => cases h' with | opt hp => rw [ihp hp]
  | manyNone _ ihp =>
    cases h' with
    | manyNone => rfl
    | manySome hp => cases ihp hp
  | manySome _ _ ihp ihm =>
    cases h' with
    | manyNone hp => cases ihp hp
    | manySome hp hm => cases ihp hp; cases ihm hm; rfl
  | moreStuck _ ihs =>
    cases h' with
    | moreStuck => rfl
    | moreNone => rfl
    | moreSome hs => cases ihs hs
  | moreNone _ _ ihs ihp =>
    cases h' with
    | moreStuck => rfl
    | moreNone => rfl
    | moreSome hs hp => cases ihs hs; cases ihp hp
  | moreSome _ _ _ ihs ihp ihm =>
    cases h' with
    | moreStuck hs => cases ihs hs
    | moreNone hs hp => cases ihs hs; cases ihp hp
    | moreSome hs hp hm => cases ihs hs; cases ihp hp; cases ihm hm; rfl
  | ahead _ ihp => cases h' with | ahead hp => rw [ihp hp]
  | neverSome _ ihp =>
    cases h' with
    | neverSome => rfl
    | neverNone hp => cases ihp hp
  | neverNone _ ihp =>
    cases h' with
    | neverSome hp => cases ihp hp
    | neverNone => rfl
  | silent hs _ ih =>
    cases h' with
    | silent _ hb => exact ih hb
    | node hn => exact absurd hs hn
  | node hn _ ih =>
    cases h' with
    | silent hs => exact absurd hs hn
    | node _ hb => rw [ih hb]

/-! ## Matches -/

theorem Eval.seq_parts {G : Grammar R} {p q : Expr R} {l : Layout} {k : Look} {c c' : Cursor} {zs : List (Parse R)}
    (h : Eval G (.seq p q) l k c (some (c', zs))) :
    ∃ c₁ xs c₂ ys ws, Eval G p l k c (some (c₁, xs)) ∧ Eval G (G.skip l) .compact k c₁ (some (c₂, ys)) ∧
      Eval G q l k c₂ (some (c', ws)) ∧ zs = xs ++ (ys ++ ws) := by
  generalize ho : some (c', zs) = o at h
  cases h with
  | seqFail => cases ho
  | seqStuck => cases ho
  | @seq _ _ _ _ _ _ _ _ _ o hp hs hq =>
    cases o with
    | none => cases ho
    | some m =>
      cases ho
      exact ⟨_, _, _, _, _, hp, hs, hq, rfl⟩

theorem mem_treesOf {s : Style} {l : Layout} {r : R} {c c' : Cursor} {xs : List (Parse R)} {p : Parse R}
    (h : p ∈ treesOf s l .here r c c' xs) : s.around l ≠ .token ∧ p = .node r c.offset c'.offset xs ∨ p ∈ xs := by
  by_cases hl : s.around l = .token
  · rw [treesOf, Style.leaves, hl] at h
    exact .inr h
  · rw [treesOf, if_pos (by simp [Style.leaves, hl]), List.mem_singleton] at h
    exact .inl ⟨hl, h⟩

/-- **Induction on matches**: on the matches that a match is made of, without what failed on the way. -/
@[elab_as_elim]
theorem Eval.match_induction {G : Grammar R}
    {motive : ∀ e l k c c' xs, Eval G e l k c (some (c', xs)) → Prop}
    (word : ∀ {w l k c c' h}, c.word? w = some c' → motive (.word w) l k c c' [] h)
    (one : ∀ {s l k c c' h}, c.one? s = some c' → motive (.one s) l k c c' [] h)
    (first : ∀ {l k c h}, motive .first l k c c [] h)
    (last : ∀ {l k c h}, c.rest = [] → motive .last l k c c [] h)
    (seq : ∀ {p q l k c c₁ c₂ c₃ xs ys zs h} (hp : Eval G p l k c (some (c₁, xs)))
      (hs : Eval G (G.skip l) .compact k c₁ (some (c₂, ys))) (hq : Eval G q l k c₂ (some (c₃, zs))),
      motive p l k c c₁ xs hp → motive (G.skip l) .compact k c₁ c₂ ys hs → motive q l k c₂ c₃ zs hq →
      motive (.seq p q) l k c c₃ (xs ++ (ys ++ zs)) h)
    (altLeft : ∀ {p q l k c c' xs h} (hp : Eval G p l k c (some (c', xs))), motive p l k c c' xs hp →
      motive (.alt p q) l k c c' xs h)
    (altRight : ∀ {p q l k c c' xs h} (hq : Eval G q l k c (some (c', xs))), motive q l k c c' xs hq →
      motive (.alt p q) l k c c' xs h)
    (optNone : ∀ {p l k c h}, motive (.opt p) l k c c [] h)
    (optSome : ∀ {p l k c c' xs h} (hp : Eval G p l k c (some (c', xs))), motive p l k c c' xs hp →
      motive (.opt p) l k c c' xs h)
    (manyNone : ∀ {p l k c h}, motive (.many p) l k c c [] h)
    (manySome : ∀ {p l k c c₁ c₂ xs ys h} (hp : Eval G p l k c (some (c₁, xs)))
      (hm : Eval G (.more p) l k c₁ (some (c₂, ys))), motive p l k c c₁ xs hp → motive (.more p) l k c₁ c₂ ys hm →
      motive (.many p) l k c c₂ (xs ++ ys) h)
    (moreNone : ∀ {p l k c h}, motive (.more p) l k c c [] h)
    (moreSome : ∀ {p l k c c₁ c₂ c₃ xs ys zs h} (hs : Eval G (G.skip l) .compact k c (some (c₁, xs)))
      (hp : Eval G p l k c₁ (some (c₂, ys))) (hm : Eval G (.more p) l k c₂ (some (c₃, zs))),
      motive (G.skip l) .compact k c c₁ xs hs → motive p l k c₁ c₂ ys hp → motive (.more p) l k c₂ c₃ zs hm →
      motive (.more p) l k c c₃ (xs ++ (ys ++ zs)) h)
    (ahead : ∀ {p l k c c' xs h} (hp : Eval G p l k.enterAhead c (some (c', xs))),
      motive p l k.enterAhead c c' xs hp → motive (.ahead p) l k c c [] h)
    (never : ∀ {p l k c h}, motive (.never p) l k c c [] h)
    (silent : ∀ {r l k c c' xs h} (_ : G.style r = .silent) (hb : Eval G (G.body r) l k c (some (c', xs))),
      motive (G.body r) l k c c' xs hb → motive (.rule r) l k c c' xs h)
    (node : ∀ {r l k c c' xs h} (_ : G.style r ≠ .silent)
      (hb : Eval G (G.body r) ((G.style r).inside l) k c (some (c', xs))),
      motive (G.body r) ((G.style r).inside l) k c c' xs hb →
      motive (.rule r) l k c c' (treesOf (G.style r) l k r c c' xs) h)
    {e : Expr R} {l : Layout} {k : Look} {c c' : Cursor} {xs : List (Parse R)} (h : Eval G e l k c (some (c', xs))) :
    motive e l k c c' xs h := by
  suffices ∀ {e l k c o}, Eval G e l k c o → ∀ c' xs h, o = some (c', xs) → motive e l k c c' xs h from
    this h c' xs h rfl
  intro e l k c o h
  induction h with
  | word =>
    intro c' xs h ho
    obtain ⟨_, hw, heq⟩ := Option.map_eq_some_iff.1 ho
    cases heq
    exact word hw
  | one =>
    intro c' xs h ho
    obtain ⟨_, hs, heq⟩ := Option.map_eq_some_iff.1 ho
    cases heq
    exact one hs
  | first =>
    intro c' xs h ho
    split at ho
    · cases ho; exact first
    · cases ho
  | last =>
    intro c' xs h ho
    split at ho
    · next hnil => cases ho; exact last (List.isEmpty_iff.1 hnil)
    · cases ho
  | seq hp hs hq ihp ihs ihq =>
    intro c' xs h ho
    obtain ⟨m, rfl, heq⟩ := Option.map_eq_some_iff.1 ho
    cases heq
    exact seq hp hs hq (ihp _ _ hp rfl) (ihs _ _ hs rfl) (ihq _ _ hq rfl)
  | altLeft hp ihp => intro c' xs h ho; cases ho; exact altLeft hp (ihp _ _ hp rfl)
  | altRight _ hq _ ihq => intro c' xs h ho; subst ho; exact altRight hq (ihq _ _ hq rfl)
  | @opt p l k c o hp ihp =>
    intro c' xs h ho
    cases o with
    | none => cases ho; exact optNone
    | some m => cases ho; exact optSome hp (ihp _ _ hp rfl)
  | manyNone => intro c' xs h ho; cases ho; exact manyNone
  | manySome hp hm ihp ihm => intro c' xs h ho; cases ho; exact manySome hp hm (ihp _ _ hp rfl) (ihm _ _ hm rfl)
  | moreStuck => intro c' xs h ho; cases ho; exact moreNone
  | moreNone => intro c' xs h ho; cases ho; exact moreNone
  | moreSome hs hp hm ihs ihp ihm =>
    intro c' xs h ho
    cases ho
    exact moreSome hs hp hm (ihs _ _ hs rfl) (ihp _ _ hp rfl) (ihm _ _ hm rfl)
  | ahead hp ihp =>
    intro c' xs h ho
    obtain ⟨m, rfl, heq⟩ := Option.map_eq_some_iff.1 ho
    cases heq
    exact ahead hp (ihp _ _ hp rfl)
  | neverNone => intro c' xs h ho; cases ho; exact never
  | silent hs hb ih => intro c' xs h ho; subst ho; exact silent hs hb (ih _ _ hb rfl)
  | node hs hb ih =>
    intro c' xs h ho
    obtain ⟨m, rfl, heq⟩ := Option.map_eq_some_iff.1 ho
    cases heq
    exact node hs hb (ih _ _ hb rfl)
  | _ => intro c' xs h ho; cases ho

/-! ## What a match takes -/

/-- The expression can match without taking a character; `ν` tells so for the rules. -/
def Expr.mayBeEmpty (ν : R → Bool) : Expr R → Bool
  | .word w => w.isEmpty
  | .one _ => false
  | .seq p q => p.mayBeEmpty ν && q.mayBeEmpty ν
  | .alt p q => p.mayBeEmpty ν || q.mayBeEmpty ν
  | .rule r => ν r
  | .first | .last | .opt _ | .many _ | .more _ | .ahead _ | .never _ => true

/-- `ν` holds for every rule that can match without taking a character. -/
def EmptySound (G : Grammar R) (ν : R → Bool) : Prop := ∀ r, (G.body r).mayBeEmpty ν = true → ν r = true

/-- A place further on, behind the text `u`. -/
structure Cursor.Past (c : Cursor) (u : Text) (c' : Cursor) : Prop where
  rest : c.rest = u ++ c'.rest
  offset : c'.offset = c.offset + Text.bytes u

namespace Cursor.Past

theorem refl (c : Cursor) : c.Past [] c := ⟨rfl, rfl⟩

theorem trans {c c₁ c₂ : Cursor} {u v : Text} (h : c.Past u c₁) (h' : c₁.Past v c₂) : c.Past (u ++ v) c₂ :=
  ⟨by rw [h.rest, h'.rest, List.append_assoc], by rw [h'.offset, h.offset, Text.bytes_append, Nat.add_assoc]⟩

theorem eq_of_nil {c c' : Cursor} (h : c.Past [] c') : c' = c := by
  obtain ⟨o, t⟩ := c
  obtain ⟨o', t'⟩ := c'
  have h1 := h.rest
  have h2 := h.offset
  simp only [List.nil_append, Text.bytes_nil, Nat.add_zero] at h1 h2
  rw [h1, h2]

theorem word {c c' : Cursor} {w : Text} (h : c.word? w = some c') : c.Past w c' := by
  obtain ⟨t, ht, rfl⟩ := Option.map_eq_some_iff.1 h
  exact ⟨Text.strip?_eq_some ht, rfl⟩

theorem one {c c' : Cursor} {s : CharSet} (h : c.one? s = some c') : ∃ x, s.holds x = true ∧ c.Past [x] c' := by
  obtain ⟨o, t⟩ := c
  cases t with
  | nil => cases h
  | cons x xs =>
    simp only [Cursor.one?] at h
    split at h
    · rename_i hx
      cases h
      exact ⟨x, hx, rfl, rfl⟩
    · cases h

end Cursor.Past

/-- **A match takes a piece of the input**, and only an expression that may be empty takes none. -/
theorem Eval.past {G : Grammar R} {ν : R → Bool} (hν : EmptySound G ν) {e : Expr R} {l : Layout} {k : Look}
    {c : Cursor} {o : Result R} (h : Eval G e l k c o) :
    ∀ m, o = some m → ∃ u, c.Past u m.1 ∧ (u = [] → e.mayBeEmpty ν = true) := by
  rintro ⟨c', xs⟩ rfl
  induction h using Eval.match_induction with
  | word hw => exact ⟨_, .word hw, fun hu => by simp [Expr.mayBeEmpty, hu]⟩
  | one hs =>
    obtain ⟨x, -, hx⟩ := Cursor.Past.one hs
    exact ⟨_, hx, fun hu => by cases hu⟩
  | seq _ _ _ ihp ihs ihq =>
    obtain ⟨u, hu, hu'⟩ := ihp
    obtain ⟨v, hv, -⟩ := ihs
    obtain ⟨w, hw, hw'⟩ := ihq
    refine ⟨u ++ (v ++ w), hu.trans (hv.trans hw), fun hnil => ?_⟩
    obtain ⟨hu0, hvw⟩ := List.append_eq_nil_iff.1 hnil
    rw [Expr.mayBeEmpty, hu' hu0, hw' (List.append_eq_nil_iff.1 hvw).2]
    rfl
  | altLeft _ ihp =>
    obtain ⟨u, hu, hu'⟩ := ihp
    exact ⟨u, hu, fun h0 => by rw [Expr.mayBeEmpty, hu' h0, Bool.true_or]⟩
  | altRight _ ihq =>
    obtain ⟨u, hu, hu'⟩ := ihq
    exact ⟨u, hu, fun h0 => by rw [Expr.mayBeEmpty, hu' h0, Bool.or_true]⟩
  | optSome _ ihp =>
    obtain ⟨u, hu, -⟩ := ihp
    exact ⟨u, hu, fun _ => rfl⟩
  | manySome _ _ ihp ihm =>
    obtain ⟨u, hu, -⟩ := ihp
    obtain ⟨v, hv, -⟩ := ihm
    exact ⟨u ++ v, hu.trans hv, fun _ => rfl⟩
  | moreSome _ _ _ ihs ihp ihm =>
    obtain ⟨u, hu, -⟩ := ihs
    obtain ⟨v, hv, -⟩ := ihp
    obtain ⟨w, hw, -⟩ := ihm
    exact ⟨u ++ (v ++ w), hu.trans (hv.trans hw), fun _ => rfl⟩
  | silent _ _ ih | node _ _ ih =>
    obtain ⟨u, hu, hu'⟩ := ih
    exact ⟨u, hu, fun h0 => hν _ (hu' h0)⟩
  | _ => exact ⟨[], .refl _, fun _ => rfl⟩

end InlineMarkup.Grammar
