import InlineMarkup.Proofs.Evaluation
/-!
# Proofs.Calls — evaluations inside evaluations

An evaluation goes on to evaluate parts of its expression, the bodies of rules and the layout in between, each at a place
that it has come to (`Calls`).  A run is cut off only where such evaluations nest as deep as it was allowed to go
(`exists_nests`).
-/
namespace InlineMarkup.Grammar

variable {R : Type} {G : Grammar R}

/-- An expression to be evaluated at a place. -/
structure Goal (R : Type) where
  expr : Expr R
  layout : Layout
  look : Look
  place : Cursor

/-- The evaluation of the first goal may go on to evaluate the second.  The other side of a choice counts whether or not
the first side matches there. -/
inductive Calls (G : Grammar R) : Goal R → Goal R → Prop where
  | seqFirst {p q l k c} : Calls G ⟨.seq p q, l, k, c⟩ ⟨p, l, k, c⟩
  | seqSkip {p q k c c₁ xs} : Eval G p .spaced k c (some (c₁, xs)) →
      Calls G ⟨.seq p q, .spaced, k, c⟩ ⟨G.layout, .compact, k, c₁⟩
  | seqSecond {p q l k c c₁ c₂ xs ys} : Eval G p l k c (some (c₁, xs)) →
      Eval G (G.skip l) .compact k c₁ (some (c₂, ys)) → Calls G ⟨.seq p q, l, k, c⟩ ⟨q, l, k, c₂⟩
  | altFirst {p q l k c} : Calls G ⟨.alt p q, l, k, c⟩ ⟨p, l, k, c⟩
  | altSecond {p q l k c} : Calls G ⟨.alt p q, l, k, c⟩ ⟨q, l, k, c⟩
  | opt {p l k c} : Calls G ⟨.opt p, l, k, c⟩ ⟨p, l, k, c⟩
  | manyFirst {p l k c} : Calls G ⟨.many p, l, k, c⟩ ⟨p, l, k, c⟩
  | manyMore {p l k c c₁ xs} : Eval G p l k c (some (c₁, xs)) → Calls G ⟨.many p, l, k, c⟩ ⟨.more p, l, k, c₁⟩
  | moreSkip {p k c} : Calls G ⟨.more p, .spaced, k, c⟩ ⟨G.layout, .compact, k, c⟩
  | moreNext {p l k c c₁ xs} : Eval G (G.skip l) .compact k c (some (c₁, xs)) →
      Calls G ⟨.more p, l, k, c⟩ ⟨p, l, k, c₁⟩
  | moreMore {p l k c c₁ c₂ xs ys} : Eval G (G.skip l) .compact k c (some (c₁, xs)) →
      Eval G p l k c₁ (some (c₂, ys)) → Calls G ⟨.more p, l, k, c⟩ ⟨.more p, l, k, c₂⟩
  | ahead {p l k c} : Calls G ⟨.ahead p, l, k, c⟩ ⟨p, l, k.enterAhead, c⟩
  | never {p l k c} : Calls G ⟨.never p, l, k, c⟩ ⟨p, l, k.enterNever, c⟩
  | rule {r l k c} : Calls G ⟨.rule r, l, k, c⟩ ⟨G.body r, (G.style r).inside l, k, c⟩

/-- A chain of `n` evaluations, each inside the one before. -/
inductive Nests (G : Grammar R) : Nat → Goal R → Goal R → Prop where
  | here {g} : Nests G 0 g g
  | inside {n g g₁ g₂} : Calls G g g₁ → Nests G n g₁ g₂ → Nests G (n + 1) g g₂

/-! ## Places -/

theorem Eval.exists_past {e : Expr R} {l : Layout} {k : Look} {c c' : Cursor} {xs : List (Parse R)}
    (h : Eval G e l k c (some (c', xs))) : ∃ u, c.Past u c' := by
  obtain ⟨u, hu, -⟩ := h.past (ν := fun _ => true) (fun _ _ => rfl) _ rfl
  exact ⟨u, hu⟩

theorem Calls.past {g g' : Goal R} (h : Calls G g g') : ∃ u, g.place.Past u g'.place := by
  cases h with
  | seqSkip hp => exact hp.exists_past
  | seqSecond hp hs =>
    obtain ⟨u, hu⟩ := hp.exists_past
    obtain ⟨v, hv⟩ := hs.exists_past
    exact ⟨u ++ v, hu.trans hv⟩
  | manyMore hp => exact hp.exists_past
  | moreNext hs => exact hs.exists_past
  | moreMore hs hp =>
    obtain ⟨u, hu⟩ := hs.exists_past
    obtain ⟨v, hv⟩ := hp.exists_past
    exact ⟨u ++ v, hu.trans hv⟩
  | _ => exact ⟨[], .refl _⟩

theorem Nests.past {n : Nat} {g g' : Goal R} (h : Nests G n g g') : ∃ u, g.place.Past u g'.place := by
  induction h with
  | here => exact ⟨[], .refl _⟩
  | inside hcall _ ih =>
    obtain ⟨u, hu⟩ := hcall.past
    obtain ⟨v, hv⟩ := ih
    exact ⟨u ++ v, hu.trans hv⟩

/-! ## Runs that are cut off -/

theorem Outcome.next_exhausted {o : Outcome R} {f : Cursor → Attempts R → Outcome R} (h : o.next f = .exhausted) :
    o = .exhausted ∨ ∃ c xs a, o = .matched c xs a ∧ f c a = .exhausted := by
  cases o with
  | exhausted => exact .inl rfl
  | failed a => cases h
  | matched c xs a =>
    refine .inr ⟨c, xs, a, rfl, ?_⟩
    cases hf : f c a with
    | exhausted => rfl
    | failed a' => simp [next, hf] at h
    | matched c' ys a' => simp [next, hf] at h

theorem Outcome.orElse_exhausted {o : Outcome R} {f : Attempts R → Outcome R} (h : o.orElse f = .exhausted) :
    o = .exhausted ∨ ∃ a, o = .failed a ∧ f a = .exhausted := by
  cases o with
  | exhausted => exact .inl rfl
  | failed a => exact .inr ⟨a, rfl, h⟩
  | matched c xs a => cases h

theorem Outcome.ofCursor?_ne_exhausted (c? : Option Cursor) (a : Attempts R) :
    Outcome.ofCursor? c? a ≠ .exhausted := by
  cases c? <;> simp [Outcome.ofCursor?]

theorem eval_of_matched {n : Nat} {e : Expr R} {l : Layout} {k : Look} {c c' : Cursor} {a a' : Attempts R}
    {xs : List (Parse R)} (h : run G n e l k c a = .matched c' xs a') : Eval G e l k c (some (c', xs)) :=
  eval_of_run G n e l k c a _ (by rw [h]; rfl)

theorem afterSkip_exhausted {n : Nat} {l : Layout} {k : Look} {c : Cursor} {a : Attempts R}
    {f : Cursor → Attempts R → Outcome R} (h : afterSkip G n l k c a f = .exhausted) :
    (l = .spaced ∧ run G n G.layout .compact k c a = .exhausted) ∨
      ∃ c₁ xs a₁, Eval G (G.skip l) .compact k c (some (c₁, xs)) ∧ f c₁ a₁ = .exhausted := by
  have here : Eval G (.word []) .compact k c (some (c, [])) := Eval.word
  cases l with
  | compact => exact .inr ⟨c, [], a, here, h⟩
  | token => exact .inr ⟨c, [], a, here, h⟩
  | spaced =>
    rcases Outcome.next_exhausted h with hskip | ⟨c₁, xs, a₁, hskip, hf⟩
    · exact .inl ⟨rfl, hskip⟩
    · exact .inr ⟨c₁, xs, a₁, eval_of_matched hskip, hf⟩

/-- **A run that is cut off went as deep as it was allowed to**: that many evaluations nest. -/
theorem exists_nests : ∀ {n : Nat} {e : Expr R} {l : Layout} {k : Look} {c : Cursor} {a : Attempts R},
    run G n e l k c a = .exhausted → ∃ g, Nests G n ⟨e, l, k, c⟩ g
  | 0, _, _, _, _, _, _ => ⟨_, .here⟩
  | n + 1, e, l, k, c, a, h => by
    -- what is cut off is a call with one level less
    have ih : ∀ {e' l' k' c' a'}, run G n e' l' k' c' a' = .exhausted →
        Calls G ⟨e, l, k, c⟩ ⟨e', l', k', c'⟩ → ∃ g, Nests G (n + 1) ⟨e, l, k, c⟩ g := fun hcut hcall =>
      (exists_nests hcut).imp fun _ hnests => .inside hcall hnests
    cases e with
    | word w => exact absurd h (Outcome.ofCursor?_ne_exhausted _ _)
    | one x => exact absurd h (Outcome.ofCursor?_ne_exhausted _ _)
    | first =>
      rw [run] at h
      split at h <;> cases h
    | last =>
      rw [run] at h
      split at h <;> cases h
    | seq p q =>
      rw [run_seq] at h
      rcases Outcome.next_exhausted h with hp | ⟨c₁, xs, a₁, hp, h⟩
      · exact ih hp .seqFirst
      · have hp := eval_of_matched hp
        rcases afterSkip_exhausted h with ⟨rfl, hskip⟩ | ⟨c₂, ys, a₂, hskip, hq⟩
        · exact ih hskip (.seqSkip hp)
        · exact ih hq (.seqSecond hp hskip)
    | alt p q =>
      rw [run] at h
      rcases Outcome.orElse_exhausted h with hp | ⟨a₁, -, hq⟩
      · exact ih hp .altFirst
      · exact ih hq .altSecond
    | opt p =>
      rw [run] at h
      rcases Outcome.orElse_exhausted h with hp | ⟨a₁, -, hnone⟩
      · exact ih hp .opt
      · cases hnone
    | many p =>
      rw [run] at h
      rcases Outcome.orElse_exhausted h with h | ⟨a₁, -, hnone⟩
      · rcases Outcome.next_exhausted h with hp | ⟨c₁, xs, a₁, hp, hmore⟩
        · exact ih hp .manyFirst
        · exact ih hmore (.manyMore (eval_of_matched hp))
      · cases hnone
    | more p =>
      rw [run_more] at h
      rcases Outcome.orElse_exhausted h with h | ⟨a₁, -, hnone⟩
      · rcases afterSkip_exhausted h with ⟨rfl, hskip⟩ | ⟨c₁, xs, a₁, hskip, h⟩
        · exact ih hskip .moreSkip
        · rcases Outcome.next_exhausted h with hp | ⟨c₂, ys, a₂, hp, hmore⟩
          · exact ih hp (.moreNext hskip)
          · exact ih hmore (.moreMore hskip (eval_of_matched hp))
      · cases hnone
    | ahead p =>
      rw [run] at h
      cases hp : run G n p l k.enterAhead c a with
      | exhausted => exact ih hp .ahead
      | failed a₁ => simp [hp] at h
      | matched c₁ xs a₁ => simp [hp] at h
    | never p =>
      rw [run] at h
      cases hp : run G n p l k.enterNever c a with
      | exhausted => exact ih hp .never
      | failed a₁ => simp [hp] at h
      | matched c₁ xs a₁ => simp [hp] at h
    | rule r =>
      by_cases hs : G.style r = .silent
      · rw [run_silent hs] at h
        have hcall : Calls G ⟨.rule r, l, k, c⟩ ⟨G.body r, (G.style r).inside l, k, c⟩ := .rule
        rw [hs] at hcall
        exact ih h hcall
      · rw [run_node hs] at h
        cases hb : run G n (G.body r) ((G.style r).inside l) k c a with
        | exhausted => exact ih hb .rule
        | failed a₁ => simp [hb, Outcome.ofBody] at h
        | matched c₁ xs a₁ => simp [hb, Outcome.ofBody] at h

end InlineMarkup.Grammar
