import InlineMarkup.Proofs.DocumentTree
/-!
# Proofs.Refusals — a document is refused at a place in it

Rules are tried at places of the input only, so the furthest place where one was tried in vain is one of them
(`run_within`).  A document is parsed, or it is refused with what was tried there (`parse_refused`): its evaluation is
never cut off, and a match of the whole grammar has a tree.
-/
namespace InlineMarkup.Grammar

open Text (IsPlace)

variable {R : Type} {source : Text}

theorem Cursor.In.isPlace {c : Cursor} (h : c.In source) : IsPlace source c.offset := by
  obtain ⟨pre, hsource, hbytes⟩ := h
  exact ⟨pre, c.rest, hsource, hbytes⟩

/-- What the outcome points at are places of the source. -/
inductive Outcome.Within (source : Text) : Outcome R → Prop where
  | exhausted : Within source .exhausted
  | failed {a : Attempts R} (furthest : IsPlace source a.furthest) : Within source (.failed a)
  | matched {c : Cursor} {xs : List (Parse R)} {a : Attempts R} (here : c.In source)
      (furthest : IsPlace source a.furthest) : Within source (.matched c xs a)

namespace Outcome.Within

variable {o : Outcome R} {a : Attempts R}

theorem next {f : Cursor → Attempts R → Outcome R} (h : o.Within source)
    (hf : ∀ c a, c.In source → IsPlace source a.furthest → (f c a).Within source) : (o.next f).Within source := by
  cases h with
  | exhausted => exact .exhausted
  | failed ha => exact .failed ha
  | @matched c xs a hc ha =>
    have hnext := hf c a hc ha
    unfold Outcome.next
    simp only
    cases hfa : f c a with
    | exhausted => exact .exhausted
    | failed a' =>
      rw [hfa] at hnext
      exact hnext
    | matched c' ys a' =>
      rw [hfa] at hnext
      cases hnext with
      | matched hc' ha' => exact .matched hc' ha'

theorem orElse {f : Attempts R → Outcome R} (h : o.Within source)
    (hf : ∀ a, IsPlace source a.furthest → (f a).Within source) : (o.orElse f).Within source := by
  cases h with
  | exhausted => exact .exhausted
  | failed ha => exact hf _ ha
  | matched hc ha => exact .matched hc ha

theorem ofCursor? {c? : Option Cursor} (hc : ∀ c, c? = some c → c.In source) (ha : IsPlace source a.furthest) :
    (Outcome.ofCursor? c? a : Outcome R).Within source := by
  cases c? with
  | none => exact .failed ha
  | some c => exact .matched (hc c rfl) ha

theorem note {old : Attempts R} (ha : IsPlace source a.furthest) {place : Nat} (hplace : IsPlace source place) (r : R)
    (unwanted : Bool) : IsPlace source (old.note a r place unwanted).furthest := by
  unfold Attempts.note
  split
  · exact ha
  · split
    · simp only
      split <;> exact hplace
    · exact ha

theorem ofBody (h : o.Within source) {c : Cursor} (hc : c.In source) (r : R) (noted : Bool) (k : Look) (old : Attempts R) :
    (o.ofBody r noted k c old).Within source := by
  cases h with
  | exhausted => exact .exhausted
  | failed ha =>
    refine .failed ?_
    split
    · exact note ha hc.isPlace r false
    · exact ha
  | matched hc' ha =>
    refine .matched hc' ?_
    split
    · exact note ha hc.isPlace r true
    · exact ha

end Outcome.Within

/-- **Rules are tried at places of the input.** -/
theorem run_within (G : Grammar R) : ∀ (n : Nat) (e : Expr R) (l : Layout) (k : Look) (c : Cursor) (a : Attempts R),
    c.In source → IsPlace source a.furthest → (run G n e l k c a).Within source
  | 0, _, _, _, _, _, _, _ => .exhausted
  | n + 1, e, l, k, c, a, hc, ha => by
    have ih := run_within G n
    have hskip : ∀ c a, c.In source → IsPlace source a.furthest → ∀ f : Cursor → Attempts R → Outcome R,
        (∀ c a, c.In source → IsPlace source a.furthest → (f c a).Within source) →
        (afterSkip G n l k c a f).Within source := by
      intro c a hc ha f hf
      cases l with
      | spaced => exact (ih G.layout .compact k c a hc ha).next hf
      | _ => exact hf c a hc ha
    cases e with
    | word w =>
      rw [run]
      exact .ofCursor? (fun c' hw => hc.past (.word hw)) ha
    | one s =>
      rw [run]
      refine .ofCursor? (fun c' hs => ?_) ha
      obtain ⟨x, -, hx⟩ := Cursor.Past.one hs
      exact hc.past hx
    | first =>
      rw [run]
      split
      · exact .matched hc ha
      · exact .failed ha
    | last =>
      rw [run]
      split
      · exact .matched hc ha
      · exact .failed ha
    | seq p q =>
      rw [run_seq]
      refine (ih p l k c a hc ha).next fun c₁ a₁ hc₁ ha₁ => ?_
      exact hskip c₁ a₁ hc₁ ha₁ _ fun c₂ a₂ hc₂ ha₂ => ih q l k c₂ a₂ hc₂ ha₂
    | alt p q =>
      rw [run]
      exact (ih p l k c a hc ha).orElse fun a₁ ha₁ => ih q l k c a₁ hc ha₁
    | opt p =>
      rw [run]
      exact (ih p l k c a hc ha).orElse fun a₁ ha₁ => .matched hc ha₁
    | many p =>
      rw [run]
      refine ((ih p l k c a hc ha).next fun c₁ a₁ hc₁ ha₁ => ?_).orElse fun a₁ ha₁ => .matched hc ha₁
      exact ih (.more p) l k c₁ a₁ hc₁ ha₁
    | more p =>
      rw [run_more]
      refine (hskip c a hc ha _ fun c₁ a₁ hc₁ ha₁ => ?_).orElse fun a₁ ha₁ => .matched hc ha₁
      exact (ih p l k c₁ a₁ hc₁ ha₁).next fun c₂ a₂ hc₂ ha₂ => ih (.more p) l k c₂ a₂ hc₂ ha₂
    | ahead p =>
      have hp := ih p l k.enterAhead c a hc ha
      rw [run]
      split
      · next hrun =>
        rw [hrun] at hp
        cases hp with
        | matched _ ha₁ => exact .matched hc ha₁
      · exact hp
    | never p =>
      have hp := ih p l k.enterNever c a hc ha
      rw [run]
      split
      · next hrun =>
        rw [hrun] at hp
        cases hp with
        | matched _ ha₁ => exact .failed ha₁
      · next hrun =>
        rw [hrun] at hp
        cases hp with
        | failed ha₁ => exact .matched hc ha₁
      · exact .exhausted
    | rule r =>
      by_cases hs : G.style r = .silent
      · rw [run_silent hs]
        exact ih _ l k c a hc ha
      · rw [run_node hs]
        exact (ih _ _ k c a hc ha).ofBody hc r _ k a

theorem parseDocument_within (t : Text) : (parseDocument t).Within t := by
  have hstart : Cursor.In t ⟨0, t⟩ := ⟨[], rfl, rfl⟩
  exact run_within document _ _ _ _ _ _ hstart hstart.isPlace

theorem parseDocument_ne_nil {t : Text} {c : Cursor} {a : Attempts Rule} : parseDocument t ≠ .matched c [] a := by
  intro h
  have heval : Eval document (.rule .program) .spaced .here ⟨0, t⟩ (some (c, [])) :=
    eval_of_run document _ _ _ _ _ _ _ (by rw [show run document _ _ _ _ _ _ = _ from h]; rfl)
  generalize ho : some (c, []) = o at heval
  cases heval with
  | silent hs => cases hs
  | @node _ _ _ _ o _ hb =>
    cases o with
    | none => cases ho
    | some m => cases ho

end InlineMarkup.Grammar

namespace InlineMarkup

open Grammar

/-- **A document that is not parsed is refused at a place in it.** -/
theorem parse_refused {doc : Document} {e : Diagnostic} (h : doc.parse = .error e) :
    ∃ a : Attempts Rule, e = refusal doc a ∧ Text.IsPlace doc.text a.furthest := by
  have hwithin := parseDocument_within doc.text
  unfold Document.parse at h
  split at h
  · cases h
  · next hm => exact absurd hm parseDocument_ne_nil
  · next a hfailed =>
    rw [hfailed] at hwithin
    cases hwithin with
    | failed hplace => exact ⟨a, (Except.error.inj h).symm, hplace⟩
  · next hexhausted =>
    obtain ⟨r, hr⟩ := parseDocument_ends doc.text
    rw [hexhausted] at hr
    cases hr

end InlineMarkup
