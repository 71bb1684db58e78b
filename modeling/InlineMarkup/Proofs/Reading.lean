import InlineMarkup.Proofs.FirstChar
import InlineMarkup.Proofs.Markup
/-!
# Proofs.Reading — reading a given text

`Reads e l c c' ts` says that the expression `e` matches the text between the places `c` and `c'` and leaves the trees
`ts`.  The rules below put such matches together the way the grammar does, so that how a text is read follows the text.
Runs of single characters are read by `Reads.run`, words by `Reads.ofWord`.
-/
namespace InlineMarkup.Grammar

open Text (bytes)

/-- The expression matches from `c` up to `c'` and leaves these trees. -/
def Reads (e : Expr Rule) (l : Layout) (c c' : Cursor) (ts : List Tree) : Prop :=
  ∃ ps, Eval document e l .here c (some (c', ps)) ∧ Tree.namedAll ps = ts

/-- Between two parts the layout from `c` up to `c'` is skipped; there is no comment in it. -/
def Skips (l : Layout) (c c' : Cursor) : Prop := Eval document (document.skip l) .compact .here c (some (c', []))

/-! ## Places without layout -/

theorem word?_of_ne {off : Nat} {x y : Char} {rest w : Text} (h : y ≠ x) :
    (Cursor.mk off (x :: rest)).word? (y :: w) = none := by
  rw [Cursor.word?, Text.strip?, if_neg h]
  rfl

theorem Settled.of_char {off : Nat} {x : Char} {rest : Text} (h : x ∉ [' ', '\t', '/']) : Settled ⟨off, x :: rest⟩ := by
  simp only [List.mem_cons, List.not_mem_nil, or_false, not_or] at h
  exact ⟨word?_of_ne (Ne.symm h.1), word?_of_ne (Ne.symm h.2.1), word?_of_ne (Ne.symm h.2.2)⟩

theorem Settled.of_slash {off : Nat} {x : Char} {rest : Text} (h : x ≠ '/') : Settled ⟨off, '/' :: x :: rest⟩ := by
  refine ⟨word?_of_ne (by decide), word?_of_ne (by decide), ?_⟩
  simp [Cursor.word?, Text.strip?, Ne.symm h]

theorem Settled.at_end (off : Nat) : Settled ⟨off, []⟩ := ⟨rfl, rfl, rfl⟩

theorem Ready.of_ne {l : Layout} {c : Cursor} (hl : l ≠ .spaced) : Ready l c := fun h => absurd h hl

theorem Skips.here {l : Layout} {c : Cursor} (h : Ready l c) : Skips l c c := h.skip .here

theorem Skips.settled {l : Layout} {c : Cursor} (h : Settled c) : Skips l c c := .here fun _ => h

theorem Skips.space {off : Nat} {rest : Text} (h : Settled ⟨off + bytes [' '], rest⟩) :
    Skips .spaced ⟨off, ' ' :: rest⟩ ⟨off + bytes [' '], rest⟩ := by
  have hspace : Eval document DocExpr.blank .compact .here ⟨off, ' ' :: rest⟩ (some (⟨off + bytes [' '], rest⟩, [])) :=
    .altLeft .word
  have hblanks : Eval document (.many DocExpr.blank) .compact .here ⟨off, ' ' :: rest⟩
      (some (⟨off + bytes [' '], rest⟩, [])) :=
    .manySome hspace (.moreNone .word (blank_none_iff.2 ⟨h.space, h.tab⟩))
  have hcomments : Eval document (.many (.seq (.rule .comment) (.many DocExpr.blank))) .compact .here
      ⟨off + bytes [' '], rest⟩ (some (⟨off + bytes [' '], rest⟩, [])) :=
    .manyNone (.seqFail (comment_none_iff.2 h.comment))
  exact .seq hblanks .word hcomments

/-! ## Putting matches together -/

theorem Eval.of_word (w : Text) (l : Layout) (k : Look) (off : Nat) (rest : Text) :
    Eval document (.word w) l k ⟨off, w ++ rest⟩ (some (⟨off + bytes w, rest⟩, [])) := by
  have h := Eval.word (G := document) (w := w) (l := l) (k := k) (c := ⟨off, w ++ rest⟩)
  rwa [Cursor.word?, Text.strip?_append] at h

/-- Where no layout is skipped, repetitions are one like the other. -/
theorem Eval.many_cons {p : Expr Rule} {l : Layout} {k : Look} {c c₁ c₂ : Cursor} {xs ys : List (Parse Rule)}
    (hl : l ≠ .spaced) (hp : Eval document p l k c (some (c₁, xs))) (hm : Eval document (.many p) l k c₁ (some (c₂, ys))) :
    Eval document (.many p) l k c (some (c₂, xs ++ ys)) := by
  have hskip : Eval document (document.skip l) .compact k c₁ (some (c₁, [])) := Ready.skip (.of_ne hl) k
  cases hm with
  | manyNone hnone => exact .manySome hp (.moreNone hskip hnone)
  | manySome hsome hmore => exact .manySome hp (.moreSome hskip hsome hmore)

namespace Reads

variable {p q : Expr Rule} {l : Layout} {c c₁ c₂ c₃ : Cursor} {ts us : List Tree}

theorem word (w : Text) (l : Layout) (off : Nat) (rest : Text) :
    Reads (.word w) l ⟨off, w ++ rest⟩ ⟨off + bytes w, rest⟩ [] :=
  ⟨[], .of_word w l .here off rest, rfl⟩

theorem to_offset {off off' : Nat} {rest : Text} (h : Reads p l c ⟨off, rest⟩ ts) (ho : off = off') :
    Reads p l c ⟨off', rest⟩ ts :=
  ho ▸ h

theorem seq (hp : Reads p l c c₁ ts) (hs : Skips l c₁ c₂) (hq : Reads q l c₂ c₃ us) :
    Reads (.seq p q) l c c₃ (ts ++ us) := by
  obtain ⟨xs, hx, rfl⟩ := hp
  obtain ⟨ys, hy, rfl⟩ := hq
  exact ⟨xs ++ ([] ++ ys), .seq hx hs hy, Tree.namedAll_append xs ys⟩

theorem seq_none (hp : Reads p l c c₁ ts) (hs : Skips l c₁ c₂) (hq : Eval document q l .here c₂ none) :
    Eval document (.seq p q) l .here c none := by
  obtain ⟨xs, hx, -⟩ := hp
  exact .seq hx hs hq

theorem left (hp : Reads p l c c₁ ts) : Reads (.alt p q) l c c₁ ts := by
  obtain ⟨xs, hx, ht⟩ := hp
  exact ⟨xs, .altLeft hx, ht⟩

theorem right (hp : Eval document p l .here c none) (hq : Reads q l c c₁ ts) : Reads (.alt p q) l c c₁ ts := by
  obtain ⟨xs, hx, ht⟩ := hq
  exact ⟨xs, .altRight hp hx, ht⟩

theorem alts : ∀ {ps post : List (Expr Rule)} {p q : Expr Rule} (pre : List (Expr Rule)), p :: ps = pre ++ q :: post →
    (∀ e ∈ pre, Eval document e l .here c none) → Reads q l c c₁ ts → Reads (DocExpr.alts p ps) l c c₁ ts
  | [], _, p, q, [], hps, _, hq => by
    cases hps
    exact hq
  | p' :: ps, _, p, q, [], hps, _, hq => by
    cases hps
    exact left hq
  | [], _, p, q, e :: pre, hps, _, _ => by cases List.append_eq_nil_iff.1 (List.cons.inj hps).2.symm |>.2
  | p' :: ps, _, p, q, e :: pre, hps, hpre, hq => by
    obtain ⟨rfl, hps'⟩ := List.cons.inj hps
    exact right (hpre p List.mem_cons_self) (alts pre hps' (fun e he => hpre e (List.mem_cons_of_mem _ he)) hq)

theorem opt (hp : Reads p l c c₁ ts) : Reads (.opt p) l c c₁ ts := by
  obtain ⟨xs, hx, ht⟩ := hp
  exact ⟨xs, .opt hx, ht⟩

theorem opt_none (hp : Eval document p l .here c none) : Reads (.opt p) l c c [] := ⟨[], .opt hp, rfl⟩

theorem many_none (hp : Eval document p l .here c none) : Reads (.many p) l c c [] := ⟨[], .manyNone hp, rfl⟩

theorem many_some (hp : Reads p l c c₁ ts) (hm : Reads (.more p) l c₁ c₂ us) : Reads (.many p) l c c₂ (ts ++ us) := by
  obtain ⟨xs, hx, rfl⟩ := hp
  obtain ⟨ys, hy, rfl⟩ := hm
  exact ⟨xs ++ ys, .manySome hx hy, Tree.namedAll_append xs ys⟩

theorem more_none (hs : Skips l c c₁) (hp : Eval document p l .here c₁ none) : Reads (.more p) l c c [] :=
  ⟨[], .moreNone hs hp, rfl⟩

theorem more_some (hs : Skips l c c₁) (hp : Reads p l c₁ c₂ ts) (hm : Reads (.more p) l c₂ c₃ us) :
    Reads (.more p) l c c₃ (ts ++ us) := by
  obtain ⟨xs, hx, rfl⟩ := hp
  obtain ⟨ys, hy, rfl⟩ := hm
  exact ⟨[] ++ (xs ++ ys), .moreSome hs hx hy, Tree.namedAll_append xs ys⟩

theorem many_cons (hl : l ≠ .spaced) (hp : Reads p l c c₁ ts) (hm : Reads (.many p) l c₁ c₂ us) :
    Reads (.many p) l c c₂ (ts ++ us) := by
  obtain ⟨xs, hx, rfl⟩ := hp
  obtain ⟨ys, hy, rfl⟩ := hm
  exact ⟨xs ++ ys, hx.many_cons hl hy, Tree.namedAll_append xs ys⟩

/-- Where no layout stands, the first repetition is like the others. -/
theorem many_of_more (hr : Ready l c) (h : Reads (.more p) l c c₁ ts) : Reads (.many p) l c c₁ ts := by
  obtain ⟨xs, hx, ht⟩ := h
  refine ⟨xs, ?_, ht⟩
  generalize ho : some (c₁, xs) = o at hx
  cases hx with
  | moreStuck hs => cases hr.skip_eq hs
  | moreNone hs hp =>
    cases hr.skip_eq hs
    cases ho
    exact .manyNone hp
  | moreSome hs hp hm =>
    cases hr.skip_eq hs
    cases ho
    have hmany := Eval.manySome hp hm
    exact hmany

theorem never (hp : Eval document p l .never c none) : Reads (.never p) l c c [] := ⟨[], .neverNone hp, rfl⟩

theorem ahead {m : Cursor × List (Parse Rule)} (hp : Eval document p l .ahead c (some m)) :
    Reads (.ahead p) l c c [] :=
  ⟨[], .ahead (o := some m) hp, rfl⟩

theorem first (rest : Text) : Reads .first l ⟨0, rest⟩ ⟨0, rest⟩ [] := ⟨[], .first, rfl⟩

theorem last (off : Nat) : Reads .last l ⟨off, []⟩ ⟨off, []⟩ [] := ⟨[], .last, rfl⟩

/-! ## Rules -/

variable {r : Rule} {k : Kind}

theorem silent (hs : document.style r = .silent) (h : Reads (document.body r) l c c₁ ts) : Reads (.rule r) l c c₁ ts := by
  obtain ⟨xs, hx, ht⟩ := h
  exact ⟨xs, .silent hs hx, ht⟩

/-- What the match of a rule leaves: its node over the trees below, if it makes one. -/
theorem rule (hs : document.style r ≠ .silent) (hl : (document.style r).around l ≠ .token)
    (h : Reads (document.body r) ((document.style r).inside l) c c₁ ts) :
    Reads (.rule r) l c c₁
      (match Kind.ofRule? r with
        | none => []
        | some k => [.node k ⟨c.offset, c₁.offset⟩ (if k.isLeaf then [] else ts)]) := by
  obtain ⟨xs, hx, rfl⟩ := h
  refine ⟨_, .node hs hx, ?_⟩
  have hleaves : (document.style r).leaves l .here = true := by simp [Style.leaves, hl]
  show Tree.namedAll (treesOf (document.style r) l .here r c c₁ xs) = _
  rw [treesOf, if_pos hleaves, Tree.namedAll, Tree.namedAll, List.append_nil]
  unfold Tree.named
  cases Kind.ofRule? r with
  | none => rfl
  | some k => rfl

end Reads

theorem Eval.rule_none {r : Rule} {l : Layout} {k : Look} {c : Cursor}
    (h : Eval document (document.body r) ((document.style r).inside l) k c none) :
    Eval document (.rule r) l k c none := by
  by_cases hs : document.style r = .silent
  · rw [hs] at h
    exact .silent hs h
  · exact .node hs h

/-! ## Single characters -/

/-- The set of characters that the expression matches, if it matches single characters and nothing else. -/
def Expr.chars? {R : Type} : Expr R → Option (Char → Bool)
  | .one s => some s.holds
  | .word [x] => some (· == x)
  | .alt p q => p.chars?.bind fun f => q.chars?.map fun g x => f x || g x
  | .seq (.never p) (.one .any) => p.chars?.map fun f x => !f x
  | _ => none

/-- Past one character of a set. -/
def Cursor.take? (c : Cursor) (f : Char → Bool) : Option Cursor :=
  match c.rest with
  | [] => none
  | x :: xs => if f x then some ⟨c.offset + x.utf8Size, xs⟩ else none

theorem take?_eq_none {c : Cursor} {f : Char → Bool} :
    c.take? f = none ↔ ∀ x, c.rest.head? = some x → f x = false := by
  obtain ⟨off, rest⟩ := c
  cases rest with
  | nil => simp [Cursor.take?]
  | cons x rest => simp [Cursor.take?]

theorem word?_single (c : Cursor) (x : Char) : c.word? [x] = c.take? (· == x) := by
  obtain ⟨off, rest⟩ := c
  cases rest with
  | nil => rfl
  | cons y rest =>
    by_cases hxy : x = y
    · simp [Cursor.word?, Cursor.take?, Text.strip?, hxy]
    · simp [Cursor.word?, Cursor.take?, Text.strip?, hxy, Ne.symm hxy]

/-- **An expression for single characters takes one of its set or fails.** -/
theorem Eval.chars {l : Layout} (hl : l ≠ .spaced) (e : Expr Rule) : ∀ {f : Char → Bool}, e.chars? = some f →
    ∀ k c, Eval document e l k c ((c.take? f).map (·, [])) := by
  fun_induction Expr.chars? e with
  | case1 s =>
    rintro _ ⟨⟩ k c
    exact .one
  | case2 x =>
    rintro _ ⟨⟩ k c
    rw [← word?_single]
    exact .word
  | case3 p q ihp ihq =>
    intro f hf k c
    obtain ⟨fp, hp, hq'⟩ := Option.bind_eq_some_iff.1 hf
    obtain ⟨fq, hq, rfl⟩ := Option.map_eq_some_iff.1 hq'
    have hleft := ihp hp k c
    have hright := ihq hq k c
    obtain ⟨off, rest⟩ := c
    cases rest with
    | nil => exact .altRight hleft hright
    | cons x rest =>
      cases hx : fp x with
      | true =>
        simp only [Cursor.take?, hx, if_true, Bool.true_or] at hleft ⊢
        exact .altLeft hleft
      | false =>
        simp only [Cursor.take?, hx, Bool.false_eq_true, if_false, Bool.false_or] at hleft ⊢
        exact .altRight hleft hright
  | case4 p ih =>
    intro f hf k c
    obtain ⟨g, hg, rfl⟩ := Option.map_eq_some_iff.1 hf
    have hnot := ih hg k.enterNever c
    have hskip : ∀ c, Eval document (document.skip l) .compact k c (some (c, [])) := fun c => Ready.skip (.of_ne hl) k
    obtain ⟨off, rest⟩ := c
    cases rest with
    | nil => exact .seq (.neverNone hnot) (hskip _) .one
    | cons x rest =>
      cases hx : g x with
      | true =>
        simp only [Cursor.take?, hx, if_true, Bool.not_true, Bool.false_eq_true, if_false] at hnot ⊢
        exact .seqFail (.neverSome hnot)
      | false =>
        simp only [Cursor.take?, hx, if_true, Bool.not_false, Bool.false_eq_true, if_false] at hnot ⊢
        exact .seq (.neverNone hnot) (hskip _) .one
  | case5 => rintro _ ⟨⟩

theorem Eval.chars_past {l : Layout} (hl : l ≠ .spaced) {e : Expr Rule} {f : Char → Bool} (he : e.chars? = some f)
    {k : Look} {c c' : Cursor} {xs : List (Parse Rule)} (h : Eval document e l k c (some (c', xs))) :
    ∃ x, c.Past [x] c' ∧ f x = true := by
  obtain ⟨_, htake, heq⟩ := Option.map_eq_some_iff.1 (h.unique (Eval.chars hl e he k c)).symm
  cases heq
  unfold Cursor.take? at htake
  split at htake
  · cases htake
  · next x rest hrest =>
    split at htake
    · next hx =>
      cases htake
      exact ⟨x, ⟨hrest, rfl⟩, hx⟩
    · cases htake

theorem Eval.chars_none {l : Layout} (hl : l ≠ .spaced) {e : Expr Rule} {f : Char → Bool} (he : e.chars? = some f)
    {c : Cursor} (h : ∀ x, c.rest.head? = some x → f x = false) (k : Look) : Eval document e l k c none := by
  have := Eval.chars hl e he k c
  rwa [take?_eq_none.2 h] at this

namespace Reads

variable {p q : Expr Rule} {l : Layout} {f g : Char → Bool}

theorem char (hl : l ≠ .spaced) (hp : p.chars? = some f) {off : Nat} {x : Char} {rest : Text} (hx : f x = true) :
    Reads p l ⟨off, x :: rest⟩ ⟨off + x.utf8Size, rest⟩ [] := by
  have := Eval.chars hl p hp .here ⟨off, x :: rest⟩
  simp only [Cursor.take?, hx, if_true] at this
  exact ⟨[], this, rfl⟩

/-- A run of characters, each of which is read by itself, and what is read behind it in the same way. -/
theorem run_append (hl : l ≠ .spaced) {rest : Text} {c' : Cursor} {ts : List Tree} : ∀ (u : Text) (off : Nat),
    (∀ off x v, x :: v <:+ u → Reads p l ⟨off, x :: (v ++ rest)⟩ ⟨off + x.utf8Size, v ++ rest⟩ []) →
    Reads (.many p) l ⟨off + bytes u, rest⟩ c' ts → Reads (.many p) l ⟨off, u ++ rest⟩ c' ts
  | [], _, _, hrest => hrest
  | x :: u, off, hstep, hrest => by
    have hrun := run_append hl u (off + x.utf8Size) (fun off y v hv => hstep off y v (hv.trans (List.suffix_cons x u)))
      (by rw [Nat.add_assoc]; exact hrest)
    exact many_cons hl (hstep off x u (List.suffix_refl _)) hrun

/-- **A run of characters**, each of which is read by itself, up to a place where no more is read. -/
theorem run (hl : l ≠ .spaced) {rest : Text} (hstop : ∀ off, Eval document p l .here ⟨off, rest⟩ none) (u : Text) (off : Nat)
    (hstep : ∀ off x v, x :: v <:+ u → Reads p l ⟨off, x :: (v ++ rest)⟩ ⟨off + x.utf8Size, v ++ rest⟩ []) :
    Reads (.many p) l ⟨off, u ++ rest⟩ ⟨off + bytes u, rest⟩ [] :=
  run_append hl u off hstep (many_none (hstop _))

theorem chars (hl : l ≠ .spaced) (hp : p.chars? = some f) {u rest : Text} (hu : ∀ x ∈ u, f x = true)
    (hstop : ∀ x, rest.head? = some x → f x = false) (off : Nat) :
    Reads (.many p) l ⟨off, u ++ rest⟩ ⟨off + bytes u, rest⟩ [] :=
  run hl (fun _ => .chars_none hl hp hstop .here) u off fun _ x _ hv => char hl hp (hu x (hv.mem List.mem_cons_self))

/-- **A word**: a first character and all that may follow it. -/
theorem ofWord (hl : l ≠ .spaced) (hp : p.chars? = some f) (hq : q.chars? = some g) {u rest : Text}
    (hu : Markup.isWord f g u = true) (hstop : ∀ x, rest.head? = some x → g x = false) (off : Nat) :
    Reads (.seq p (.many q)) l ⟨off, u ++ rest⟩ ⟨off + bytes u, rest⟩ [] := by
  cases u with
  | nil => cases hu
  | cons x u =>
    obtain ⟨hx, hall⟩ := Bool.and_eq_true_iff.1 hu
    have hrun := chars hl hq (List.all_eq_true.1 hall) hstop (off + x.utf8Size)
    rw [Nat.add_assoc] at hrun
    exact (char hl hp hx).seq (.here (.of_ne hl)) hrun

end Reads
end InlineMarkup.Grammar
