import InlineMarkup.Proofs.Depth
import InlineMarkup.Proofs.Rows
/-!
# Proofs.Starts — nodes begin with what they are made of

Layout is skipped before a part of a sequence and not after it, so an evaluation that follows skipped layout finds none
(`Settled`).  Therefore a node that has nodes below it begins where the first of them begins, or with a character of its
own that is not blank (`Eval.firm`): layout never stands at the beginning of a node.  Which rules this holds for is read
off their bodies (`Expr.firm`, `Expr.neat`).
-/
namespace InlineMarkup.Grammar

open Text (isBlank)

/-! ## Layout ends where there is none -/

section Repetition

variable {R : Type} {G : Grammar R}

theorem Eval.skip_eq {l : Layout} {k : Look} {c : Cursor} {o : Result R} (hl : l ≠ .spaced)
    (h : Eval G (G.skip l) .compact k c o) : o = some (c, []) := by
  have hw : G.skip l = .word [] := by
    cases l with
    | spaced => exact absurd rfl hl
    | compact => rfl
    | token => rfl
  rw [hw] at h
  exact h.unique .word

theorem Eval.many_ne_none {p : Expr R} {l : Layout} {k : Look} {c : Cursor} : ¬ Eval G (.many p) l k c none := by
  intro h
  cases h

/-- A repetition stops where nothing more matches. -/
theorem Eval.more_stops {p : Expr R} {l : Layout} {k : Look} {c c' : Cursor} {xs : List (Parse R)}
    (hl : l ≠ .spaced) (h : Eval G (.more p) l k c (some (c', xs))) : Eval G p l k c' none := by
  generalize he : Expr.more p = e at h
  generalize ho : some (c', xs) = o at h
  induction h generalizing xs with
  | moreStuck hs => cases hs.skip_eq hl
  | moreNone hs hp =>
    cases he
    cases ho
    cases hs.skip_eq hl
    exact hp
  | moreSome _ _ _ _ _ ih =>
    cases ho
    exact ih hl he rfl
  | _ => cases he

theorem Eval.many_stops {p : Expr R} {l : Layout} {k : Look} {c c' : Cursor} {xs : List (Parse R)}
    (hl : l ≠ .spaced) (h : Eval G (.many p) l k c (some (c', xs))) : Eval G p l k c' none := by
  cases h with
  | manyNone hp => exact hp
  | manySome _ hm => exact hm.more_stops hl

/-- A sequence whose second part is a repetition fails only where its first part does. -/
theorem Eval.seq_many_none {p q : Expr R} {l : Layout} {k : Look} {c : Cursor} (hl : l ≠ .spaced)
    (h : Eval G (.seq p (.many q)) l k c none) : Eval G p l k c none := by
  generalize ho : (none : Result R) = o at h
  cases h with
  | seqFail hp => exact hp
  | seqStuck _ hs => cases hs.skip_eq hl
  | @seq _ _ _ _ _ _ _ _ _ o _ _ hq =>
    cases o with
    | none => exact absurd hq Eval.many_ne_none
    | some m => cases ho

/-- What holds behind the last part of a repeated sequence holds behind the repetition. -/
theorem Eval.more_last {p q : Expr R} {l : Layout} {k : Look} {P : Cursor → Prop}
    (hP : ∀ c c' xs, Eval G q l k c (some (c', xs)) → P c') {c c' : Cursor} {xs : List (Parse R)} (hc : P c)
    (h : Eval G (.more (.seq p q)) l k c (some (c', xs))) : P c' := by
  generalize he : Expr.more (.seq p q) = e at h
  generalize ho : some (c', xs) = o at h
  induction h generalizing xs with
  | moreStuck => cases ho; exact hc
  | moreNone => cases ho; exact hc
  | moreSome _ hpq _ _ _ ih =>
    cases he
    cases ho
    obtain ⟨_, _, _, _, _, -, -, hq, -⟩ := hpq.seq_parts
    exact ih (fun c c' xs => hP c c' xs) (hP _ _ _ hq) rfl rfl
  | _ => cases he

theorem Eval.many_last {p q : Expr R} {l : Layout} {k : Look} {P : Cursor → Prop}
    (hP : ∀ c c' xs, Eval G q l k c (some (c', xs)) → P c') {c c' : Cursor} {xs : List (Parse R)} (hc : P c)
    (h : Eval G (.many (.seq p q)) l k c (some (c', xs))) : P c' := by
  cases h with
  | manyNone => exact hc
  | manySome hpq hm =>
    obtain ⟨_, _, _, _, _, -, -, hq, -⟩ := hpq.seq_parts
    exact hm.more_last hP (hP _ _ _ hq)

end Repetition

/-- No layout stands here. -/
structure Settled (c : Cursor) : Prop where
  space : c.word? [' '] = none
  tab : c.word? ['\t'] = none
  comment : c.word? ['/', '/'] = none

theorem Eval.of_word_none {R : Type} {G : Grammar R} {w : Text} {l : Layout} {k : Look} {c : Cursor}
    (h : c.word? w = none) : Eval G (.word w) l k c none := by
  have := Eval.word (G := G) (w := w) (l := l) (k := k) (c := c)
  rwa [h] at this

theorem Eval.word_none {R : Type} {G : Grammar R} {w : Text} {l : Layout} {k : Look} {c : Cursor}
    (h : Eval G (.word w) l k c none) : c.word? w = none := by
  have := h.unique .word
  cases hw : c.word? w with
  | none => rfl
  | some c' => rw [hw] at this; cases this

theorem Eval.word_some {R : Type} {G : Grammar R} {w : Text} {l : Layout} {k : Look} {c c' : Cursor}
    {xs : List (Parse R)} (h : Eval G (.word w) l k c (some (c', xs))) : c.word? w = some c' := by
  obtain ⟨_, hw, heq⟩ := Option.map_eq_some_iff.1 (h.unique .word).symm
  cases heq
  exact hw

theorem blank_none_iff {l : Layout} {k : Look} {c : Cursor} :
    Eval document DocExpr.blank l k c none ↔ c.word? [' '] = none ∧ c.word? ['\t'] = none := by
  constructor
  · intro h
    cases h with
    | altRight hs ht => exact ⟨hs.word_none, ht.word_none⟩
  · intro h
    exact .altRight (.of_word_none h.1) (.of_word_none h.2)

theorem comment_none_iff {k : Look} {c : Cursor} :
    Eval document (.rule .comment) .compact k c none ↔ c.word? ['/', '/'] = none := by
  constructor
  · intro h
    generalize ho : (none : Result Rule) = o at h
    cases h with
    | silent hs => cases hs
    | @node _ _ _ _ o _ hb =>
      cases o with
      | none => exact (hb.seq_many_none (by decide)).word_none
      | some m => cases ho
  · intro h
    exact .node (o := none) (by decide) (.seqFail (.of_word_none h))

/-- **Behind layout there is none.** -/
theorem Eval.settled {k : Look} {c c' : Cursor} {xs : List (Parse Rule)}
    (h : Eval document document.layout .compact k c (some (c', xs))) : Settled c' := by
  obtain ⟨c₁, _, c₂, _, _, hb, hs, hm, -⟩ := h.seq_parts
  cases hs.skip_eq (by decide)
  have hcomment := (hm.many_stops (by decide)).seq_many_none (by decide)
  have hblank : Eval document DocExpr.blank .compact k c' none :=
    hm.many_last (P := fun c => Eval document DocExpr.blank .compact k c none)
      (fun _ _ _ h => h.many_stops (by decide)) (hb.many_stops (by decide))
  exact ⟨(blank_none_iff.1 hblank).1, (blank_none_iff.1 hblank).2, comment_none_iff.1 hcomment⟩

/-- **Where there is no layout, none is skipped.** -/
theorem Settled.layout {c : Cursor} (hc : Settled c) (k : Look) :
    Eval document document.layout .compact k c (some (c, [])) := by
  have hblanks : Eval document (.many DocExpr.blank) .compact k c (some (c, [])) :=
    .manyNone (blank_none_iff.2 ⟨hc.space, hc.tab⟩)
  have hcomments : Eval document (.many (.seq (.rule .comment) (.many DocExpr.blank))) .compact k c (some (c, [])) :=
    .manyNone (.seqFail (comment_none_iff.2 hc.comment))
  exact .seq hblanks .word hcomments

/-! ## What rules begin with -/

/-- The expression, evaluated where no layout stands if `settled`, takes nothing or begins with a node or with a
character that is not blank; `φ` tells so for the rules, and `ν` which of them can take nothing. -/
def Expr.firm {R : Type} (ν φ : R → Bool) (settled : Bool) : Expr R → Bool
  | .word [] | .first | .last | .ahead _ | .never _ => true
  | .word (x :: _) => !isBlank x
  | .one _ => false
  | .seq p q => p.firm ν φ settled && (!p.mayBeEmpty ν || settled && q.firm ν φ settled)
  | .alt p q => p.firm ν φ settled && q.firm ν φ settled
  | .opt p => p.firm ν φ settled
  | .many p => p.firm ν φ settled && !p.mayBeEmpty ν
  | .more p => settled && p.firm ν φ settled && !p.mayBeEmpty ν
  | .rule r => settled && φ r

/-- The expression calls rules only where no layout stands; `settled` tells whether it begins so. -/
def Expr.neat {R : Type} : Bool → Expr R → Bool
  | settled, .seq p q => p.neat settled && q.neat true
  | settled, .alt p q => p.neat settled && q.neat settled
  | settled, .opt p => p.neat settled
  | settled, .many p => p.neat settled && p.neat true
  | _, .more p => p.neat true
  | settled, .rule _ => settled
  | _, _ => true

namespace Rule

/-- The rule is only called where no layout stands. -/
def calledSettled (r : Rule) : Bool := r.style != .spaced && r != .program

/-- The rule makes a node with nodes below it. -/
def isInner (r : Rule) : Bool := ((Kind.ofRule? r).map Kind.isLeaf) == some false

/-- The rule takes nothing or begins with a node or with a character that is not blank. -/
def beginsFirm (r : Rule) : Bool :=
  (Kind.ofRule? r).isSome || r ∈ [stmt, primary, postfixOp, matchArms, elementContent]

theorem neat_body (r : Rule) : (document.body r).neat r.calledSettled = true :=
  (by decide : ∀ r ∈ all, (document.body r).neat r.calledSettled = true) r r.mem_all

theorem calledSettled_of_silent (r : Rule) (hs : document.style r = .silent) : r.calledSettled = true :=
  (by decide : ∀ r ∈ all, document.style r = .silent → r.calledSettled = true) r r.mem_all hs

theorem firm_body (r : Rule) (hr : r.isInner = true) (hp : r ≠ program) :
    (document.body r).firm mayBeEmpty beginsFirm r.calledSettled = true :=
  (by decide : ∀ r ∈ all, r.isInner = true → r ≠ program →
    (document.body r).firm mayBeEmpty beginsFirm r.calledSettled = true) r r.mem_all hr hp

theorem firm_silent (r : Rule) (hs : document.style r = .silent) (hr : r.beginsFirm = true) :
    (document.body r).firm mayBeEmpty beginsFirm true = true :=
  (by decide : ∀ r ∈ all, document.style r = .silent → r.beginsFirm = true →
    (document.body r).firm mayBeEmpty beginsFirm true = true) r r.mem_all hs hr

theorem style_of_isInner (r : Rule) (hr : r.isInner = true) : document.style r ≠ .token :=
  (by decide : ∀ r ∈ all, r.isInner = true → document.style r ≠ .token) r r.mem_all hr

theorem kind_of_beginsFirm (r : Rule) (hs : document.style r ≠ .silent) (hr : r.beginsFirm = true) :
    (Kind.ofRule? r).isSome = true :=
  (by decide : ∀ r ∈ all, document.style r ≠ .silent → r.beginsFirm = true →
    (Kind.ofRule? r).isSome = true) r r.mem_all hs hr

end Rule

/-! ## Matches begin well -/

/-- A match takes nothing and leaves no tree, or begins with a tree, or where a character stands that is not blank. -/
def Firmly (c : Cursor) (m : Cursor × List (Parse Rule)) : Prop :=
  (m.1 = c ∧ Tree.namedAll m.2 = []) ∨ (∃ t, (Tree.namedAll m.2).head? = some t ∧ t.span.start = c.offset) ∨
    ∀ x, c.rest.head? = some x → isBlank x = false

/-- The same of a node, whose text is a part of the source. -/
def Begins (source : Text) (start stop : Nat) (inner : List (Parse Rule)) : Prop :=
  start = stop ∨ (∃ t, (Tree.namedAll inner).head? = some t ∧ t.span.start = start) ∨
    ∀ pre x post, source = pre ++ x :: post → Text.bytes pre = start → isBlank x = false

mutual

/-- Every inner node but the whole document begins well. -/
def Parse.Firm (source : Text) : Parse Rule → Prop
  | .node r start stop inner =>
    (r.isInner = true → r ≠ .program → Begins source start stop inner) ∧ FirmAll source inner

def Parse.FirmAll (source : Text) : List (Parse Rule) → Prop
  | [] => True
  | p :: ps => Parse.Firm source p ∧ FirmAll source ps

end

theorem Parse.FirmAll.append {source : Text} : ∀ {xs ys : List (Parse Rule)}, FirmAll source xs → FirmAll source ys →
    FirmAll source (xs ++ ys)
  | [], _, _, hy => hy
  | p :: xs, ys, hx, hy => by
    rw [FirmAll] at hx
    rw [List.cons_append, FirmAll]
    exact ⟨hx.1, hx.2.append hy⟩

/-- The cursor is at a place of the source. -/
def Cursor.In (source : Text) (c : Cursor) : Prop := ∃ pre, source = pre ++ c.rest ∧ Text.bytes pre = c.offset

theorem Cursor.In.past {source : Text} {c c' : Cursor} {u : Text} (h : c.In source) (hp : c.Past u c') :
    c'.In source := by
  obtain ⟨pre, hs, hb⟩ := h
  exact ⟨pre ++ u, by rw [hs, hp.rest, List.append_assoc], by rw [Text.bytes_append, hb, hp.offset]⟩

/-- No layout stands here, or none is skipped. -/
def Ready (l : Layout) (c : Cursor) : Prop := l = .spaced → Settled c

theorem Ready.of_skip {l : Layout} {k : Look} {c c' : Cursor} {xs : List (Parse Rule)}
    (h : Eval document (document.skip l) .compact k c (some (c', xs))) : Ready l c' := by
  rintro rfl
  exact Eval.settled h

theorem Ready.skip {l : Layout} {c : Cursor} (hr : Ready l c) (k : Look) :
    Eval document (document.skip l) .compact k c (some (c, [])) := by
  cases l with
  | spaced => exact (hr rfl).layout k
  | compact => exact .word
  | token => exact .word

theorem Ready.skip_eq {l : Layout} {k : Look} {c : Cursor} {o : Result Rule} (hr : Ready l c)
    (h : Eval document (document.skip l) .compact k c o) : o = some (c, []) :=
  h.unique (hr.skip k)

theorem Firmly.begins {source : Text} {c : Cursor} {m : Cursor × List (Parse Rule)} (hc : c.In source)
    (h : Firmly c m) : Begins source c.offset m.1.offset m.2 := by
  rcases h with ⟨hm, -⟩ | ht | hx
  · exact .inl (by rw [hm])
  · exact .inr (.inl ht)
  · refine .inr (.inr fun pre x post hs hb => hx x ?_)
    obtain ⟨pre', hs', hb'⟩ := hc
    rw [(Text.append_inj_bytes (hs.symm.trans hs') (hb.trans hb'.symm)).2.symm]
    rfl

/-- What a match begins with, its whole begins with, unless it takes nothing. -/
theorem Firmly.append {c c₁ c₂ : Cursor} {xs ys : List (Parse Rule)} (h : Firmly c (c₁, xs))
    (hne : ¬ (c₁ = c ∧ Tree.namedAll xs = [])) : Firmly c (c₂, xs ++ ys) := by
  rcases h with hm | ⟨t, ht, hs⟩ | hx
  · exact absurd hm hne
  · refine .inr (.inl ⟨t, ?_, hs⟩)
    rw [Tree.namedAll_append, List.head?_append, ht]
    rfl
  · exact .inr (.inr hx)

theorem Eval.moved {e : Expr Rule} {l : Layout} {k : Look} {c c' : Cursor} {xs : List (Parse Rule)}
    (h : Eval document e l k c (some (c', xs))) (he : e.mayBeEmpty Rule.mayBeEmpty = false) : c' ≠ c := by
  rintro rfl
  obtain ⟨u, hu, hempty⟩ := h.past document_bounded.empty _ rfl
  have hu0 : u = [] := Text.bytes_eq_zero.1 (by have := hu.offset; simp only at this; omega)
  rw [hempty hu0] at he
  cases he

theorem Eval.in_source {e : Expr Rule} {l : Layout} {k : Look} {c c' : Cursor} {xs : List (Parse Rule)} {source : Text}
    (h : Eval document e l k c (some (c', xs))) (hc : c.In source) : c'.In source := by
  obtain ⟨u, hu, -⟩ := h.past document_bounded.empty _ rfl
  exact hc.past hu

theorem neat_skip (l : Layout) : (document.skip l).neat true = true := by
  cases l with
  | spaced => decide
  | compact => rfl
  | token => rfl

/-- A rule's body begins where the rule was called, and is ready if only calls where it is ready are made. -/
theorem Ready.inside {r : Rule} {l : Layout} {c : Cursor} (h : Ready l c) (hr : r.calledSettled = true) :
    Ready ((document.style r).inside l) c := by
  intro hl
  cases hs : r.style with
  | plain => exact h (by rw [show document.style r = .plain from hs] at hl; exact hl)
  | silent => exact h (by rw [show document.style r = .silent from hs] at hl; exact hl)
  | token => rw [show document.style r = .token from hs] at hl; cases hl
  | compact => rw [show document.style r = .compact from hs] at hl; cases hl
  | spaced => rw [Rule.calledSettled, hs] at hr; cases hr

theorem inside_ne_token {s : Style} {l : Layout} (hs : s ≠ .token) (hl : s.around l ≠ .token) : s.inside l ≠ .token := by
  cases s with
  | token => exact absurd rfl hs
  | plain => exact hl
  | silent => exact hl
  | compact => exact hl
  | spaced => exact hl

theorem around_ne_token {s : Style} {l : Layout} (hl : l ≠ .token) : s.around l ≠ .token := by
  cases s with
  | plain => exact hl
  | silent => exact hl
  | token => exact hl
  | compact => exact Layout.noConfusion
  | spaced => exact Layout.noConfusion

/-- A node that was matched where its rule is ready, from the match of the body. -/
theorem firm_treesOf {source : Text} {r : Rule} {l : Layout} {c c' : Cursor} {xs : List (Parse Rule)}
    (hc : c.In source) (hall : Parse.FirmAll source xs)
    (hbody : (document.style r).inside l ≠ .token →
      (document.body r).firm Rule.mayBeEmpty Rule.beginsFirm r.calledSettled = true → Firmly c (c', xs)) :
    Parse.FirmAll source (treesOf (document.style r) l .here r c c' xs) := by
  unfold treesOf
  split
  · next hleaves =>
    have haround : (document.style r).around l ≠ .token := by
      intro h
      rw [Style.leaves, h] at hleaves
      cases hleaves
    refine ⟨⟨fun hr hp => ?_, hall⟩, trivial⟩
    exact (hbody (inside_ne_token (r.style_of_isInner hr) haround) (r.firm_body hr hp)).begins hc
  · exact hall

theorem firmly_treesOf {r : Rule} {l : Layout} {c c' : Cursor} {xs : List (Parse Rule)} (hl : l ≠ .token)
    (hs : document.style r ≠ .silent) (hr : r.beginsFirm = true) :
    Firmly c (c', treesOf (document.style r) l .here r c c' xs) := by
  have hleaves : (document.style r).leaves l .here = true := by
    have := around_ne_token (s := document.style r) hl
    simp [Style.leaves, this]
  obtain ⟨k, hk⟩ := Option.isSome_iff_exists.1 (r.kind_of_beginsFirm hs hr)
  refine .inr (.inl ⟨.node k ⟨c.offset, c'.offset⟩ (if k.isLeaf then [] else Tree.namedAll xs), ?_, rfl⟩)
  rw [treesOf, if_pos hleaves, Tree.namedAll, Tree.named, hk]
  rfl

/-- **Matches begin well, and so do all nodes in them.** -/
theorem Eval.firm {source : Text} {e : Expr Rule} {l : Layout} {k : Look} {c : Cursor} {o : Result Rule}
    (h : Eval document e l k c o) : k = .here → ∀ m, o = some m → c.In source → ∀ settled, e.neat settled = true →
    (settled = true → Ready l c) →
    Parse.FirmAll source m.2 ∧
      (l ≠ .token → e.firm Rule.mayBeEmpty Rule.beginsFirm settled = true → Firmly c m) := by
  rintro hk ⟨c', xs⟩ rfl hc
  induction h using Eval.match_induction with
  | @word w _ _ _ _ _ hw =>
    intro settled _ _
    refine ⟨trivial, fun _ hf => ?_⟩
    have hpast := Cursor.Past.word hw
    cases w with
    | nil => exact .inl ⟨hpast.eq_of_nil, rfl⟩
    | cons y w =>
      refine .inr (.inr fun x hx => ?_)
      rw [hpast.rest] at hx
      obtain rfl : y = x := by simpa using hx
      simpa [Expr.firm] using hf
  | one => exact fun _ _ _ => ⟨trivial, fun _ hf => by cases hf⟩
  | @seq p q l k c c₁ c₂ c₃ xs ys zs _ hp hs hq ihp ihs ihq =>
    intro settled hneat hready
    rw [Expr.neat, Bool.and_eq_true] at hneat
    obtain ⟨hxs, hpf⟩ := ihp hk hc settled hneat.1 hready
    obtain ⟨hys, -⟩ := ihs hk (hp.in_source hc) true (neat_skip _) fun _ h => by cases h
    obtain ⟨hzs, hqf⟩ := ihq hk (hs.in_source (hp.in_source hc)) true hneat.2 fun _ => Ready.of_skip hs
    refine ⟨hxs.append (hys.append hzs), fun hl hf => ?_⟩
    rw [Expr.firm, Bool.and_eq_true] at hf
    by_cases hnothing : c₁ = c ∧ Tree.namedAll xs = []
    · -- the first part took nothing, and neither does the layout behind it
      obtain ⟨rfl, hnil⟩ := hnothing
      have hempty : p.mayBeEmpty Rule.mayBeEmpty = true := Bool.of_not_eq_false fun he => hp.moved he rfl
      rw [hempty, Bool.not_true, Bool.false_or, Bool.and_eq_true] at hf
      obtain ⟨-, rfl, hqfirm⟩ := hf
      cases (hready rfl).skip_eq hs
      have hq' := hqf hl hqfirm
      unfold Firmly at hq' ⊢
      rwa [Tree.namedAll_append, Tree.namedAll_append, hnil]
    · exact (hpf hl hf.1).append hnothing
  | altLeft _ ihp =>
    intro settled hneat hready
    rw [Expr.neat, Bool.and_eq_true] at hneat
    obtain ⟨hall, hfirm⟩ := ihp hk hc settled hneat.1 hready
    refine ⟨hall, fun hl hf => hfirm hl ?_⟩
    rw [Expr.firm, Bool.and_eq_true] at hf
    exact hf.1
  | altRight _ ihq =>
    intro settled hneat hready
    rw [Expr.neat, Bool.and_eq_true] at hneat
    obtain ⟨hall, hfirm⟩ := ihq hk hc settled hneat.2 hready
    refine ⟨hall, fun hl hf => hfirm hl ?_⟩
    rw [Expr.firm, Bool.and_eq_true] at hf
    exact hf.2
  | optSome _ ihp => exact ihp hk hc
  | manySome hp hm ihp ihm =>
    intro settled hneat hready
    rw [Expr.neat, Bool.and_eq_true] at hneat
    obtain ⟨hxs, hpf⟩ := ihp hk hc settled hneat.1 hready
    obtain ⟨hys, -⟩ := ihm hk (hp.in_source hc) false hneat.2 fun h => by cases h
    refine ⟨hxs.append hys, fun hl hf => ?_⟩
    rw [Expr.firm, Bool.and_eq_true] at hf
    exact (hpf hl hf.1).append fun h => hp.moved (by simpa using hf.2) h.1
  | moreSome hs hp hm ihs ihp ihm =>
    intro settled hneat hready
    rw [Expr.neat] at hneat
    obtain ⟨hxs, -⟩ := ihs hk hc true (neat_skip _) fun _ h => by cases h
    obtain ⟨hys, hpf⟩ := ihp hk (hs.in_source hc) true hneat fun _ => Ready.of_skip hs
    obtain ⟨hzs, -⟩ := ihm hk (hp.in_source (hs.in_source hc)) false hneat fun h => by cases h
    refine ⟨hxs.append (hys.append hzs), fun hl hf => ?_⟩
    rw [Expr.firm, Bool.and_eq_true, Bool.and_eq_true] at hf
    obtain ⟨⟨rfl, hpfirm⟩, hne⟩ := hf
    cases (hready rfl).skip_eq hs
    exact (hpf hl hpfirm).append fun h => hp.moved (by simpa using hne) h.1
  | @silent r _ _ _ _ _ _ hs _ ih =>
    intro settled hneat hready
    obtain rfl : settled = true := hneat
    have hneat := r.neat_body
    rw [r.calledSettled_of_silent hs] at hneat
    obtain ⟨hall, hfirm⟩ := ih hk hc true hneat hready
    refine ⟨hall, fun hl hf => hfirm hl (r.firm_silent hs ?_)⟩
    simpa [Expr.firm] using hf
  | @node r _ _ _ _ _ _ hs _ ih =>
    intro settled hneat hready
    subst hk
    obtain rfl : settled = true := hneat
    obtain ⟨hall, hfirm⟩ := ih rfl hc r.calledSettled r.neat_body fun hr => (hready rfl).inside hr
    refine ⟨firm_treesOf hc hall hfirm, fun hl hf => firmly_treesOf hl hs ?_⟩
    simpa [Expr.firm] using hf
  | _ => exact fun _ _ _ => ⟨trivial, fun _ _ => .inl ⟨rfl, rfl⟩⟩

end InlineMarkup.Grammar
