import InlineMarkup.Proofs.Attributes
import InlineMarkup.Proofs.Index
import InlineMarkup.Proofs.Origins
import InlineMarkup.Proofs.TagCheck
/-!
# Proofs.Unwrapping — what an expression stands for

The rules of the nodes that may wrap another one have no characters of their own, save the two parentheses of one of
them (`row_wrapper`, `row_parens`).  So the children of such a node are nodes, with a parenthesis before and behind them
or none (`parse_enclosed`), and around a single operand it adds comments and a pair of parentheses at most
(`envelope_operand`).  By induction over the wrappers that are looked through, nothing else is lost between an expression
and what it stands for, neither among the leaves nor in what is written for it (`unwrap_transparent`).
-/
namespace InlineMarkup

open Text (bytes isBlank isLayout)

namespace Grammar

/-! ## The rows of wrappers -/

/-- The row consists of nodes with layout between them. -/
def Bare (a : List (Char ⊕ Rule)) : Prop :=
  (∀ x, .inl x ∈ a → isLayout x = true) ∧ ∀ r, .inr r ∈ a → (Kind.ofRule? r).isSome = true ∧ r ≠ .program

theorem Bare.append {a b : List (Char ⊕ Rule)} (ha : Bare a) (hb : Bare b) : Bare (a ++ b) :=
  ⟨fun x hx => (List.mem_append.1 hx).elim (ha.1 x) (hb.1 x), fun r hr => (List.mem_append.1 hr).elim (ha.2 r) (hb.2 r)⟩

/-- The rule makes a node, or stands for rules that do. -/
def Rule.makesNode (r : Rule) : Bool :=
  (Kind.ofRule? r).isSome && r != .program || r ∈ [Rule.primary, .postfixOp]

theorem Yields.bare {e : Expr Rule} {l : Layout} {a : List (Char ⊕ Rule)} (h : Yields document e l a) (hl : l ≠ .token)
    (he : e.made isLayout Rule.makesNode = true) : Bare a := by
  have hsilent : ∀ r ∈ Rule.all, r.makesNode = true → document.style r = .silent →
      (document.body r).made isLayout Rule.makesNode = true := by
    decide
  have hnode : ∀ r ∈ Rule.all, r.makesNode = true → document.style r ≠ .silent →
      (Kind.ofRule? r).isSome = true ∧ r ≠ .program := by
    decide
  obtain ⟨hchars, hrules⟩ := h.made (by decide) (fun r => hsilent r r.mem_all) hl he
  refine ⟨hchars, fun r hr => ?_⟩
  obtain ⟨hmakes, hs⟩ := hrules r hr
  exact hnode r r.mem_all hmakes hs

theorem Yields.bare_skip {l : Layout} {a : List (Char ⊕ Rule)} (h : Yields document (document.skip l) .compact a) :
    Bare a := by
  refine h.bare (by decide) ?_
  cases l with
  | spaced => exact (by decide : document.layout.made isLayout Rule.makesNode = true)
  | compact => rfl
  | token => rfl

theorem row_wrapper {r : Rule} (hr : r = .expression ∨ r = .unary ∨ r = .postfixed) {l : Layout}
    {a : List (Char ⊕ Rule)} (h : Yields document (document.body r) l a) (hl : l ≠ .token) : Bare a := by
  refine h.bare hl ?_
  rcases hr with rfl | rfl | rfl <;> decide

theorem row_parens {l : Layout} {a : List (Char ⊕ Rule)} (h : Yields document (document.body .parenExpr) l a)
    (hl : l ≠ .token) : ∃ b, a = .inl '(' :: (b ++ [.inl ')']) ∧ .inr .expression ∈ b ∧ Bare b := by
  cases h with
  | @seq _ _ _ _ s₁ _ hopen hs₁ h =>
    cases hopen
    cases h with
    | @seq _ _ _ n₁ s₂ _ hn₁ hs₂ h =>
      cases h with
      | @seq _ _ _ e s₃ _ he hs₃ h =>
        cases h with
        | @seq _ _ _ n₂ s₄ _ hn₂ hs₄ hclose =>
          cases hclose
          have hnewlines : Expr.made isLayout Rule.makesNode DocExpr.newlines = true := by decide
          have hrow := he.rule_eq hl (by decide)
          have hbare := he.bare hl (by decide)
          refine ⟨s₁ ++ (n₁ ++ (s₂ ++ (e ++ (s₃ ++ (n₂ ++ s₄))))), by simp, by simp [hrow], ?_⟩
          exact hs₁.bare_skip.append ((hn₁.bare hl hnewlines).append (hs₂.bare_skip.append
            (hbare.append (hs₃.bare_skip.append ((hn₂.bare hl hnewlines).append hs₄.bare_skip)))))

end Grammar

open Grammar

namespace Tree

variable {source : Text}

/-! ## The children of wrappers -/

/-- **No tokens stand between the nodes of a bare row**, with layout `w` before it; those behind the last node begin where
nothing but layout of the row is left. -/
theorem withTokens_bare : ∀ (ps : List (Piece Rule)) (pre w post : Text),
    source = pre ++ (w ++ (textOf ps ++ post)) → (∀ c ∈ w, isLayout c = true) → (∀ x, .char x ∈ ps → isLayout x = true) →
    Placed (EndsIn source) (bytes (pre ++ w)) ps →
    ∃ v lay, w ++ textOf ps = v ++ lay ∧ (∀ c ∈ lay, isLayout c = true) ∧ ∀ stop,
      withTokens source stop (bytes pre) ((namedAll (treesIn ps)).map (finished source)) =
        (namedAll (treesIn ps)).map (finished source) ++ tokenTrees source (bytes pre + bytes v) stop
  | [], pre, w, post, _, hw, _, _ => ⟨[], w, by simp, hw, fun stop => rfl⟩
  | .char x :: ps, pre, w, post, hsrc, hw, hchars, hplaced => by
    have hx := hchars x List.mem_cons_self
    obtain ⟨v, lay, hv, hlay, htokens⟩ := withTokens_bare ps pre (w ++ [x]) post (by simp [hsrc, Piece.text])
      (fun c hc => (List.mem_append.1 hc).elim (hw c) fun hc => by rwa [List.mem_singleton.1 hc])
      (fun y hy => hchars y (List.mem_cons_of_mem _ hy))
      (by rw [← List.append_assoc, Text.bytes_append]; exact hplaced)
    exact ⟨v, lay, by simpa [Piece.text] using hv, hlay, htokens⟩
  | .tree p u :: ps, pre, w, post, hsrc, hw, hchars, hplaced => by
    obtain ⟨⟨t, v', w', ht, rfl, hw', hspan⟩, hrest⟩ := hplaced
    obtain ⟨v, lay, hv, hlay, htokens⟩ := withTokens_bare ps (pre ++ w ++ v') w' post (by simp [hsrc, Piece.text]) hw'
      (fun y hy => hchars y (List.mem_cons_of_mem _ hy))
      (by rw [List.append_assoc (pre ++ w), Text.bytes_append]; exact hrest)
    refine ⟨w ++ v' ++ v, lay, by simp [Piece.text, hv], hlay, fun stop => ?_⟩
    have hnone : tokenTrees source (bytes pre) (bytes (pre ++ w)) = [] := by
      rw [Text.bytes_append]
      exact tokenTrees_layout hsrc hw
    have hcursor : max (bytes pre) (bytes (pre ++ w) + bytes v') = bytes (pre ++ w ++ v') := by
      rw [Text.bytes_append (pre ++ w), Text.bytes_append pre]
      omega
    rw [treesIn_tree, namedAll, ht, List.singleton_append, List.map_cons, withTokens, hspan, hnone, hcursor, htokens]
    simp [Nat.add_assoc]

theorem withTokens_first {stop cursor : Nat} {t : Tree} {ts : List Tree} (hcursor : cursor ≤ t.span.start)
    (hspan : t.span.start ≤ t.span.stop) :
    withTokens source stop cursor (t :: ts) =
      tokenTrees source cursor t.span.start ++ withTokens source stop t.span.start (t :: ts) := by
  rw [withTokens, withTokens, tokenTrees_eq_nil (Nat.le_refl _), Nat.max_eq_right hspan,
    Nat.max_eq_right (Nat.le_trans hcursor hspan), List.nil_append]

theorem children_finished {k : Kind} (hl : k.isLeaf = false) (s : Span) (cs : List Tree) :
    ((Tree.node k s cs).finished source).children =
      withTokens source ((Tree.node k s cs).finished source).span.stop ((Tree.node k s cs).finished source).span.start
        (cs.map (finished source)) := by
  rw [finished_node, children, hl, if_neg Bool.false_ne_true]
  rfl

theorem kind_ne_token {ps : List (Parse Rule)} : ∀ t ∈ (namedAll ps).map (finished source), t.kind ≠ .token := by
  intro t ht hk
  obtain ⟨d, hd, rfl⟩ := List.mem_map.1 ht
  obtain ⟨⟨r, start, stop, inner⟩, -, hp⟩ := mem_namedAll.1 hd
  obtain ⟨k, hr, rfl⟩ := mem_named.1 hp
  rw [kind_finished] at hk
  obtain rfl : k = .token := hk
  exact (by decide : ∀ r ∈ Rule.all, Kind.ofRule? r ≠ some .token) r r.mem_all hr

/-- The children are nodes, with a parenthesis before and behind them or none. -/
def Enclosed (source : Text) (cs : List Tree) : Prop :=
  (∀ d ∈ cs, d.kind ≠ .token) ∨
    ∃ o ds z, cs = o :: (ds ++ [z]) ∧ o.isToken source ['('] = true ∧ z.isToken source [')'] = true ∧
      ∀ d ∈ ds, d.kind ≠ .token

theorem exists_between {ps : List (Piece Rule)} {b : List (Char ⊕ Rule)} {x y : Char}
    (h : ps.map Piece.letter = .inl x :: (b ++ [.inl y])) :
    ∃ qs, ps = .char x :: (qs ++ [.char y]) ∧ qs.map Piece.letter = b := by
  obtain ⟨q, rest, rfl, hq, hrest⟩ := List.map_eq_cons_iff.1 h
  obtain ⟨qs, last, rfl, hqs, hlast⟩ := List.map_eq_append_iff.1 hrest
  obtain ⟨q', rfl, hq'⟩ := List.map_eq_singleton_iff.1 hlast
  exact ⟨qs, by rw [Piece.eq_char hq, Piece.eq_char hq'], hqs⟩

/-- What is left of a row behind its nodes, up to the end of the node that the row makes. -/
theorem tokenTrees_behind {pre v lay x w post : Text} (hsrc : source = pre ++ (x ++ w ++ post)) (h : x ++ w = v ++ lay)
    (hlay : ∀ c ∈ lay, isLayout c = true) : tokenTrees source (bytes pre + bytes v) (bytes pre + bytes x) = [] := by
  rcases List.append_eq_append_iff.1 h with ⟨y, rfl, -⟩ | ⟨y, rfl, rfl⟩
  · refine tokenTrees_eq_nil ?_
    rw [Text.bytes_append]
    omega
  · rw [Text.bytes_append v, ← Nat.add_assoc, ← Text.bytes_append]
    exact tokenTrees_layout (by simpa using hsrc) fun c hc => hlay c (List.mem_append_left _ hc)

theorem enclosed_bare {pre post : Text} {ps : List (Piece Rule)} (hsrc : source = pre ++ (textOf ps ++ post))
    (hbare : Bare (ps.map Piece.letter)) (hplaced : Placed (EndsIn source) (bytes pre) ps) {x w : Text}
    (hx : textOf ps = x ++ w) :
    Enclosed source (withTokens source (bytes pre + bytes x) (bytes pre) ((namedAll (treesIn ps)).map (finished source))) := by
  obtain ⟨v, lay, hv, hlay, htokens⟩ := withTokens_bare ps pre [] post hsrc (fun c hc => by cases hc)
    (fun y hy => hbare.1 y (List.mem_map.2 ⟨_, hy, rfl⟩)) (by rwa [List.append_nil])
  rw [htokens, tokenTrees_behind (by rw [← hx]; exact hsrc) (hx.symm.trans hv) hlay, List.append_nil]
  exact .inl kind_ne_token

/-- A row in parentheses, from its first node on. -/
theorem enclosed_between {pre w post : Text} {p : Parse Rule} {u : Text} {ps : List (Piece Rule)}
    (hsrc : source = (pre ++ '(' :: w) ++ (textOf (.tree p u :: ps) ++ ')' :: post)) (hw : ∀ c ∈ w, isLayout c = true)
    (hchars : ∀ x, .char x ∈ Piece.tree p u :: ps → isLayout x = true)
    (hplaced : Placed (EndsIn source) (bytes (pre ++ '(' :: w)) (.tree p u :: ps)) :
    Enclosed source (withTokens source (bytes (pre ++ '(' :: w ++ (textOf (.tree p u :: ps) ++ [')']))) (bytes pre)
      ((namedAll (treesIn (.tree p u :: ps))).map (finished source))) := by
  obtain ⟨v, lay, hv, hlay, htokens⟩ := withTokens_bare (.tree p u :: ps) (pre ++ '(' :: w) [] (')' :: post) hsrc
    (fun c hc => by cases hc) hchars (by rwa [List.append_nil])
  have hv : textOf (.tree p u :: ps) = v ++ lay := hv
  obtain ⟨t, x, y, ht, -, -, hspan⟩ := hplaced.1
  have hnodes : (namedAll (treesIn (.tree p u :: ps))).map (finished source) =
      t.finished source :: (namedAll (treesIn ps)).map (finished source) := by
    rw [treesIn_tree, namedAll, ht]
    rfl
  obtain ⟨o, ho, hopen⟩ := tokenTrees_lone (x := '(') (w := []) (by decide) hsrc (fun c hc => by cases hc) hw
  obtain ⟨z, hz, hclose⟩ := tokenTrees_lone (x := ')') (v := []) (by decide)
    (show source = (pre ++ '(' :: w ++ v) ++ (lay ++ [')']) ++ post by rw [hsrc, hv]; simp) hlay (fun c hc => by cases hc)
  refine .inr ⟨o, (namedAll (treesIn (.tree p u :: ps))).map (finished source), z, ?_, hopen, hclose, kind_ne_token⟩
  have hfirst : bytes pre ≤ bytes (pre ++ '(' :: w) := by
    rw [Text.bytes_append]
    omega
  have hstop : bytes (pre ++ '(' :: w ++ (textOf (.tree p u :: ps) ++ [')'])) =
      bytes (pre ++ '(' :: w ++ v ++ (lay ++ [')'])) := by
    rw [hv]
    simp
  have hstart : (t.finished source).span.start = bytes (pre ++ '(' :: w) := by rw [hspan]
  have ho : tokenTrees source (bytes pre) (bytes (pre ++ '(' :: w)) = [o] := ho
  rw [hnodes, withTokens_first (by rwa [hstart]) (by rw [hspan]; exact Nat.le_add_right _ _), hstart, ho, ← hnodes, htokens,
    ← Text.bytes_append, hstop, hz]
  rfl

theorem enclosed_parens {pre post : Text} {ps : List (Piece Rule)} {b : List (Char ⊕ Rule)}
    (hsrc : source = pre ++ (textOf ps ++ post)) (hrow : ps.map Piece.letter = .inl '(' :: (b ++ [.inl ')']))
    (hexpr : .inr .expression ∈ b) (hbare : Bare b) (hplaced : Placed (EndsIn source) (bytes pre) ps) {x v : Text}
    (hx : textOf ps = x ++ v) (hv : ∀ c ∈ v, isLayout c = true) :
    Enclosed source (withTokens source (bytes pre + bytes x) (bytes pre) ((namedAll (treesIn ps)).map (finished source))) := by
  obtain ⟨qs, rfl, rfl⟩ := exists_between hrow
  -- the text ends with a parenthesis, which is not layout
  obtain rfl : v = [] := by
    rcases List.eq_nil_or_concat v with hnil | ⟨v, c, rfl⟩
    · exact hnil
    · have hlast : ('(' :: textOf qs) ++ [')'] = (x ++ v) ++ [c] := by simpa [Piece.text] using hx
      obtain rfl : ')' = c := by simpa using (List.append_inj_right' hlast rfl)
      cases hv ')' (by simp)
  rw [List.append_nil] at hx
  obtain ⟨p, hp, -⟩ := mem_letters.1 hexpr
  obtain ⟨w, p, u, more, rfl⟩ := exists_first_tree (List.ne_nil_of_mem hp)
  have hw : ∀ c ∈ w, isLayout c = true := fun c hc => hbare.1 c (by simp [Piece.letter, hc])
  have hmore : ∀ x, .char x ∈ Piece.tree p u :: more → isLayout x = true := fun x hx =>
    hbare.1 x (List.mem_map.2 ⟨_, List.mem_append_right _ hx, rfl⟩)
  have hrest : Placed (EndsIn source) (bytes (pre ++ '(' :: w)) (.tree p u :: more) := by
    have hsplit : Placed (EndsIn source) (bytes pre) (('(' :: w).map .char ++ (.tree p u :: more ++ [.char ')'])) := by
      simpa using hplaced
    rw [placed_append, textOf_map_char, ← Text.bytes_append, placed_append] at hsplit
    exact hsplit.2.1
  have hsplit : source = (pre ++ '(' :: w) ++ (textOf (.tree p u :: more) ++ ')' :: post) := by
    simpa [Piece.text, textOf_map_char] using hsrc
  have henclosed := enclosed_between hsplit hw hmore hrest
  rw [← hx]
  convert henclosed using 2
  · simp [Piece.text, textOf_map_char]
  · simp [treesIn_map_char]

theorem placed_endsIn {pre post : Text} {ps : List (Piece Rule)} (hsrc : source = pre ++ (textOf ps ++ post))
    (hlaid : Placed (Laid document) (bytes pre) ps) (hfirm : Parse.FirmAll source (treesIn ps))
    (hnodes : ∀ r, .inr r ∈ ps.map Piece.letter → (Kind.ofRule? r).isSome = true ∧ r ≠ .program) :
    Placed (EndsIn source) (bytes pre) ps := by
  refine (placed_iff _ _ _).2 fun before p u after hps => ?_
  have hp := (placed_iff _ _ _).1 hlaid before p u after hps
  obtain ⟨hk, hprogram⟩ := hnodes p.rule (by simp [hps, Piece.letter])
  rw [← Text.bytes_append] at hp ⊢
  have hsplit : source = (pre ++ textOf before) ++ (u ++ (textOf after ++ post)) := by
    rw [hsrc, hps]
    simp [Piece.text]
  exact endsIn_of_laid hsplit hp (hfirm.mem (by simp [hps])) hk hprogram

theorem rule_of_wraps {r : Rule} {k : Kind} (hr : Kind.ofRule? r = some k) (hk : Lowering.wraps k = true) :
    (r = .expression ∨ r = .unary ∨ r = .postfixed) ∨ r = .parenExpr :=
  (by decide : ∀ r ∈ Rule.all, ((Kind.ofRule? r).any Lowering.wraps) = true →
    (r = .expression ∨ r = .unary ∨ r = .postfixed) ∨ r = .parenExpr) r r.mem_all (by rw [hr]; exact hk)

theorem inner_of_wraps {k : Kind} (h : Lowering.wraps k = true) : k.isLeaf = false ∧ k ≠ .element := by
  revert h
  cases k <;> decide

/-- **The children of a wrapper**: nodes, and a pair of parentheses around them at most. -/
theorem enclosed_of_laid {pre u post : Text} (hsrc : source = pre ++ (u ++ post)) {p : Parse Rule}
    (h : Laid document (bytes pre) u p) (hfirm : p.Firm source) {t : Tree} (ht : t ∈ named p)
    (hk : Lowering.wraps t.kind = true) : Enclosed source (t.finished source).children := by
  have hends := endsIn_of_laid hsrc h hfirm
  generalize hoff : bytes pre = off at h
  cases h with
  | @node r l _ ps left yields below =>
    subst hoff
    obtain ⟨k, hr, rfl⟩ := mem_named.1 ht
    have hk : Lowering.wraps k = true := hk
    have hinner := (inner_of_wraps hk).1
    have hrule := rule_of_wraps hr hk
    have hplain : (document.style r) ≠ .token ∧ r ≠ .program := by
      rcases hrule with (rfl | rfl | rfl) | rfl <;> decide
    have hl := inside_ne_token hplain.1 left
    have hsome : (Kind.ofRule? r).isSome = true := by
      rw [hr]
      rfl
    obtain ⟨t, x, w, hnamed, hx, hw, hspan⟩ := hends hsome hplain.2
    rw [hnamed, List.mem_singleton] at ht
    rw [Parse.Firm] at hfirm
    rw [← ht, hinner, if_neg Bool.false_ne_true] at hspan
    rw [hinner, if_neg Bool.false_ne_true, children_finished hinner, hspan]
    have hplaced := placed_endsIn hsrc ((placed_iff _ _ _).2 below) hfirm.2
    rcases hrule with hrule | rfl
    · have hbare := row_wrapper hrule yields hl
      exact enclosed_bare hsrc hbare (hplaced hbare.2) hx
    · obtain ⟨b, hrow, hexpr, hbare⟩ := row_parens yields hl
      refine enclosed_parens hsrc hrow hexpr hbare (hplaced fun r hr => hbare.2 r ?_) hx hw
      rw [hrow] at hr
      simpa using hr

end Tree

theorem parse_enclosed {doc : Document} {c : Cst} (h : doc.parse = .ok c) {t : Tree} (ht : t ∈ c.tree.nodes)
    (hk : Lowering.wraps t.kind = true) : Tree.Enclosed doc.text t.children := by
  rcases parse_laid h ht with htoken | ⟨pre, u, post, p, v, hsrc, hlaid, hfirm, hv, rfl⟩
  · rw [htoken.kind] at hk
    cases hk
  · rw [Tree.kind_finished] at hk
    exact Tree.enclosed_of_laid hsrc hlaid hfirm hv hk

/-! ## A single operand -/

namespace Lowering

variable {source : Text}

/-- What stands around an operand: comments and parentheses, as many of them opened before it as closed behind it. -/
structure Padding (source : Text) (before behind : List Tree) : Prop where
  opening : ∀ d ∈ before, d.kind = .comment ∨ d.isToken source ['('] = true
  closing : ∀ d ∈ behind, d.kind = .comment ∨ d.isToken source [')'] = true
  balanced : before.countP (·.isToken source ['(']) = behind.countP (·.isToken source [')'])

namespace Padding

theorem nil : Padding source [] [] := ⟨by simp, by simp, rfl⟩

theorem append {before behind before' behind' : List Tree} (h : Padding source before behind)
    (h' : Padding source before' behind') : Padding source (before ++ before') (behind' ++ behind) := by
  refine ⟨fun d hd => ?_, fun d hd => ?_, ?_⟩
  · exact (List.mem_append.1 hd).elim (h.opening d) (h'.opening d)
  · exact (List.mem_append.1 hd).elim (h'.closing d) (h.closing d)
  · rw [List.countP_append, List.countP_append, h.balanced, h'.balanced, Nat.add_comm]

theorem comments {before behind : List Tree} (hb : ∀ d ∈ before, d.kind = .comment)
    (he : ∀ d ∈ behind, d.kind = .comment) : Padding source before behind := by
  have hnone : ∀ {ds : List Tree} {w : Text}, (∀ d ∈ ds, d.kind = .comment) → ds.countP (·.isToken source w) = 0 := by
    intro ds w hds
    refine List.countP_eq_zero.2 fun d hd => ?_
    simp [Tree.isToken, hds d hd]
  exact ⟨fun d hd => .inl (hb d hd), fun d hd => .inl (he d hd), by rw [hnone hb, hnone he]⟩

theorem parens {o z : Tree} (ho : o.isToken source ['('] = true) (hz : z.isToken source [')'] = true) :
    Padding source [o] [z] := by
  refine ⟨fun d hd => ?_, fun d hd => ?_, ?_⟩
  · rw [List.mem_singleton.1 hd]
    exact .inr ho
  · rw [List.mem_singleton.1 hd]
    exact .inr hz
  · simp [ho, hz]

/-- What stands around an operand has nothing below it. -/
theorem leaf {before behind : List Tree} (h : Padding source before behind) {d : Tree} (hd : d ∈ before ++ behind) :
    d.kind.isLeaf = true := by
  have hkind : ∀ {d : Tree} {w : Text}, d.kind = .comment ∨ d.isToken source w = true → d.kind.isLeaf = true := by
    rintro d w (hk | htoken)
    · rw [hk]
      rfl
    · rw [Tree.isToken, Bool.and_eq_true, beq_iff_eq] at htoken
      rw [htoken.1]
      rfl
  exact (List.mem_append.1 hd).elim (fun hd => hkind (h.opening d hd)) (fun hd => hkind (h.closing d hd))

end Padding

/-- Neither a comment nor a parenthesis. -/
def isOperand (source : Text) (c : Tree) : Bool :=
  c.kind != .comment && !c.isToken source ['('] && !c.isToken source [')']

theorem singleOperand?_eq_some {t c : Tree} (h : singleOperand? source t = some c) :
    t.children.filter (isOperand source) = [c] := by
  unfold singleOperand? at h
  split at h
  · next d hd =>
    obtain rfl : d = c := Option.some.inj h
    exact hd
  · cases h

/-- The only operand among nodes that are no tokens has comments around it. -/
theorem exists_comments {ds : List Tree} {c : Tree} (hds : ∀ d ∈ ds, d.kind ≠ .token)
    (h : ds.filter (isOperand source) = [c]) :
    ∃ before behind, ds = before ++ c :: behind ∧ Padding source before behind := by
  obtain ⟨before, behind, rfl, hbefore, -, hbehind⟩ := List.filter_eq_cons_iff.1 h
  have hcomment : ∀ d ∈ before ++ c :: behind, ¬ isOperand source d = true → d.kind = .comment := by
    intro d hd hnot
    by_contra hk
    exact hnot (by simp [isOperand, Tree.isToken, hk, hds d hd])
  refine ⟨before, behind, rfl, .comments (fun d hd => ?_) fun d hd => ?_⟩
  · exact hcomment d (List.mem_append_left _ hd) (hbefore d hd)
  · exact hcomment d (by simp [hd]) (List.filter_eq_nil_iff.1 hbehind d hd)

theorem exists_padding {t c : Tree} (henclosed : Tree.Enclosed source t.children) (h : singleOperand? source t = some c) :
    ∃ before behind, t.children = before ++ c :: behind ∧ Padding source before behind := by
  have hoperand := singleOperand?_eq_some h
  rcases henclosed with hnodes | ⟨o, ds, z, hchildren, ho, hz, hnodes⟩
  · exact exists_comments hnodes hoperand
  · have hfilter : ds.filter (isOperand source) = [c] := by
      rw [hchildren, List.filter_cons_of_neg (by simp [isOperand, ho]), List.filter_append,
        List.filter_cons_of_neg (by simp [isOperand, hz]), List.filter_nil, List.append_nil] at hoperand
      exact hoperand
    obtain ⟨before, behind, rfl, hpadding⟩ := exists_comments hnodes hfilter
    exact ⟨[o] ++ before, behind ++ [z], by rw [hchildren]; simp, (Padding.parens ho hz).append hpadding⟩

/-! ## What is written around an operand -/

section Weave

open Text (BlankJoined)

theorem joined_weaveAfter (source : Text) : ∀ (previous : Tree) (xs : List (Tree × Text)),
    BlankJoined (xs.map Prod.snd) (weaveAfter source previous xs)
  | _, [] => by simp [weaveAfter, BlankJoined]
  | previous, (t, written) :: xs => by
    rw [weaveAfter, List.append_assoc]
    exact ⟨joint source previous t, weaveAfter source t xs, rfl, joint_blank source previous t, joined_weaveAfter source t xs⟩

/-- What is written for one of several siblings has blanks around it, and what is written for the others. -/
theorem weaveAfter_around (source : Text) (c : Tree) : ∀ (previous : Tree) (xs : List (Tree × Text)),
    ∃ x, BlankJoined (xs.map Prod.snd) x ∧ ∀ w ys,
      weaveAfter source previous (xs ++ (c, w) :: ys) = x ++ (w ++ weaveAfter source c ys)
  | previous, [] => by
    refine ⟨joint source previous c, joint_blank source previous c, fun w ys => ?_⟩
    rw [List.nil_append, weaveAfter, List.append_assoc]
  | previous, (t, written) :: xs => by
    obtain ⟨x, hx, hweave⟩ := weaveAfter_around source c t xs
    refine ⟨joint source previous t ++ (written ++ x), ⟨_, _, rfl, joint_blank source previous t, hx⟩, fun w ys => ?_⟩
    rw [List.cons_append, weaveAfter, hweave]
    simp

theorem weave_around (source : Text) (c : Tree) (xs ys : List (Tree × Text)) :
    ∃ x y, BlankJoined (xs.map Prod.snd) x ∧ BlankJoined (ys.map Prod.snd) y ∧ ∀ w,
      weave source (xs ++ (c, w) :: ys) = x ++ (w ++ y) := by
  cases xs with
  | nil =>
    refine ⟨[], weaveAfter source c ys, by simp [BlankJoined], joined_weaveAfter source c ys, fun w => ?_⟩
    rw [List.nil_append, List.nil_append, weave]
  | cons first xs =>
    obtain ⟨t, written⟩ := first
    obtain ⟨x, hx, hweave⟩ := weaveAfter_around source c t xs
    refine ⟨written ++ x, weaveAfter source c ys, ⟨[], x, rfl, by simp, hx⟩, joined_weaveAfter source c ys, fun w => ?_⟩
    rw [List.cons_append, weave, hweave, List.append_assoc]

end Weave

/-- Going through a list where every item but one gives what `g` says. -/
theorem result_each_around {α β ε : Type} {f : α → Logged ε β} {g : α → β} {c : α} {ys : List α} :
    ∀ {xs : List α}, (∀ d ∈ xs ++ ys, (f d).result = .ok (g d)) →
    (Logged.each f (xs ++ c :: ys)).result = (f c).result.map fun w => xs.map g ++ w :: ys.map g
  | [], h => by
    have hys : (Logged.each f ys).result = .ok (ys.map g) := by
      rw [Logged.result_each_eq_ok, List.forall₂_map_right_iff, List.forall₂_same]
      exact h
    rw [List.nil_append, Logged.result_each_cons, hys]
    cases (f c).result with
    | error e => rfl
    | ok w => rfl
  | x :: xs, h => by
    rw [List.cons_append, Logged.result_each_cons, h x List.mem_cons_self,
      result_each_around fun d hd => h d (List.mem_cons_of_mem x hd)]
    cases (f c).result with
    | error e => rfl
    | ok w => rfl

/-- The outer tree stands around the inner one, `depth` levels below it.  The leaves that it has more are comments and
parentheses, and what is written for it is what is written for the inner one with these and blanks around. -/
structure Envelope (source : Text) (depth : Nat) (outer inner : Tree) (before behind : List Tree) : Prop where
  padding : Padding source before behind
  leaves : outer.leaves = before ++ (inner.leaves ++ behind)
  markup : outer.hasMarkup = inner.hasMarkup
  written : ∀ settings : Settings, ∃ x y, Text.BlankJoined (before.map (·.text source)) x ∧
    Text.BlankJoined (behind.map (·.text source)) y ∧ ∀ room,
      (Input.compose ⟨source, settings⟩ (room + depth + 1) outer).result =
        (Input.compose ⟨source, settings⟩ (room + 1) inner).result.map fun w => x ++ (w ++ y)

theorem Envelope.refl (source : Text) (t : Tree) : Envelope source 0 t t [] [] := by
  refine ⟨.nil, by simp, rfl, fun settings => ⟨[], [], by simp [Text.BlankJoined], by simp [Text.BlankJoined], ?_⟩⟩
  intro room
  cases (Input.compose ⟨source, settings⟩ (room + 1) t).result with
  | error e => rfl
  | ok w => exact congrArg Except.ok (List.append_nil w).symm

theorem Envelope.trans {m n : Nat} {outer middle inner : Tree} {before behind before' behind' : List Tree}
    (h : Envelope source m outer middle before behind) (h' : Envelope source n middle inner before' behind') :
    Envelope source (n + m) outer inner (before ++ before') (behind' ++ behind) := by
  refine ⟨h.padding.append h'.padding, ?_, h.markup.trans h'.markup, fun settings => ?_⟩
  · rw [h.leaves, h'.leaves]
    simp
  · obtain ⟨x, y, hx, hy, hwritten⟩ := h.written settings
    obtain ⟨x', y', hx', hy', hwritten'⟩ := h'.written settings
    refine ⟨x ++ x', y' ++ y, ?_, ?_, fun room => ?_⟩
    · rw [List.map_append]
      exact hx.append hx'
    · rw [List.map_append]
      exact hy'.append hy
    · rw [← Nat.add_assoc, hwritten, hwritten']
      cases (Input.compose ⟨source, settings⟩ (room + 1) inner).result with
      | error e => rfl
      | ok w => exact congrArg Except.ok (by simp)

end Lowering

namespace Tree

theorem SpreadAll.around {G : Gaps} {c : Tree} {behind : List Tree} : ∀ {before : List Tree} {off : Nat} {u : Text},
    SpreadAll G off u (before ++ c :: behind) → ∃ x v y, u = x ++ (v ++ y) ∧ SpreadAll G off x before ∧
      Spread G (off + bytes x) v c ∧ SpreadAll G (off + bytes x + bytes v) y behind
  | [], off, u, h => by
    rw [List.nil_append, SpreadAll] at h
    obtain ⟨g, v, w, rfl, hg, hc, hbehind⟩ := h
    exact ⟨g, v, w, rfl, by rwa [SpreadAll], hc, hbehind⟩
  | d :: before, off, u, h => by
    rw [List.cons_append, SpreadAll] at h
    obtain ⟨g, v, w, rfl, hg, hd, hrest⟩ := h
    obtain ⟨x, v', y, rfl, hbefore, hc, hbehind⟩ := hrest.around
    refine ⟨g ++ (v ++ x), v', y, by simp, .gap_append hg (.cons hd hbefore), ?_, ?_⟩
    · simpa [Nat.add_assoc] using hc
    · simpa [Nat.add_assoc] using hbehind

/-! ## Around an operand -/

/-- Nothing stands below the trees. -/
def Childless (ts : List Tree) : Prop := ∀ t ∈ ts, t.kind.isLeaf = true ∧ t.children = []

theorem Childless.nodesAll : ∀ {ts : List Tree}, Childless ts → Tree.nodesAll ts = ts
  | [], _ => rfl
  | .node k s cs :: ts, h => by
    have hcs : cs = [] := (h _ List.mem_cons_self).2
    have hts : Childless ts := fun t ht => h t (List.mem_cons_of_mem _ ht)
    rw [Tree.nodesAll, nodes, hcs, hts.nodesAll]
    rfl

theorem Childless.leaves {ts : List Tree} (h : Childless ts) : (Tree.nodesAll ts).filter (·.kind.isLeaf) = ts := by
  rw [h.nodesAll]
  exact List.filter_eq_self.2 fun t ht => (h t ht).1

theorem Childless.hasMarkup {ts : List Tree} (h : Childless ts) {t : Tree} (ht : t ∈ ts) : t.hasMarkup = false := by
  refine Bool.eq_false_iff.2 fun hmarkup => ?_
  obtain ⟨hleaf, hchildren⟩ := h t ht
  obtain ⟨u, hu, huk⟩ := hasMarkup_iff.1 hmarkup
  rw [mem_nodes_iff, hchildren] at hu
  rcases hu with rfl | ⟨v, hv, -⟩
  · rw [huk] at hleaf
    cases hleaf
  · cases hv

variable {t c : Tree} {before behind : List Tree}

theorem leaves_around (hl : t.kind.isLeaf = false) (hchildren : t.children = before ++ c :: behind)
    (hbefore : Childless before) (hbehind : Childless behind) : t.leaves = before ++ (c.leaves ++ behind) := by
  obtain ⟨k, s, cs⟩ := t
  obtain rfl : cs = before ++ c :: behind := hchildren
  unfold leaves
  rw [nodes, List.filter_cons_of_neg (by rw [hl]; exact Bool.false_ne_true), nodesAll_append, Tree.nodesAll,
    List.filter_append, List.filter_append, hbefore.leaves, hbehind.leaves]

theorem hasMarkup_around (hk : t.kind ≠ .element) (hchildren : t.children = before ++ c :: behind)
    (hbefore : Childless before) (hbehind : Childless behind) : t.hasMarkup = c.hasMarkup := by
  rw [Bool.eq_iff_iff, hasMarkup_iff, hasMarkup_iff]
  constructor
  · rintro ⟨u, hu, huk⟩
    rcases mem_nodes_iff.1 hu with rfl | ⟨v, hv, huv⟩
    · exact absurd huk hk
    have hmarkup : v.hasMarkup = true := hasMarkup_iff.2 ⟨u, huv, huk⟩
    rw [hchildren, List.mem_append, List.mem_cons] at hv
    rcases hv with hv | rfl | hv
    · rw [hbefore.hasMarkup hv] at hmarkup
      cases hmarkup
    · exact ⟨u, huv, huk⟩
    · rw [hbehind.hasMarkup hv] at hmarkup
      cases hmarkup
  · rintro ⟨u, hu, huk⟩
    have hmem : c ∈ t.children := by simp [hchildren]
    exact ⟨u, mem_nodes_iff.2 (.inr ⟨c, hmem, hu⟩), huk⟩

end Tree

namespace Lowering

variable {source : Text} {t c : Tree} {before behind : List Tree}

/-- What is composed for a node with one operand has blanks around it, and what stands around the operand. -/
theorem compose_around (hk : t.kind ≠ .element) (hmarkup : t.hasMarkup = true)
    (hchildren : t.children = before ++ c :: behind) (hbefore : Tree.Childless before) (hbehind : Tree.Childless behind)
    (settings : Settings) : ∃ x y, Text.BlankJoined (before.map (·.text source)) x ∧
      Text.BlankJoined (behind.map (·.text source)) y ∧ ∀ room,
        (Input.compose ⟨source, settings⟩ (room + 1 + 1) t).result =
          (Input.compose ⟨source, settings⟩ (room + 1) c).result.map fun w => x ++ (w ++ y) := by
  obtain ⟨x, y, hx, hy, hweave⟩ := weave_around source c (before.zip (before.map (·.text source)))
    (behind.zip (behind.map (·.text source)))
  rw [List.map_snd_zip (by simp)] at hx hy
  refine ⟨x, y, hx, hy, fun room => ?_⟩
  have hcopied : ∀ d ∈ before ++ behind,
      (Input.compose ⟨source, settings⟩ (room + 1) d).result = .ok (d.text source) := by
    intro d hd
    rw [Input.result_compose, if_pos]
    exact (List.mem_append.1 hd).elim hbefore.hasMarkup hbehind.hasMarkup
  rw [Input.result_compose, if_neg (by rw [hmarkup]; decide), if_neg hk, hchildren, result_each_around hcopied]
  cases (Input.compose ⟨source, settings⟩ (room + 1) c).result with
  | error e => rfl
  | ok w =>
    refine congrArg Except.ok ?_
    rw [List.zip_append (by simp), List.zip_cons_cons, hweave]

end Lowering

/-! ## Documents -/

open Lowering

variable {doc : Document} {c : Cst} {t d : Tree} {before behind : List Tree}

/-- A node without markup is copied, and so is what stands around an operand in it. -/
theorem text_around (h : doc.parse = .ok c) (ht : t ∈ c.tree.nodes) (hchildren : t.children = before ++ d :: behind)
    (hbefore : Tree.Childless before) (hbehind : Tree.Childless behind) :
    ∃ x y, Text.BlankJoined (before.map (·.text doc.text)) x ∧ Text.BlankJoined (behind.map (·.text doc.text)) y ∧
      t.text doc.text = x ++ (d.text doc.text ++ y) := by
  obtain ⟨pre, u, post, hsrc, hspan, ⟨-, hnil⟩ | ⟨-, hall⟩⟩ := parse_gaps h ht
  · rw [hnil] at hchildren
    simp at hchildren
  rw [hchildren] at hall
  obtain ⟨x, v, y, rfl, hx, hd, hy⟩ := hall.around
  rw [← Text.bytes_append] at hd hy
  rw [← Text.bytes_append] at hy
  have hblank : ∀ c, Tree.layoutGaps.char c → isBlank c = true := fun _ hc => Tree.isBlank_of_isLayout hc
  have hxjoined := Tree.SpreadAll.joined hblank doc.text (show doc.text = pre ++ (x ++ (v ++ y ++ post)) by simp [hsrc]) hx
  have hyjoined := Tree.SpreadAll.joined hblank doc.text (show doc.text = (pre ++ x ++ v) ++ (y ++ post) by simp [hsrc]) hy
  rw [hbefore.leaves] at hxjoined
  rw [hbehind.leaves] at hyjoined
  have htext : t.text doc.text = x ++ (v ++ y) := Span.text_append hsrc (by rw [hspan]) (by rw [hspan])
  have hdtext : d.text doc.text = v :=
    Span.text_append (show doc.text = (pre ++ x) ++ (v ++ (y ++ post)) by simp [hsrc]) (by rw [hd.span]) (by rw [hd.span])
  exact ⟨x, y, hxjoined, hyjoined, by rw [htext, hdtext]⟩

/-- **A node that wraps a single operand** adds comments and a pair of parentheses to it at most. -/
theorem envelope_operand (h : doc.parse = .ok c) (ht : t ∈ c.tree.nodes) (hk : wraps t.kind = true)
    (hd : singleOperand? doc.text t = some d) : ∃ before behind, Envelope doc.text 1 t d before behind := by
  obtain ⟨before, behind, hchildren, hpadding⟩ := exists_padding (parse_enclosed h ht hk) hd
  obtain ⟨hleaf, helement⟩ := Tree.inner_of_wraps hk
  have hchildless : Tree.Childless (before ++ behind) := by
    intro x hx
    have hmem : x ∈ t.children := by
      rw [hchildren, List.mem_append, List.mem_cons]
      exact (List.mem_append.1 hx).imp id .inr
    have hnode := Tree.nodes_trans (Tree.mem_nodes_iff.2 (.inr ⟨x, hmem, Tree.mem_nodes_self x⟩)) ht
    exact ⟨hpadding.leaf hx, (parse_shaped h x hnode).leaf (hpadding.leaf hx)⟩
  have hbefore : Tree.Childless before := fun x hx => hchildless x (List.mem_append_left _ hx)
  have hbehind : Tree.Childless behind := fun x hx => hchildless x (List.mem_append_right _ hx)
  have hmarkup := Tree.hasMarkup_around helement hchildren hbefore hbehind
  refine ⟨before, behind, hpadding, Tree.leaves_around hleaf hchildren hbefore hbehind, hmarkup, fun settings => ?_⟩
  -- without markup both are copied; with markup the outer one is composed around the inner one
  cases hm : t.hasMarkup with
  | false =>
    obtain ⟨x, y, hx, hy, htext⟩ := text_around h ht hchildren hbefore hbehind
    refine ⟨x, y, hx, hy, fun room => ?_⟩
    rw [Input.result_compose, Input.result_compose, if_pos hm, if_pos (hmarkup.symm.trans hm), htext]
    rfl
  | true => exact compose_around helement hm hchildren hbefore hbehind settings

/-- **Looking through wrappers** loses nothing but what stands around operands. -/
theorem unwrapUpTo_envelope (h : doc.parse = .ok c) : ∀ (n : Nat) {t : Tree}, t ∈ c.tree.nodes →
    ∃ depth before behind, depth ≤ n ∧ Envelope doc.text depth t (unwrapUpTo doc.text n t) before behind
  | 0, t, _ => ⟨0, [], [], Nat.le_refl 0, .refl doc.text t⟩
  | n + 1, t, ht => by
    unfold unwrapUpTo
    cases hd : singleOperand? doc.text t with
    | none => exact ⟨0, [], [], Nat.zero_le _, .refl doc.text t⟩
    | some d =>
      by_cases hk : wraps t.kind = true
      · have hmem := Tree.nodes_trans (Tree.mem_nodes_iff.2 (.inr ⟨d, mem_of_singleOperand? hd, Tree.mem_nodes_self d⟩)) ht
        obtain ⟨before, behind, henvelope⟩ := envelope_operand h ht hk hd
        obtain ⟨depth, before', behind', hdepth, henvelope'⟩ := unwrapUpTo_envelope h n hmem
        refine ⟨depth + 1, before ++ before', behind' ++ behind, Nat.succ_le_succ hdepth, ?_⟩
        simp only [if_pos hk]
        exact henvelope.trans henvelope'
      · simp only [if_neg hk]
        exact ⟨0, [], [], Nat.zero_le _, .refl doc.text t⟩

/-- A node that is lowered in place of the expression around it. -/
def Kind.isCore (k : Kind) : Bool := k == .identifier || k == .qualifiedName || k == .element

theorem result_lowerCore {settings : Settings} {e : Tree} (h : doc.parse = .ok c)
    (he : unwrap doc.text e ∈ c.tree.nodes) (hk : (unwrap doc.text e).kind.isCore = true) (room : Nat) :
    (Input.lowerCore ⟨doc.text, settings⟩ room e).result =
      (Input.compose ⟨doc.text, settings⟩ (room + 1) (unwrap doc.text e)).result := by
  unfold Input.lowerCore
  simp only
  rw [Input.result_compose]
  by_cases hname : (unwrap doc.text e).kind = .identifier ∨ (unwrap doc.text e).kind = .qualifiedName
  · have hleaf : (unwrap doc.text e).kind.isLeaf = true := by rcases hname with hname | hname <;> rw [hname] <;> rfl
    have hchildless : Tree.Childless [unwrap doc.text e] := by
      intro x hx
      rw [List.mem_singleton.1 hx]
      exact ⟨hleaf, (parse_shaped h _ he).leaf hleaf⟩
    rw [if_pos hname, if_pos (hchildless.hasMarkup (List.mem_singleton_self _))]
    rfl
  · have helement : (unwrap doc.text e).kind = .element := by
      simp only [Kind.isCore, Bool.or_eq_true, beq_iff_eq] at hk
      exact hk.resolve_left hname
    have hmarkup : (unwrap doc.text e).hasMarkup = true := Tree.hasMarkup_iff.2 ⟨_, Tree.mem_nodes_self _, helement⟩
    rw [if_neg hname, if_pos helement, if_neg (by rw [hmarkup]; decide), if_pos helement]

/-- An expression that stands for a name or an element is written as this one, with its last comment closed. -/
theorem result_lowerExpression_core {e : Tree} (h : doc.parse = .ok c) (he : e ∈ c.tree.nodes)
    (hk : (unwrap doc.text e).kind.isCore = true) (settings : Settings) :
    ∃ tail, (∀ x ∈ tail, isBlank x = true) ∧ ∀ room,
      (Input.lowerExpression ⟨doc.text, settings⟩ (room + 1) e).result =
        (Input.compose ⟨doc.text, settings⟩ (room + 1) (unwrap doc.text e)).result.map (· ++ tail) := by
  have hcore : unwrap doc.text e ∈ c.tree.nodes := Tree.nodes_trans (unwrapUpTo_mem doc.text maxUnwrap e) he
  refine ⟨if e.endsWithComment doc.text then lineBreak doc.text [] ++ lineIndent doc.text e.span.start else [], ?_, ?_⟩
  · split
    · intro x hx
      exact (List.mem_append.1 hx).elim (lineBreak_blank _ _ x) (lineIndent_blank _ _ x)
    · simp
  · intro room
    rw [Input.result_lowerExpression, result_lowerCore h hcore hk]
    cases (Input.compose ⟨doc.text, settings⟩ (room + 1) (unwrap doc.text e)).result with
    | error f => rfl
    | ok w =>
      refine (Input.result_closeComment _ e w).trans (congrArg Except.ok ?_)
      simp only
      split
      · rw [List.append_assoc]
      · rw [List.append_nil]

/-- **Unwrapping is transparent.**  What an expression stands for is the expression or a node below it.  Only comments and
parentheses are among the leaves around it, as many opened before as closed behind, so it holds markup if the expression
does, and the expression is written as it is, with these and blanks around it (`Lowering.Envelope`).  If it is a name or an
element, it is written alone in place of the expression, with blanks behind at most. -/
theorem unwrap_transparent {doc : Document} {c : Cst} (h : doc.parse = .ok c) {e : Tree} (he : e ∈ c.tree.nodes) :
    unwrap doc.text e ∈ e.nodes ∧
      (∃ depth before behind, depth ≤ maxUnwrap ∧ Envelope doc.text depth e (unwrap doc.text e) before behind) ∧
      ((unwrap doc.text e).kind = .identifier ∨ (unwrap doc.text e).kind = .qualifiedName ∨
          (unwrap doc.text e).kind = .element →
        ∀ settings : Settings, ∃ tail, (∀ x ∈ tail, isBlank x = true) ∧ ∀ room,
          (Input.lowerExpression ⟨doc.text, settings⟩ (room + 1) e).result =
            (Input.compose ⟨doc.text, settings⟩ (room + 1) (unwrap doc.text e)).result.map (· ++ tail)) := by
  refine ⟨unwrapUpTo_mem doc.text maxUnwrap e, unwrapUpTo_envelope h maxUnwrap he, fun hk settings => ?_⟩
  refine result_lowerExpression_core h he ?_ settings
  simpa [Kind.isCore, or_assoc] using hk

/-- An attribute whose value is a name in parentheses, with a comment between them. -/
def parenthesised : Document := ⟨"a.mbx", "<a b=\x7b( // k\n(c))\x7d/>".toList⟩

theorem unwrap_transparent_name : ∃ c e, parenthesised.parse = .ok c ∧ e ∈ c.tree.nodes ∧ e.kind = .expression ∧
    e.text parenthesised.text = "( // k\n(c))".toList ∧ (unwrap parenthesised.text e).kind = .identifier ∧
    (unwrap parenthesised.text e).text parenthesised.text = ['c'] ∧
    (∃ depth before behind, depth ≤ maxUnwrap ∧
      Envelope parenthesised.text depth e (unwrap parenthesised.text e) before behind) ∧
    ∀ settings : Settings, ∃ tail, (∀ x ∈ tail, isBlank x = true) ∧ ∀ room,
      (Input.lowerExpression ⟨parenthesised.text, settings⟩ (room + 1) e).result =
        (Input.compose ⟨parenthesised.text, settings⟩ (room + 1) (unwrap parenthesised.text e)).result.map (· ++ tail) := by
  obtain ⟨c, e, hparse, he, hq⟩ := exists_node parenthesised
    (fun e => e.kind == .expression && e.text parenthesised.text == "( // k\n(c))".toList &&
      (unwrap parenthesised.text e).kind == .identifier &&
      (unwrap parenthesised.text e).text parenthesised.text == ['c']) (by decide +kernel)
  simp only [Bool.and_eq_true, beq_iff_eq] at hq
  obtain ⟨⟨⟨hk, htext⟩, hcore⟩, hname⟩ := hq
  obtain ⟨-, henvelope, hwritten⟩ := unwrap_transparent hparse he
  exact ⟨c, e, hparse, he, hk, htext, hcore, hname, henvelope, hwritten (.inl hcore)⟩

end InlineMarkup
