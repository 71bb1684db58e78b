import InlineMarkup.Proofs.Pieces
import InlineMarkup.Proofs.Spread
import InlineMarkup.Proofs.Starts
/-!
# Proofs.DocumentTree — the tree of a document is spread over its text

In a rule whose node has nodes below it, characters that are blank are layout, and every other rule that it calls makes a
node or takes nothing (`Expr.made`).  With what nodes begin with (`Eval.firm`), the trees of a parse are spread over the
text that was parsed (`spread_named`).  So the tree of a document is spread over the document: its gaps are layout, and
no node but the whole begins or ends with a gap (`parse_layout`).
-/
namespace InlineMarkup

open Text (bytes isBlank isLayout)

namespace Grammar

/-! ## What inner nodes are made of -/

/-- The characters of the expression are among `char`, and the rules that it calls among `call`. -/
def Expr.made {R : Type} (char : Char → Bool) (call : R → Bool) : Expr R → Bool
  | .word w => w.all char
  | .one _ => false
  | .first | .last | .ahead _ | .never _ => true
  | .seq p q | .alt p q => p.made char call && q.made char call
  | .opt p | .many p | .more p => p.made char call
  | .rule r => call r

/-- **The letters of an expression** outside of tokens. -/
theorem Yields.made {R : Type} {G : Grammar R} {char : Char → Bool} {call : R → Bool}
    (hlayout : G.layout.made char call = true)
    (hsilent : ∀ r, call r = true → G.style r = .silent → (G.body r).made char call = true)
    {e : Expr R} {l : Layout} {a : List (Char ⊕ R)} (h : Yields G e l a) : l ≠ .token → e.made char call = true →
    (∀ x, .inl x ∈ a → char x = true) ∧ ∀ r, .inr r ∈ a → call r = true ∧ G.style r ≠ .silent := by
  have hskip : ∀ l, (G.skip l).made char call = true := by
    intro l
    cases l with
    | spaced => exact hlayout
    | compact => rfl
    | token => rfl
  have hnil : (∀ x, .inl x ∈ ([] : List (Char ⊕ R)) → char x = true) ∧
      ∀ r, .inr r ∈ ([] : List (Char ⊕ R)) → call r = true ∧ G.style r ≠ .silent :=
    ⟨fun _ h => (List.not_mem_nil h).elim, fun _ h => (List.not_mem_nil h).elim⟩
  have happend : ∀ {a b : List (Char ⊕ R)},
      ((∀ x, .inl x ∈ a → char x = true) ∧ ∀ r, .inr r ∈ a → call r = true ∧ G.style r ≠ .silent) →
      ((∀ x, .inl x ∈ b → char x = true) ∧ ∀ r, .inr r ∈ b → call r = true ∧ G.style r ≠ .silent) →
      (∀ x, .inl x ∈ a ++ b → char x = true) ∧ ∀ r, .inr r ∈ a ++ b → call r = true ∧ G.style r ≠ .silent :=
    fun ha hb => ⟨fun x hx => (List.mem_append.1 hx).elim (ha.1 x) (hb.1 x),
      fun r hr => (List.mem_append.1 hr).elim (ha.2 r) (hb.2 r)⟩
  have hcompact : Layout.compact ≠ .token := Layout.noConfusion
  induction h with
  | @word w l =>
    intro _ hm
    refine ⟨fun x hx => ?_, fun r hr => ?_⟩
    · obtain ⟨y, hy, hyx⟩ := List.mem_map.1 hx
      obtain rfl : y = x := Sum.inl.inj hyx
      exact List.all_eq_true.1 hm y hy
    · obtain ⟨y, -, hyx⟩ := List.mem_map.1 hr
      cases hyx
  | one => intro _ hm; cases hm
  | seq _ _ _ ihp ihs ihq =>
    intro hl hm
    rw [Expr.made, Bool.and_eq_true] at hm
    exact happend (ihp hl hm.1) (happend (ihs hcompact (hskip _)) (ihq hl hm.2))
  | altLeft _ ihp =>
    intro hl hm
    rw [Expr.made, Bool.and_eq_true] at hm
    exact ihp hl hm.1
  | altRight _ ihq =>
    intro hl hm
    rw [Expr.made, Bool.and_eq_true] at hm
    exact ihq hl hm.2
  | optSome _ ihp => intro hl hm; exact ihp hl hm
  | manySome _ _ ihp ihm => intro hl hm; exact happend (ihp hl hm) (ihm hl hm)
  | moreSome _ _ _ ihs ihp ihm =>
    intro hl hm
    exact happend (ihs hcompact (hskip _)) (happend (ihp hl hm) (ihm hl hm))
  | silent hs _ ih => intro hl hm; exact ih hl (hsilent _ hm hs)
  | @node r l hs _ =>
    intro _ hm
    refine ⟨fun x hx => ?_, fun r' hr => ?_⟩
    · cases List.mem_singleton.1 hx
    · cases List.mem_singleton.1 hr
      exact ⟨hm, hs⟩
  | flat _ ha => intro hl; exact absurd ha (around_ne_token hl)
  | _ => intro _ _; exact hnil

namespace Rule

/-- A character that is not blank, or layout. -/
def gapChar (c : Char) : Bool := !isBlank c || isLayout c

/-- The rule makes a node, or takes nothing, or stands for its alternatives. -/
def inTree (r : Rule) : Bool :=
  (Kind.ofRule? r).isSome && r != program || r ∈ [endOfInput, stmt, primary, postfixOp, matchArms, elementContent]

theorem made_layout : document.layout.made gapChar inTree = true := by decide

theorem made_silent (r : Rule) (hr : r.inTree = true) (hs : document.style r = .silent) :
    (document.body r).made gapChar inTree = true :=
  (by decide : ∀ r ∈ all, r.inTree = true → document.style r = .silent →
    (document.body r).made gapChar inTree = true) r r.mem_all hr hs

theorem made_inner (r : Rule) (hr : r.isInner = true) : (document.body r).made gapChar inTree = true :=
  (by decide : ∀ r ∈ all, r.isInner = true → (document.body r).made gapChar inTree = true) r r.mem_all hr

theorem kind_of_inTree (r : Rule) (hr : r.inTree = true) (hs : document.style r ≠ .silent) :
    r = endOfInput ∨ ((Kind.ofRule? r).isSome = true ∧ r ≠ program) :=
  (by decide : ∀ r ∈ all, r.inTree = true → document.style r ≠ .silent →
    r = endOfInput ∨ ((Kind.ofRule? r).isSome = true ∧ r ≠ program)) r r.mem_all hr hs

theorem kind_ne_program (r : Rule) (hp : r ≠ program) : Kind.ofRule? r ≠ some .program :=
  (by decide : ∀ r ∈ all, r ≠ program → Kind.ofRule? r ≠ some .program) r r.mem_all hp

end Rule

theorem Parse.FirmAll.mem {source : Text} : ∀ {xs : List (Parse Rule)}, FirmAll source xs → ∀ {p : Parse Rule}, p ∈ xs →
    Parse.Firm source p
  | q :: xs, h, p, hp => by
    rw [FirmAll] at h
    rcases List.mem_cons.1 hp with rfl | hp
    · exact h.1
    · exact h.2.mem hp

/-- The pieces of an inner node: gap characters, and nodes that make a tree or take nothing. -/
theorem made_pieces {r : Rule} {l : Layout} {ps : List (Piece Rule)} (hr : r.isInner = true)
    (hl : (document.style r).around l ≠ .token)
    (hy : Yields document (document.body r) ((document.style r).inside l) (ps.map Piece.letter)) :
    (∀ x, .char x ∈ ps → isBlank x = true → isLayout x = true) ∧
      ∀ p u, .tree p u ∈ ps → p.rule = .endOfInput ∨ ((Kind.ofRule? p.rule).isSome = true ∧ p.rule ≠ .program) := by
  obtain ⟨hchars, hrules⟩ := hy.made Rule.made_layout Rule.made_silent
    (inside_ne_token (r.style_of_isInner hr) hl) (r.made_inner hr)
  refine ⟨fun x hx hb => ?_, fun p u hp => ?_⟩
  · have := hchars x (List.mem_map.2 ⟨_, hx, rfl⟩)
    rw [Rule.gapChar, hb] at this
    exact this
  · obtain ⟨hin, hs⟩ := hrules p.rule (List.mem_map.2 ⟨_, hp, rfl⟩)
    exact p.rule.kind_of_inTree hin hs

theorem Laid.eq_nil_of_endOfInput {off : Nat} {u : Text} {p : Parse Rule} (h : Laid document off u p)
    (hp : p.rule = .endOfInput) : u = [] := by
  cases h with
  | @node r l _ ps _ hy _ =>
    obtain rfl : r = .endOfInput := hp
    generalize ha : ps.map Piece.letter = a at hy
    cases hy
    rw [List.map_eq_nil_iff.1 ha]
    rfl

end Grammar

namespace Tree

open Grammar

theorem named_of_kind {p : Parse Rule} (hk : (Kind.ofRule? p.rule).isSome = true) : ∃ t, named p = [t] := by
  obtain ⟨r, start, stop, inner⟩ := p
  obtain ⟨k, hk⟩ := Option.isSome_iff_exists.1 hk
  have hk : Kind.ofRule? r = some k := hk
  rw [named, hk]
  exact ⟨_, rfl⟩

/-- A row of pieces is a text with the trees of its nodes spread over it. -/
theorem spreadAll_pieces {G : Gaps} : ∀ (ps : List (Piece Rule)) (off : Nat), (∀ x, .char x ∈ ps → G.char x) →
    (∀ p u, .tree p u ∈ ps → (named p = [] ∧ u = []) ∨ ∃ t, named p = [t]) →
    Placed (fun off u p => ∀ t, named p = [t] → Spread G off u t) off ps →
    SpreadAll G off (textOf ps) (namedAll (treesIn ps))
  | [], _, _, _, _ => by simp [namedAll, SpreadAll]
  | .char x :: ps, off, hc, ht, hp => by
    have hps := spreadAll_pieces ps (off + x.utf8Size) (fun y hy => hc y (List.mem_cons_of_mem _ hy))
      (fun p u hpu => ht p u (List.mem_cons_of_mem _ hpu)) hp
    refine SpreadAll.gap_append (g := [x]) (fun y hy => ?_) hps
    rw [List.mem_singleton.1 hy]
    exact hc x List.mem_cons_self
  | .tree p u :: ps, off, hc, ht, hp => by
    have hps := spreadAll_pieces ps (off + bytes u) (fun y hy => hc y (List.mem_cons_of_mem _ hy))
      (fun p u hpu => ht p u (List.mem_cons_of_mem _ hpu)) hp.2
    rw [treesIn_tree, namedAll]
    rcases ht p u List.mem_cons_self with ⟨hnil, rfl⟩ | ⟨t, hnamed⟩
    · rw [hnil]
      exact hps
    · rw [hnamed]
      exact SpreadAll.cons (hp.1 t hnamed) hps

theorem opens_of_begins {source pre u post : Text} (hsrc : source = pre ++ (u ++ post)) {inner : List (Parse Rule)}
    (h : Begins source (bytes pre) (bytes pre + bytes u) inner) : Opens (bytes pre) u (namedAll inner) := by
  rcases h with h | h | h
  · have hu : u = [] := Text.bytes_eq_zero.1 (by omega)
    exact .inr fun x hx => by simp [hu] at hx
  · exact .inl h
  · refine .inr fun x hx => ?_
    obtain ⟨xs, rfl⟩ := List.head?_eq_some_iff.1 hx
    exact h pre x (xs ++ post) hsrc rfl

/-- The trees below an inner node, from those of its pieces. -/
theorem spreadAll_inner {r : Rule} {l : Layout} {off : Nat} {ps : List (Piece Rule)} (hr : r.isInner = true)
    (hl : (document.style r).around l ≠ .token)
    (hy : Yields document (document.body r) ((document.style r).inside l) (ps.map Piece.letter))
    (hlaid : Placed (Laid document) off ps)
    (hbelow : Placed (fun off u p => p.rule ≠ .program → ∀ t, named p = [t] → Spread parsedGaps off u t) off ps) :
    SpreadAll parsedGaps off (textOf ps) (namedAll (treesIn ps)) := by
  obtain ⟨hchars, htrees⟩ := made_pieces hr hl hy
  refine spreadAll_pieces ps off hchars (fun p u hpu => ?_) ((placed_iff _ _ _).2 fun pre p u post hps => ?_)
  · rcases htrees p u hpu with hend | hkind
    · obtain ⟨pre, post, hps⟩ := List.append_of_mem hpu
      refine .inl ⟨?_, ((placed_iff _ _ _).1 hlaid pre p u post hps).eq_nil_of_endOfInput hend⟩
      obtain ⟨r', start, stop, inner⟩ := p
      obtain rfl : r' = .endOfInput := hend
      rfl
    · exact .inr (named_of_kind hkind.1)
  · refine (placed_iff _ _ _).1 hbelow pre p u post hps ?_
    have hmem : Piece.tree p u ∈ ps := by
      rw [hps]
      exact List.mem_append_right _ List.mem_cons_self
    rcases htrees p u hmem with hend | hkind
    · rw [hend]
      exact Rule.noConfusion
    · exact hkind.2

/-- **The tree of a node is spread over the node's text.** -/
theorem spread_named {source : Text} {off : Nat} {u : Text} {p : Parse Rule} (h : Laid document off u p) :
    ∀ pre post, source = pre ++ (u ++ post) → bytes pre = off → p.Firm source → p.rule ≠ .program → ∀ t, named p = [t] →
      Spread parsedGaps off u t := by
  induction h with
  | @node r l off ps left yields below ih =>
    rintro pre post hsrc rfl hfirm hp t ht
    rw [Parse.Firm] at hfirm
    rw [named] at ht
    cases hk : Kind.ofRule? r with
    | none => rw [hk] at ht; cases ht
    | some k =>
      rw [hk] at ht
      simp only at ht
      cases ht
      rw [Spread]
      refine ⟨rfl, fun hl => if_pos hl, fun hl => ?_⟩
      have hr : r.isInner = true := by simp [Rule.isInner, hk, hl]
      rw [if_neg (by rw [hl]; exact Bool.false_ne_true)]
      refine ⟨⟨?_, opens_of_begins hsrc (hfirm.1 hr hp)⟩, ?_⟩
      · rintro rfl
        exact r.kind_ne_program hp hk
      · refine spreadAll_inner hr left yields ((placed_iff _ _ _).2 below) ((placed_iff _ _ _).2 ?_)
        intro pre' p u post' hps hp'
        refine ih pre' p u post' hps (pre ++ textOf pre') (textOf post' ++ post) ?_ (Text.bytes_append _ _) ?_ hp'
        · rw [hsrc, hps]
          simp [Piece.text]
        · refine hfirm.2.mem ?_
          rw [hps]
          simp

end Tree
/-! ## Documents -/

open Grammar

theorem rest_of_program {t : Text} {c : Cursor} {xs : List (Parse Rule)}
    (h : Eval document (document.body .program) .spaced .here ⟨0, t⟩ (some (c, xs))) : c.rest = [] := by
  obtain ⟨_, _, _, _, _, -, -, hrest, -⟩ := h.seq_parts
  obtain ⟨_, _, c₂, _, zs, -, -, hend, -⟩ := hrest.seq_parts
  generalize ho : some (c, zs) = o at hend
  cases hend with
  | silent hs => cases hs
  | @node _ _ _ _ o _ hb =>
    have hlast := hb.unique .last
    split at hlast
    · next hempty =>
      subst hlast
      cases ho
      exact List.isEmpty_iff.1 hempty
    · subst hlast
      cases ho

theorem parseDocument_matched {t : Text} {c : Cursor} {p : Parse Rule} {ps : List (Parse Rule)} {a : Attempts Rule}
    (h : parseDocument t = .matched c (p :: ps) a) :
    ∃ inner, p = .node .program 0 (bytes t) inner ∧ Laid document 0 t p ∧ Parse.FirmAll t inner := by
  have heval : Eval document (.rule .program) .spaced .here ⟨0, t⟩ (some (c, p :: ps)) :=
    eval_of_run document _ _ _ _ _ _ _ (by rw [show run document _ _ _ _ _ _ = _ from h]; rfl)
  generalize ho : some (c, p :: ps) = o at heval
  cases heval with
  | silent hs => cases hs
  | @node _ _ _ _ o _ hb =>
    cases o with
    | none => cases ho
    | some m =>
      cases ho
      obtain ⟨pieces, hpast, htrees, hplaced, hy⟩ := hb.consists rfl _ rfl
      have hin : Cursor.In t ⟨0, t⟩ := ⟨[], rfl, rfl⟩
      obtain ⟨hall, -⟩ := hb.firm rfl _ rfl hin false (Rule.neat_body .program) fun h => by cases h
      have htext : t = textOf pieces := by
        have := hpast.rest
        rwa [rest_of_program hb, List.append_nil] at this
      have hstop : m.1.offset = 0 + bytes (textOf pieces) := hpast.offset
      refine ⟨m.2, by rw [hstop, ← htext, Nat.zero_add], ?_, hall⟩
      rw [hstop, ← htrees, htext]
      exact .node (l := .spaced) (by decide) hy ((placed_iff _ _ _).1 hplaced)

theorem parse_cases {doc : Document} {c : Cst} (h : doc.parse = .ok c) :
    ∃ inner, c = Cst.ofParse doc.text (.node .program 0 (bytes doc.text) inner) ∧
      Laid document 0 doc.text (.node .program 0 (bytes doc.text) inner) ∧ Parse.FirmAll doc.text inner := by
  unfold Document.parse at h
  split at h
  · next p ps a hm =>
    obtain ⟨inner, rfl, hlaid, hfirm⟩ := parseDocument_matched hm
    exact ⟨inner, (Except.ok.inj h).symm, hlaid, hfirm⟩
  · cases h
  · cases h
  · cases h

theorem tree_ofParse (source : Text) (p : Parse Rule) :
    (Cst.ofParse source p).tree = ((Tree.ofParse p).trimmed source).tokenized source := by
  obtain ⟨hasc, -, hholds⟩ := arena_ofParse source p
  exact Arena.tree_of_holds hasc hholds

/-- The trees at the top of a document, before their ends are moved back. -/
theorem spreadAll_top {t : Text} {stop : Nat} {inner : List (Parse Rule)}
    (hlaid : Laid document 0 t (.node .program 0 stop inner)) (hfirm : Parse.FirmAll t inner) :
    Tree.SpreadAll Tree.parsedGaps 0 t (Tree.namedAll inner) := by
  cases hlaid with
  | @node r l off ps left yields below =>
    refine Tree.spreadAll_inner (by decide) left yields ((placed_iff _ _ _).2 below) ((placed_iff _ _ _).2 ?_)
    intro pre p u post hps hp
    have htext : textOf ps = textOf pre ++ (u ++ textOf post) := by
      rw [hps]
      simp [Piece.text]
    have hmem : p ∈ treesIn ps := by
      rw [hps]
      simp
    exact Tree.spread_named (below pre p u post hps) _ _ htext (Nat.zero_add _).symm (hfirm.mem hmem) hp

/-- **The tree of a document.**  It is spread over the text of the document. -/
theorem parse_layout {doc : Document} {c : Cst} (h : doc.parse = .ok c) :
    ∃ cs, c.tree = .node .program ⟨0, bytes doc.text⟩ cs ∧ Tree.SpreadAll Tree.layoutGaps 0 doc.text cs := by
  obtain ⟨inner, rfl, hlaid, hfirm⟩ := parse_cases h
  have hsource : doc.text = [] ++ (doc.text ++ []) := by simp
  have htrimmed := Tree.spreadAll_trimmed doc.text _ [] _ [] hsource (spreadAll_top hlaid hfirm)
  have htokens := Tree.spreadAll_tokenized doc.text _ [] _ [] hsource htrimmed
  rw [tree_ofParse, Tree.ofParse, Tree.trimmed, Tree.tokenized]
  refine ⟨_, rfl, ?_⟩
  rw [Text.bytes_nil, Nat.zero_add] at htokens
  exact htokens

theorem parse_spread {doc : Document} {c : Cst} (h : doc.parse = .ok c) :
    ∃ cs, c.tree = .node .program ⟨0, bytes doc.text⟩ cs ∧ Tree.SpreadAll Tree.blankGaps 0 doc.text cs := by
  obtain ⟨cs, htree, hcs⟩ := parse_layout h
  exact ⟨cs, htree, Tree.Spread.monoAll (G := Tree.layoutGaps) (H := Tree.blankGaps)
    (fun _ => Tree.isBlank_of_isLayout) (fun _ _ _ _ hnode => hnode) hcs⟩

end InlineMarkup
