import InlineMarkup.Proofs.Lossless
import InlineMarkup.Proofs.Shapes
/-!
# Proofs.Attributes — where attributes stand and what they hold

Attributes stand in tags and tags in elements (`parse_nested`), so code without elements has no attributes.  An attribute
with a value in braces has an equals sign before them, and the sign is a token of its own (`equals_of_braces`).
-/
namespace InlineMarkup

open Text (bytes isBlank isLayout)

namespace Grammar

/-! ## What a rule does not call -/

/-- The rule does not call `x`, neither itself nor through rules that stand for their alternatives. -/
def Rule.avoids (r x : Rule) : Bool := (document.body r).made (fun _ => true) fun s => s.inTree && s != x

/-- Rules that only rules with nodes of their own call. -/
def Rule.nested : List Rule := [.attribute, .openingTag, .selfClosingTag]

theorem Yields.avoids {x r : Rule} {l : Layout} {a : List (Char ⊕ Rule)} (hx : x ∈ Rule.nested)
    (h : Yields document (document.body r) l a) (hl : l ≠ .token) (hr : r.avoids x = true) : .inr x ∉ a := by
  have hlayout : ∀ x ∈ Rule.nested, document.layout.made (fun _ => true) (fun s => s.inTree && s != x) = true := by
    decide
  have hsilent : ∀ x ∈ Rule.nested, ∀ s ∈ Rule.all, (s.inTree && s != x) = true → document.style s = .silent →
      (document.body s).made (fun _ => true) (fun s => s.inTree && s != x) = true := by
    decide
  intro hmem
  have hcalled := ((h.made (hlayout x hx) (fun s => hsilent x hx s s.mem_all) hl hr).2 x hmem).1
  simp at hcalled

theorem avoids_attribute (r : Rule) (hr : r.isInner = true) (ho : r ≠ .openingTag) (hs : r ≠ .selfClosingTag) :
    r.avoids .attribute = true :=
  (by decide : ∀ r ∈ Rule.all, r.isInner = true → r ≠ .openingTag → r ≠ .selfClosingTag →
    r.avoids .attribute = true) r r.mem_all hr ho hs

theorem avoids_tag (r : Rule) (hr : r.isInner = true) (he : r ≠ .element) :
    r.avoids .openingTag = true ∧ r.avoids .selfClosingTag = true :=
  (by decide : ∀ r ∈ Rule.all, r.isInner = true → r ≠ .element →
    r.avoids .openingTag = true ∧ r.avoids .selfClosingTag = true) r r.mem_all hr he

/-! ## The row of an attribute -/

theorem Yields.letters_skip {l : Layout} {b : List (Char ⊕ Rule)} (h : Yields document (document.skip l) .compact b) :
    (∀ x, .inl x ∈ b → isLayout x = true) ∧ ∀ r, .inr r ∈ b → r = .comment := by
  have hsilent : ∀ r : Rule, (r == .comment) = true → document.style r = .silent →
      (document.body r).made isLayout (· == .comment) = true := by
    intro r hr hs
    rw [beq_iff_eq.1 hr] at hs
    cases hs
  have hmade : (document.skip l).made isLayout (· == .comment) = true := by
    cases l with
    | spaced => exact (by decide : document.layout.made isLayout (· == .comment) = true)
    | compact => rfl
    | token => rfl
  obtain ⟨hchars, hrules⟩ := h.made (by decide) hsilent nofun hmade
  exact ⟨hchars, fun r hr => beq_iff_eq.1 (hrules r hr).1⟩

/-- An attribute with braces: its name, an equals sign and the braces, with layout between. -/
theorem row_braces {l : Layout} {a : List (Char ⊕ Rule)} (hl : l ≠ .token)
    (h : Yields document (document.body .attribute) l a) (hb : .inr .interpolation ∈ a) :
    ∃ b d, a = .inr .attributeName :: (b ++ .inl '=' :: (d ++ [.inr .interpolation])) ∧
      (∀ x, .inl x ∈ b ++ d → isLayout x = true) ∧ ∀ r, .inr r ∈ b ++ d → r = .comment := by
  have hskip : ∀ {b d : List (Char ⊕ Rule)}, Yields document (document.skip l) .compact b →
      Yields document (document.skip l) .compact d →
      (∀ x, .inl x ∈ b ++ d → isLayout x = true) ∧ ∀ r, .inr r ∈ b ++ d → r = .comment := by
    intro b d hb hd
    exact ⟨fun x hx => (List.mem_append.1 hx).elim (hb.letters_skip.1 x) (hd.letters_skip.1 x),
      fun r hr => (List.mem_append.1 hr).elim (hb.letters_skip.2 r) (hd.letters_skip.2 r)⟩
  have hnot : ∀ {b : List (Char ⊕ Rule)}, Yields document (document.skip l) .compact b → .inr .interpolation ∉ b :=
    fun hb hmem => Rule.noConfusion (hb.letters_skip.2 _ hmem)
  cases h with
  | @seq _ _ _ name b rest hname hb₁ hrest =>
    rw [hname.rule_eq hl (by decide)] at hb ⊢
    cases hrest with
    | optNone => simp [hnot hb₁] at hb
    | optSome hrest =>
      cases hrest with
      | @seq _ _ _ sign d value hsign hd hvalue =>
        cases hsign
        cases hvalue with
        | optNone => simp [hnot hb₁, hnot hd] at hb
        | optSome hvalue =>
          cases hvalue with
          | altLeft hvalue =>
            rw [hvalue.rule_eq hl (by decide)] at hb
            simp [hnot hb₁, hnot hd] at hb
          | altRight hvalue =>
            rw [hvalue.rule_eq hl (by decide)]
            exact ⟨b, d, rfl, hskip hb₁ hd⟩

end Grammar

namespace Tree

open Grammar

/-! ## Nesting -/

/-- Attributes stand in tags, and tags in elements. -/
def Nested (t : Tree) : Prop :=
  ∀ c ∈ t.children, (c.kind = .attribute → t.kind = .elementOpening ∨ t.kind = .elementSelfClosing) ∧
    (c.kind = .elementOpening ∨ c.kind = .elementSelfClosing → t.kind = .element)

theorem Grown.inner {r : Rule} {a : List (Char ⊕ Rule)} {t : Tree} (h : Grown r a t) (hl : t.kind.isLeaf = false) :
    r.isInner = true := by
  rw [Rule.isInner, h.kind, Option.map_some, hl]
  rfl

/-- A node has no child that its rule does not call. -/
theorem Grown.kind_ne {r x : Rule} {a : List (Char ⊕ Rule)} {t : Tree} (h : Grown r a t) (hl : t.kind.isLeaf = false)
    (hx : x ∈ Rule.nested) (hr : r.avoids x = true) : ∀ c ∈ t.parts, Kind.ofRule? x ≠ some c.kind := by
  intro c hc hk
  obtain ⟨l, hleft, hy⟩ := h.yields
  have hmem : c.kind ∈ kindsIn a := by
    rw [← h.parts hl]
    exact List.mem_map_of_mem hc
  obtain ⟨s, hs, hsk⟩ := List.mem_filterMap.1 hmem
  cases s with
  | inl y => cases hsk
  | inr s =>
    have hsk : Kind.ofRule? s = some c.kind := (Option.filter_eq_some_iff.1 hsk).1
    have hmarkup : ∀ x ∈ Rule.nested, x ∈ markupRules := by decide
    obtain rfl : s = x := rule_of_kind (hmarkup x hx) (hsk.trans hk.symm)
    exact hy.avoids hx (inside_ne_token (r.style_of_isInner (h.inner hl)) hleft) hr hs

theorem Grown.nested {r : Rule} {a : List (Char ⊕ Rule)} {t : Tree} (h : Grown r a t) : t.Nested := by
  intro c hc
  have hl : t.kind.isLeaf = false := by
    refine Bool.eq_false_iff.2 fun hl => ?_
    rw [h.leaf hl] at hc
    cases hc
  have hpart : ∀ {k : Kind}, k.isPart = true → c.kind = k → c ∈ t.parts := by
    rintro k hk rfl
    exact List.mem_filter.2 ⟨hc, hk⟩
  have hkind : ∀ {s : Rule} {k : Kind}, Kind.ofRule? s = some k → r = s → t.kind = k := by
    rintro s k hs rfl
    exact Option.some.inj (h.kind.symm.trans hs)
  refine ⟨fun hk => ?_, fun hk => ?_⟩
  · by_cases ho : r = .openingTag
    · exact .inl (hkind rfl ho)
    by_cases hs : r = .selfClosingTag
    · exact .inr (hkind rfl hs)
    · have havoids := avoids_attribute r (h.inner hl) ho hs
      exact absurd (by rw [hk]; rfl) (h.kind_ne hl (by decide) havoids c (hpart rfl hk))
  · by_cases he : r = .element
    · exact hkind rfl he
    · obtain ⟨ho, hs⟩ := avoids_tag r (h.inner hl) he
      rcases hk with hk | hk
      · exact absurd (by rw [hk]; rfl) (h.kind_ne hl (by decide) ho c (hpart rfl hk))
      · exact absurd (by rw [hk]; rfl) (h.kind_ne hl (by decide) hs c (hpart rfl hk))

/-! ## The equals sign -/

variable {source : Text}

theorem exists_first_tree : ∀ {ps : List (Piece Rule)}, treesIn ps ≠ [] →
    ∃ (w : Text) (p : Parse Rule) (u : Text) (qs : List (Piece Rule)), ps = w.map .char ++ .tree p u :: qs
  | .char x :: ps, h => by
    have h : treesIn ps ≠ [] := h
    obtain ⟨w, p, u, qs, rfl⟩ := exists_first_tree h
    exact ⟨x :: w, p, u, qs, rfl⟩
  | .tree p u :: ps, _ => ⟨[], p, u, ps, rfl⟩

theorem exists_last_tree {ps : List (Piece Rule)} (h : treesIn ps ≠ []) :
    ∃ (qs : List (Piece Rule)) (p : Parse Rule) (u w : Text), ps = qs ++ .tree p u :: w.map .char := by
  have hrev : treesIn ps.reverse ≠ [] := by rwa [treesIn, List.filterMap_reverse, ne_eq, List.reverse_eq_nil_iff]
  obtain ⟨w, p, u, qs, hps⟩ := exists_first_tree hrev
  refine ⟨qs.reverse, p, u, w.reverse, ?_⟩
  rw [← List.reverse_reverse ps, hps]
  simp

theorem mem_withTokens_between {x t t' : Tree} (hx : x ∈ tokenTrees source t.span.stop t'.span.start) {stop : Nat}
    {us : List Tree} : ∀ {ts : List Tree} {cursor : Nat}, (∀ c ∈ ts, c.span.stop ≤ t.span.stop) →
    cursor ≤ t.span.stop → x ∈ withTokens source stop cursor (ts ++ t :: t' :: us)
  | [], cursor, _, hcursor => by
    rw [List.nil_append, withTokens, withTokens, Nat.max_eq_right hcursor]
    simp [hx]
  | c :: ts, cursor, hts, hcursor => by
    rw [List.cons_append, withTokens]
    have hrest : x ∈ withTokens source stop (max cursor c.span.stop) (ts ++ t :: t' :: us) := mem_withTokens_between hx
      (fun d hd => hts d (List.mem_cons_of_mem c hd)) (Nat.max_le.2 ⟨hcursor, hts c List.mem_cons_self⟩)
    simp [hrest]

theorem sublist_withTokens {stop : Nat} {ts : List Tree} {cursor : Nat} : ts.Sublist (withTokens source stop cursor ts) := by
  induction ts generalizing cursor with
  | nil => exact List.nil_sublist _
  | cons t ts ih =>
    rw [withTokens]
    exact (ih.cons_cons t).trans (List.sublist_append_right _ _)

theorem mem_finished_between {k : Kind} (hl : k.isLeaf = false) {s : Span} {ts us : List Tree} {t t' : Tree} {G : Gaps}
    {off : Nat} {x : Text} (h : Spread G off x ((Tree.node k s (ts ++ t :: t' :: us)).finished source)) {y : Tree}
    (hy : y ∈ tokenTrees source (t.finished source).span.stop t'.span.start) :
    y ∈ ((Tree.node k s (ts ++ t :: t' :: us)).finished source).children := by
  have hstart := h.span
  have hall := h.children
  rw [finished_node, children, kind, hl, if_neg Bool.false_ne_true] at hall
  obtain ⟨h, -⟩ | ⟨-, hall⟩ := hall
  · cases h
  rw [finished_node, span] at hstart
  rw [finished_node, children, hl, if_neg Bool.false_ne_true]
  rw [hstart] at hall ⊢
  simp only [List.map_append, List.map_cons] at hall ⊢
  have hordered := hall.ordered.sublist sublist_withTokens
  rw [List.pairwise_append] at hordered
  obtain ⟨pre, v, post, rfl, hv⟩ := hall.mem (sublist_withTokens.mem (List.mem_append_right _ List.mem_cons_self))
  have hle : (t.finished source).span.start ≤ (t.finished source).span.stop := by
    rw [hv.span]
    exact Nat.le_add_right _ _
  refine mem_withTokens_between (by rwa [start_finished]) (fun c hc => ?_) ?_
  · exact Nat.le_trans (hordered.2.2 c hc _ List.mem_cons_self) hle
  · refine Nat.le_trans ?_ hle
    rw [hv.span]
    exact Nat.le_add_right _ _

theorem class_of_layout {c : Char} (h : isLayout c = true) : GapClass.of c = .blank :=
  GapClass.of_eq_blank.2 (Tree.isBlank_of_isLayout h)

theorem splitFrom_layout : ∀ {w : Text}, (∀ c ∈ w, isLayout c = true) → ∀ (u : Text) (off : Nat),
    splitFrom (w ++ u) off none = splitFrom u (off + bytes w) none
  | [], _, u, off => rfl
  | c :: w, h, u, off => by
    have hw := splitFrom_layout (w := w) fun d hd => h d (List.mem_cons_of_mem c hd)
    rw [List.cons_append, splitFrom, class_of_layout (h c List.mem_cons_self), GapClass.opens, if_pos rfl, hw,
      Text.bytes_cons, Nat.add_assoc]

theorem tokenTrees_layout {pre w post : Text} (hsrc : source = pre ++ (w ++ post)) (hw : ∀ c ∈ w, isLayout c = true) :
    tokenTrees source (bytes pre) (bytes pre + bytes w) = [] := by
  have hsplit := splitFrom_layout hw [] (bytes pre)
  rw [List.append_nil] at hsplit
  rw [tokenTrees_append hsrc, hsplit]
  rfl

theorem splitFrom_lone {x : Char} (hx : GapClass.of x ≠ .blank) {v : Text} (hv : ∀ c ∈ v, isLayout c = true) (off : Nat) :
    splitFrom (x :: v) off none = [⟨off, off + bytes [x]⟩] := by
  rw [splitFrom, GapClass.opens, if_neg hx]
  cases v with
  | nil => rfl
  | cons c v =>
    have hc := class_of_layout (hv c List.mem_cons_self)
    have hrest := splitFrom_layout (fun d hd => hv d (List.mem_cons_of_mem c hd)) [] (off + x.utf8Size + c.utf8Size)
    rw [List.append_nil] at hrest
    rw [splitFrom, hc, if_neg fun h => hx h.1.symm, GapClass.opens, if_pos rfl, hrest]
    rfl

/-- **A character with layout around it** is a token. -/
theorem tokenTrees_lone {x : Char} (hx : GapClass.of x ≠ .blank) {pre w v post : Text}
    (hsrc : source = pre ++ (w ++ x :: v) ++ post) (hw : ∀ c ∈ w, isLayout c = true) (hv : ∀ c ∈ v, isLayout c = true) :
    ∃ o, tokenTrees source (bytes pre) (bytes (pre ++ (w ++ x :: v))) = [o] ∧ o.isToken source [x] = true := by
  refine ⟨.node .token ⟨bytes pre + bytes w, bytes pre + bytes w + bytes [x]⟩ [], ?_, ?_⟩
  · rw [Text.bytes_append, tokenTrees_append (hsrc.trans (List.append_assoc _ _ _)), splitFrom_layout hw,
      splitFrom_lone hx hv]
    rfl
  · have htext : (Span.mk (bytes pre + bytes w) (bytes pre + bytes w + bytes [x])).text source = [x] :=
      Span.text_append (p := pre ++ w) (v := v ++ post) (by simp [hsrc]) (Text.bytes_append _ _).symm
        (by rw [Text.bytes_append])
    rw [isToken, kind, text, span, htext]
    exact beq_self_eq_true [x]

theorem mem_letters {r : Rule} {ps : List (Piece Rule)} : .inr r ∈ ps.map Piece.letter ↔ ∃ p ∈ treesIn ps, p.rule = r := by
  constructor
  · intro h
    obtain ⟨x, hx, hr⟩ := List.mem_map.1 h
    cases x with
    | char y => cases hr
    | tree p u => exact ⟨p, mem_treesIn.2 ⟨u, hx⟩, Sum.inr.inj hr⟩
  · rintro ⟨p, hp, rfl⟩
    obtain ⟨u, hu⟩ := mem_treesIn.1 hp
    exact List.mem_map.2 ⟨_, hu, rfl⟩

/-- The gap of an equals sign, between the nodes before and behind it. -/
theorem exists_gap {ps : List (Piece Rule)} {b d : List (Char ⊕ Rule)}
    (hps : ps.map Piece.letter = .inr .attributeName :: (b ++ .inl '=' :: (d ++ [.inr .interpolation])))
    (hchars : ∀ x, .inl x ∈ b ++ d → isLayout x = true) (hrules : ∀ r, .inr r ∈ b ++ d → r = .comment) :
    ∃ (qs : List (Piece Rule)) (p : Parse Rule) (u w v : Text) (p' : Parse Rule) (u' : Text) (qs' : List (Piece Rule)),
      ps = qs ++ .tree p u :: (w.map .char ++ .char '=' :: (v.map .char ++ .tree p' u' :: qs')) ∧
      (∀ c ∈ w, isLayout c = true) ∧ (∀ c ∈ v, isLayout c = true) ∧
      (p.rule = .attributeName ∨ p.rule = .comment) ∧ (p'.rule = .interpolation ∨ p'.rule = .comment) := by
  rw [← List.cons_append] at hps
  obtain ⟨as, rest, rfl, has, hrest⟩ := List.map_eq_append_iff.1 hps
  obtain ⟨x, bs, rfl, hx, hbs⟩ := List.map_eq_cons_iff.1 hrest
  obtain rfl := Piece.eq_char hx
  have htrees : ∀ (r : Rule) (qs : List (Piece Rule)), .inr r ∈ qs.map Piece.letter → treesIn qs ≠ [] := by
    intro r qs hmem
    obtain ⟨p, hp, -⟩ := mem_letters.1 hmem
    exact List.ne_nil_of_mem hp
  obtain ⟨qs, p, u, w, rfl⟩ := exists_last_tree (htrees .attributeName as (by simp [has]))
  obtain ⟨v, p', u', qs', rfl⟩ := exists_first_tree (htrees .interpolation bs (by simp [hbs]))
  refine ⟨qs, p, u, w, v, p', u', qs', by simp, fun c hc => hchars c ?_, fun c hc => hchars c ?_, ?_, ?_⟩
  · have hmem : Sum.inl c ∈ (Sum.inr .attributeName :: b : List (Char ⊕ Rule)) := by
      rw [← has]
      simp [Piece.letter, hc]
    rw [List.mem_append]
    exact .inl (by simpa using hmem)
  · have hmem : Sum.inl c ∈ (d ++ [.inr .interpolation] : List (Char ⊕ Rule)) := by
      rw [← hbs]
      simp [Piece.letter, hc]
    rw [List.mem_append]
    exact .inr (by simpa using hmem)
  · have hmem : Sum.inr p.rule ∈ (Sum.inr .attributeName :: b : List (Char ⊕ Rule)) := by
      rw [← has]
      simp [Piece.letter]
    rw [List.mem_cons, Sum.inr.injEq] at hmem
    exact hmem.imp id fun hb => hrules _ (List.mem_append_left d hb)
  · have hmem : Sum.inr p'.rule ∈ (d ++ [.inr .interpolation] : List (Char ⊕ Rule)) := by
      rw [← hbs]
      simp [Piece.letter]
    rw [List.mem_append, List.mem_singleton, Sum.inr.injEq] at hmem
    exact hmem.symm.imp id fun hd => hrules _ (List.mem_append_right b hd)

/-- The node of a piece makes one tree, which ends before layout at the end of its text. -/
def EndsIn (source : Text) (off : Nat) (u : Text) (p : Parse Rule) : Prop :=
  ∃ t v w, named p = [t] ∧ u = v ++ w ∧ (∀ c ∈ w, isLayout c = true) ∧
    (t.finished source).span = ⟨off, off + bytes v⟩

theorem endsIn_of_laid {pre u post : Text} (hsrc : source = pre ++ (u ++ post)) {p : Parse Rule}
    (h : Laid document (bytes pre) u p) (hfirm : p.Firm source) (hk : (Kind.ofRule? p.rule).isSome = true)
    (hp : p.rule ≠ .program) : EndsIn source (bytes pre) u p := by
  obtain ⟨t, ht⟩ := named_of_kind hk
  have hspread := spread_named h pre post hsrc rfl hfirm hp t ht
  obtain ⟨v, w, rfl, hw, htrimmed⟩ := spread_trimmed source t pre u post hsrc hspread
  exact ⟨t, v, w, ht, rfl, hw, by rw [span_finished, htrimmed.span]⟩

theorem exists_named {off : Nat} {u : Text} {p : Parse Rule} (h : Laid document off u p) {k : Kind}
    (hk : Kind.ofRule? p.rule = some k) : ∃ t, named p = [t] ∧ t.span.start = off := by
  obtain ⟨t, ht⟩ := named_of_kind (p := p) (by rw [hk]; rfl)
  exact ⟨t, ht, start_of_laid h (by rw [ht]; exact List.mem_singleton_self t)⟩

/-- **Braces come after an equals sign**, which is a token of its own. -/
theorem equals_of_laid {pre u post : Text} (hsrc : source = pre ++ (u ++ post)) {p : Parse Rule}
    (h : Laid document (bytes pre) u p) (hfirm : p.Firm source) {t : Tree} (ht : t ∈ named p) (hk : t.kind = .attribute)
    (hbraces : ∃ c ∈ t.children, c.kind = .interpolation) {G : Gaps} {off : Nat} {x : Text}
    (hspread : Spread G off x (t.finished source)) :
    (t.finished source).children.any (·.isToken source ['=']) = true := by
  generalize hoff : bytes pre = o at h
  cases h with
  | @node r l _ ps left yields below =>
    subst hoff
    obtain ⟨k, hrk, rfl⟩ := mem_named.1 ht
    obtain rfl : k = .attribute := hk
    obtain rfl : r = .attribute := rule_of_kind (by decide) hrk
    obtain ⟨c, hc, hck⟩ := hbraces
    obtain ⟨q, hq, hcq⟩ := mem_namedAll.1 (show c ∈ namedAll (treesIn ps) from hc)
    have hqr : q.rule = .interpolation := by
      obtain ⟨r, start, stop, inner⟩ := q
      obtain ⟨k, hr, rfl⟩ := mem_named.1 hcq
      obtain rfl : k = .interpolation := hck
      exact rule_of_kind (by decide) hr
    obtain ⟨b, d, hrow, hchars, hrules⟩ := row_braces (inside_ne_token (by decide) left) yields
      (mem_letters.2 ⟨q, hq, hqr⟩)
    obtain ⟨qs, p, u, w, v, p', u', qs', rfl, hw, hv, hp, hp'⟩ := exists_gap hrow hchars hrules
    have hpk : (Kind.ofRule? p.rule).isSome = true ∧ p.rule ≠ .program := by
      rcases hp with hp | hp <;> rw [hp] <;> decide
    have hkind : ∃ k, Kind.ofRule? p'.rule = some k := by
      rcases hp' with hp' | hp' <;> rw [hp'] <;> exact ⟨_, rfl⟩
    obtain ⟨k', hpk'⟩ := hkind
    rw [Parse.Firm] at hfirm
    have hlaid := below qs p u _ rfl
    have hlaid' := below (qs ++ .tree p u :: (w.map .char ++ .char '=' :: v.map .char)) p' u' qs' (by simp)
    have htext : source = (pre ++ textOf qs) ++ (u ++ (w ++ '=' :: (v ++ (u' ++ (textOf qs' ++ post))))) := by
      rw [hsrc]
      simp [Piece.text, textOf_map_char]
    rw [← Text.bytes_append] at hlaid
    obtain ⟨t, u, w', htp, rfl, hw', hspan⟩ := endsIn_of_laid htext hlaid (hfirm.2.mem (by simp)) hpk.1 hpk.2
    obtain ⟨t', htp', hstart⟩ := exists_named hlaid' hpk'
    have hchildren : namedAll (treesIn (qs ++ .tree p (u ++ w') :: (w.map .char ++
        .char '=' :: (v.map .char ++ .tree p' u' :: qs')))) =
        namedAll (treesIn qs) ++ t :: t' :: namedAll (treesIn qs') := by
      simp [treesIn_map_char, namedAll_append, namedAll, htp, htp']
    rw [if_neg (by decide), hchildren] at hspread ⊢
    have hgap : source = (pre ++ textOf qs ++ u) ++ (w' ++ w ++ '=' :: v) ++ (u' ++ (textOf qs' ++ post)) := by
      rw [htext]
      simp
    obtain ⟨y, hy, htoken⟩ := tokenTrees_lone (by decide) hgap (fun c hc => (List.mem_append.1 hc).elim (hw' c) (hw c)) hv
    have hmem := List.mem_singleton_self y
    rw [← hy] at hmem
    refine List.any_eq_true.2 ⟨y, ?_, htoken⟩
    refine mem_finished_between rfl hspread ?_
    rw [hspan, hstart]
    convert hmem using 2
    · simp [Nat.add_assoc]
    · simp [Piece.text, textOf_map_char]

end Tree

/-! ## Documents -/

theorem parse_nested {doc : Document} {c : Cst} (h : doc.parse = .ok c) : ∀ t ∈ c.tree.nodes, t.Nested := by
  intro t ht
  rcases parse_grown h ht with htoken | ⟨r, a, hgrown⟩
  · intro d hd
    rw [htoken.children] at hd
    cases hd
  · exact hgrown.nested

theorem equals_of_braces {doc : Document} {c : Cst} (h : doc.parse = .ok c) {t : Tree} (ht : t ∈ c.tree.nodes)
    (hk : t.kind = .attribute) {v : Tree} (hv : t.child? .interpolation = some v) :
    t.children.any (·.isToken doc.text ['=']) = true := by
  obtain ⟨pre, x, post, -, hspread⟩ := (parse_loose h).below ht
  rcases parse_laid h ht with htoken | ⟨pre, u, post, p, w, hsrc, hp, hfirm, hw, rfl⟩
  · rw [htoken.kind] at hk
    cases hk
  · rw [Tree.kind_finished] at hk
    rw [Tree.child?_finished (by decide)] at hv
    obtain ⟨b, hb, -⟩ := Option.map_eq_some_iff.1 hv
    refine Tree.equals_of_laid hsrc hp hfirm hw hk ⟨b, List.mem_of_find?_eq_some hb, ?_⟩ hspread
    exact beq_iff_eq.1 (List.find?_some (p := fun c : Tree => c.kind == .interpolation) hb)

end InlineMarkup
