import InlineMarkup.Proofs.DocumentTree
import InlineMarkup.Proofs.Finished
/-!
# Proofs.Shapes — what stands below the nodes of markup

A row that a rule can match names the kinds of the nodes below the rule's node, in their order (`kindsIn`).  So the rules
of markup say what the children of their nodes are: an element consists of a tag, content and perhaps a closing tag, and
braces hold one expression at most.  All nodes of a parsed document have these shapes (`parse_shaped`).
-/
namespace InlineMarkup

open Text (bytes isLayout trimEnd)

namespace Grammar

/-! ## The kinds in a row -/

/-- The kind of the node that a letter stands for, if it makes one that is no comment. -/
def kindIn? : Char ⊕ Rule → Option Kind
  | .inl _ => none
  | .inr r => (Kind.ofRule? r).filter Kind.isPart

def kindsIn (a : List (Char ⊕ Rule)) : List Kind := a.filterMap kindIn?

theorem kindsIn_append (a b : List (Char ⊕ Rule)) : kindsIn (a ++ b) = kindsIn a ++ kindsIn b := List.filterMap_append

variable {p q : Expr Rule} {l : Layout} {a : List (Char ⊕ Rule)}

/-- An expression of words and comments makes no nodes. -/
theorem Yields.kinds_eq_nil {e : Expr Rule} (h : Yields document e l a) (hl : l ≠ .token)
    (he : e.made (fun _ => true) (· == .comment) = true) : kindsIn a = [] := by
  have hsilent : ∀ r : Rule, (r == .comment) = true → document.style r = .silent →
      (document.body r).made (fun _ => true) (· == .comment) = true := by
    intro r hr hs
    rw [beq_iff_eq.1 hr] at hs
    cases hs
  obtain ⟨-, hrules⟩ := h.made (by decide) hsilent hl he
  refine List.filterMap_eq_nil_iff.2 fun x hx => ?_
  cases x with
  | inl c => rfl
  | inr r =>
    rw [beq_iff_eq.1 (hrules r hx).1]
    rfl

theorem Yields.kinds_skip (h : Yields document (document.skip l) .compact a) : kindsIn a = [] := by
  refine h.kinds_eq_nil nofun ?_
  cases l with
  | spaced => exact (by decide : document.layout.made (fun _ => true) (· == .comment) = true)
  | compact => rfl
  | token => rfl

theorem Yields.kinds_seq (h : Yields document (.seq p q) l a) :
    ∃ b d, Yields document p l b ∧ Yields document q l d ∧ kindsIn a = kindsIn b ++ kindsIn d := by
  cases h with
  | seq hp hskip hq => exact ⟨_, _, hp, hq, by rw [kindsIn_append, kindsIn_append, hskip.kinds_skip, List.nil_append]⟩

theorem Yields.kinds_opt (h : Yields document (.opt p) l a) : kindsIn a = [] ∨ Yields document p l a := by
  cases h with
  | optNone => exact .inl rfl
  | optSome hp => exact .inr hp

theorem Yields.kinds_more {P : Kind → Prop} (hP : ∀ b, Yields document p l b → ∀ k ∈ kindsIn b, P k)
    (h : Yields document (.more p) l a) : ∀ k ∈ kindsIn a, P k := by
  generalize he : Expr.more p = e at h
  induction h with
  | moreNone => exact fun k hk => (List.not_mem_nil hk).elim
  | moreSome hskip hp _ _ _ ih =>
    cases he
    intro k hk
    rw [kindsIn_append, kindsIn_append, hskip.kinds_skip, List.nil_append, List.mem_append] at hk
    exact hk.elim (hP _ hp k) (ih hP rfl k)
  | _ => cases he

theorem Yields.kinds_many {P : Kind → Prop} (h : Yields document (.many p) l a)
    (hP : ∀ b, Yields document p l b → ∀ k ∈ kindsIn b, P k) : ∀ k ∈ kindsIn a, P k := by
  cases h with
  | manyNone => exact fun k hk => (List.not_mem_nil hk).elim
  | manySome hp hmore =>
    intro k hk
    rw [kindsIn_append, List.mem_append] at hk
    exact hk.elim (hP _ hp k) (hmore.kinds_more hP k)

theorem Yields.rule_eq {r : Rule} (h : Yields document (.rule r) l a) (hl : l ≠ .token) (hs : document.style r ≠ .silent) :
    a = [.inr r] := by
  cases h with
  | silent hsilent => exact absurd hsilent hs
  | node => rfl
  | flat _ haround => exact absurd haround (around_ne_token hl)

theorem Yields.of_alts : ∀ (ps : List (Expr Rule)) {p : Expr Rule}, Yields document (DocExpr.alts p ps) l a →
    ∃ e ∈ p :: ps, Yields document e l a
  | [], p, h => ⟨p, List.mem_singleton_self p, h⟩
  | q :: ps, p, h => by
    cases h with
    | altLeft h => exact ⟨p, List.mem_cons_self, h⟩
    | altRight h =>
      obtain ⟨e, he, h⟩ := Yields.of_alts ps h
      exact ⟨e, List.mem_cons_of_mem p he, h⟩

/-! ## The rules of markup -/

theorem kinds_tag {w : Text} (hl : l ≠ .token) (h : Yields document (DocExpr.seqs (.word "<")
    [.opt (.rule .tagName), .many (.seq DocExpr.newlines (.rule .attribute)), DocExpr.newlines, Expr.word w]) l a) :
    ∀ k ∈ kindsIn a, k = .tagName ∨ k = .attribute := by
  obtain ⟨a₁, b₁, h₁, h, hk₁⟩ := h.kinds_seq
  obtain ⟨a₂, b₂, h₂, h, hk₂⟩ := h.kinds_seq
  obtain ⟨a₃, b₃, h₃, h, hk₃⟩ := h.kinds_seq
  obtain ⟨a₄, b₄, h₄, h₅, hk₄⟩ := h.kinds_seq
  have hname : ∀ k ∈ kindsIn a₂, k = .tagName := by
    rcases h₂.kinds_opt with hnil | h₂
    · simp [hnil]
    · rw [h₂.rule_eq hl (by decide)]
      exact fun k hk => List.mem_singleton.1 hk
  have hattributes : ∀ k ∈ kindsIn a₃, k = .attribute := by
    refine h₃.kinds_many fun b hb => ?_
    obtain ⟨b₁, b₂, h₁, h₂, hk⟩ := hb.kinds_seq
    rw [hk, h₁.kinds_eq_nil hl (by decide), h₂.rule_eq hl (by decide)]
    exact fun k hk => List.mem_singleton.1 hk
  rw [hk₁, hk₂, hk₃, hk₄, h₁.kinds_eq_nil hl (by decide), h₄.kinds_eq_nil hl (by decide),
    h₅.kinds_eq_nil hl (List.all_eq_true.2 fun _ _ => rfl)]
  intro k hk
  simp only [List.nil_append, List.append_nil, List.mem_append] at hk
  exact hk.imp (hname k) (hattributes k)

theorem kinds_closingTag (hl : l ≠ .token) (h : Yields document (document.body .closingTag) l a) :
    ∀ k ∈ kindsIn a, k = .tagName := by
  obtain ⟨a₁, b₁, h₁, h, hk₁⟩ := h.kinds_seq
  obtain ⟨a₂, b₂, h₂, h₃, hk₂⟩ := h.kinds_seq
  rw [hk₁, hk₂, h₁.kinds_eq_nil hl (by decide), h₃.kinds_eq_nil hl (by decide), List.append_nil,
    List.nil_append]
  rcases h₂.kinds_opt with hnil | h₂
  · simp [hnil]
  · rw [h₂.rule_eq hl (by decide)]
    exact fun k hk => List.mem_singleton.1 hk

theorem kinds_content (hl : l ≠ .token) (h : Yields document (.rule .elementContent) l a) :
    ∀ k ∈ kindsIn a, k ∈ Lowering.contentKinds := by
  have hrules : ∀ r ∈ [Rule.markupComment, .element, .interpolation, .text],
      document.style r ≠ .silent ∧ ∀ k ∈ kindsIn [.inr r], k ∈ Lowering.contentKinds := by decide
  cases h with
  | silent _ h =>
    obtain ⟨e, he, h⟩ := Yields.of_alts [.rule .element, .rule .interpolation, .rule .text] h
    obtain ⟨r, hr, rfl⟩ := List.mem_map.1 (show e ∈ [Rule.markupComment, .element, .interpolation, .text].map .rule from he)
    rw [h.rule_eq hl (hrules r hr).1]
    exact (hrules r hr).2
  | node hs => exact absurd rfl hs
  | flat hs => exact absurd rfl hs

/-- **An element** is a single tag, or an opening tag with content and perhaps a closing tag. -/
theorem kinds_element (hl : l ≠ .token) (h : Yields document (document.body .element) l a) :
    kindsIn a = [.elementSelfClosing] ∨ ∃ inner closing, kindsIn a = .elementOpening :: (inner ++ closing) ∧
      (∀ k ∈ inner, k ∈ Lowering.contentKinds) ∧ (closing = [] ∨ closing = [.elementClosing]) := by
  cases h with
  | altLeft h =>
    rw [h.rule_eq hl (by decide)]
    exact .inl rfl
  | altRight h =>
    obtain ⟨a₁, b₁, h₁, h, hk₁⟩ := h.kinds_seq
    obtain ⟨a₂, b₂, h₂, h₃, hk₂⟩ := h.kinds_seq
    rw [hk₁, hk₂, h₁.rule_eq hl (by decide)]
    refine .inr ⟨kindsIn a₂, kindsIn b₂, rfl, h₂.kinds_many fun b => kinds_content hl, ?_⟩
    refine h₃.kinds_opt.imp id fun h₃ => ?_
    rw [h₃.rule_eq hl (by decide)]
    rfl

theorem kinds_attribute (hl : l ≠ .token) (h : Yields document (document.body .attribute) l a) :
    ∃ value, kindsIn a = .attributeName :: value ∧
      (value = [] ∨ value = [.attributeValue] ∨ value = [.interpolation]) := by
  obtain ⟨a₁, b₁, h₁, h₂, hk₁⟩ := h.kinds_seq
  refine ⟨kindsIn b₁, by rw [hk₁, h₁.rule_eq hl (by decide)]; rfl, ?_⟩
  rcases h₂.kinds_opt with hnil | h₂
  · exact .inl hnil
  · obtain ⟨a₂, b₂, h₃, h₄, hk₂⟩ := h₂.kinds_seq
    rw [hk₂, h₃.kinds_eq_nil hl (by decide), List.nil_append]
    refine h₄.kinds_opt.imp id fun h₄ => ?_
    cases h₄ with
    | altLeft h =>
      rw [h.rule_eq hl (by decide)]
      exact .inl rfl
    | altRight h =>
      rw [h.rule_eq hl (by decide)]
      exact .inr rfl

theorem kinds_attributeValue (hl : l ≠ .token) (h : Yields document (document.body .attributeValue) l a) :
    ∀ k ∈ kindsIn a, k = .attributeContent := by
  have hquoted : ∀ {r : Rule} {w v : Text}, document.style r ≠ .silent → Kind.ofRule? r = some .attributeContent →
      Yields document (.seq (.word w) (.seq (.rule r) (.word v))) l a → ∀ k ∈ kindsIn a, k = .attributeContent := by
    intro r w v hs hr h
    obtain ⟨a₁, b₁, h₁, h, hk₁⟩ := h.kinds_seq
    obtain ⟨a₂, b₂, h₂, h₃, hk₂⟩ := h.kinds_seq
    rw [hk₁, hk₂, h₁.kinds_eq_nil hl (List.all_eq_true.2 fun _ _ => rfl), h₂.rule_eq hl hs,
      h₃.kinds_eq_nil hl (List.all_eq_true.2 fun _ _ => rfl)]
    have hkind : kindIn? (.inr r) = some .attributeContent := by rw [kindIn?, hr]; rfl
    intro k hk
    simpa [kindsIn, hkind] using hk
  cases h with
  | altLeft h => exact hquoted (by decide) rfl h
  | altRight h => exact hquoted (by decide) rfl h

/-- **Braces** hold one expression at most. -/
theorem kinds_interpolation (hl : l ≠ .token) (h : Yields document (document.body .interpolation) l a) :
    kindsIn a = [] ∨ kindsIn a = [.expression] := by
  obtain ⟨a₁, b₁, h₁, h, hk₁⟩ := h.kinds_seq
  obtain ⟨a₂, b₂, h₂, h, hk₂⟩ := h.kinds_seq
  obtain ⟨a₃, b₃, h₃, h, hk₃⟩ := h.kinds_seq
  obtain ⟨a₄, b₄, h₄, h₅, hk₄⟩ := h.kinds_seq
  rw [hk₁, hk₂, hk₃, hk₄, h₁.kinds_eq_nil hl (by decide), h₂.kinds_eq_nil hl (by decide),
    h₄.kinds_eq_nil hl (by decide), h₅.kinds_eq_nil hl (by decide)]
  simp only [List.nil_append, List.append_nil]
  refine h₃.kinds_opt.imp id fun h₃ => ?_
  rw [h₃.rule_eq hl (by decide)]
  rfl

theorem head_word {c : Char} {w : Text} (h : Yields document (.seq (.word (c :: w)) q) l a) : ∃ b, a = .inl c :: b := by
  cases h with
  | seq hp _ _ =>
    cases hp
    exact ⟨_, rfl⟩

theorem head_tagName (h : Yields document (document.body .tagName) l a) :
    ∃ c b, a = .inl c :: b ∧ isLayout c = false := by
  have hstart : ∀ c, c.isAlpha = true → isLayout c = false := by
    intro c hc
    by_cases hl : isLayout c = true
    · have hmem : c ∈ [' ', '\t', '\r', '\n'] := by
        simpa [Text.isLayout, Text.isIndent, or_assoc] using hl
      have := (by decide : ∀ c ∈ [' ', '\t', '\r', '\n'], c.isAlpha = false) c hmem
      rw [hc] at this
      cases this
    · exact Bool.eq_false_iff.2 hl
  cases h with
  | seq hp _ _ =>
    cases hp with
    | altLeft hp =>
      cases hp with
      | one hx => exact ⟨_, _, rfl, hstart _ hx⟩
    | altRight hp =>
      cases hp
      exact ⟨'_', _, rfl, by decide⟩

end Grammar

namespace Tree

open Grammar

/-! ## Nodes and their rows -/

theorem mem_namedAll {t : Tree} : ∀ {ps : List (Parse Rule)}, t ∈ namedAll ps ↔ ∃ p ∈ ps, t ∈ named p
  | [] => by simp [namedAll]
  | p :: ps => by simp [namedAll, mem_namedAll]

theorem mem_named {r : Rule} {start stop : Nat} {inner : List (Parse Rule)} {t : Tree} :
    t ∈ named (.node r start stop inner) ↔
      ∃ k, Kind.ofRule? r = some k ∧ t = .node k ⟨start, stop⟩ (if k.isLeaf then [] else namedAll inner) := by
  rw [named]
  cases Kind.ofRule? r with
  | none => simp
  | some k => simp

theorem mem_treesIn {p : Parse Rule} {ps : List (Piece Rule)} : p ∈ treesIn ps ↔ ∃ u, Piece.tree p u ∈ ps := by
  rw [treesIn, List.mem_filterMap]
  constructor
  · rintro ⟨x, hx, hp⟩
    cases x with
    | char c => cases hp
    | tree q u =>
      cases hp
      exact ⟨u, hx⟩
  · rintro ⟨u, hu⟩
    exact ⟨_, hu, rfl⟩

theorem start_of_laid {off : Nat} {u : Text} {p : Parse Rule} (h : Laid document off u p) {t : Tree} (ht : t ∈ named p) :
    t.span.start = off := by
  cases h with
  | node =>
    obtain ⟨k, -, rfl⟩ := mem_named.1 ht
    rfl

theorem start_of_placed {t : Tree} : ∀ {ps : List (Piece Rule)} {off : Nat}, Placed (Laid document) off ps →
    t ∈ namedAll (treesIn ps) → off ≤ t.span.start
  | [], _, _, ht => by cases ht
  | .char x :: ps, off, h, ht => by
    have hps : Placed (Laid document) (off + x.utf8Size) ps := h
    have := start_of_placed hps ht
    omega
  | .tree p u :: ps, off, h, ht => by
    rw [treesIn_tree, namedAll, List.mem_append] at ht
    rcases ht with ht | ht
    · exact Nat.le_of_eq (start_of_laid h.1 ht).symm
    · have := start_of_placed h.2 ht
      omega

theorem kinds_namedAll : ∀ ps : List (Piece Rule),
    ((namedAll (treesIn ps)).filter (·.kind.isPart)).map kind = kindsIn (ps.map Piece.letter)
  | [] => rfl
  | .char x :: ps => kinds_namedAll ps
  | .tree (.node r start stop inner) u :: ps => by
    have hletter : kindIn? (Piece.letter (.tree (.node r start stop inner) u)) =
      (Kind.ofRule? r).filter Kind.isPart := rfl
    rw [treesIn_tree, namedAll, List.filter_append, List.map_append, kinds_namedAll ps, List.map_cons, kindsIn, kindsIn,
      List.filterMap_cons, hletter, named]
    cases Kind.ofRule? r with
    | none => rfl
    | some k => cases hk : k.isPart <;> simp [Option.filter, hk, kind]

/-- What a node has from its rule, whose body matched the row `a`. -/
structure Grown (r : Rule) (a : List (Char ⊕ Rule)) (t : Tree) : Prop where
  kind : Kind.ofRule? r = some t.kind
  yields : ∃ l, (document.style r).around l ≠ .token ∧ Yields document (document.body r) ((document.style r).inside l) a
  leaf : t.kind.isLeaf = true → t.children = []
  parts : t.kind.isLeaf = false → t.parts.map Tree.kind = kindsIn a
  solid : ∀ x b, a = .inl x :: b → isLayout x = false → t.span.start < t.span.stop
  below : ∀ x b, a = .inl x :: b → ∀ c ∈ t.parts, t.span.start < c.span.start

theorem start_finished {source : Text} (t : Tree) : (t.finished source).span.start = t.span.start := by
  rw [span_finished, start_trimmed]

theorem trimEnd_ne_nil {x : Char} (hx : isLayout x = false) (u : Text) : trimEnd isLayout (x :: u) ≠ [] := by
  rw [trimEnd, ne_eq, List.reverse_eq_nil_iff, List.dropWhile_eq_nil_iff]
  intro h
  have := h x (by simp)
  rw [hx] at this
  cases this

/-- A node that begins with a character other than layout is not empty. -/
theorem stop_finished {source pre u post : Text} (hsrc : source = pre ++ (u ++ post)) {x : Char} {v : Text}
    (hu : u = x :: v) (hx : isLayout x = false) (k : Kind) (cs : List Tree) :
    bytes pre < ((Tree.node k ⟨bytes pre, bytes pre + bytes u⟩ cs).finished source).span.stop := by
  rw [finished_node]
  show bytes pre < (trimSpan source k _ _).stop
  cases hk : k.keepsTrailingBlanks with
  | true =>
    rw [trimSpan, if_pos hk]
    have := Text.bytes_pos (show u ≠ [] by rw [hu]; exact List.cons_ne_nil x v)
    show bytes pre < bytes pre + bytes u
    omega
  | false =>
    have := Text.bytes_pos (show trimEnd isLayout u ≠ [] by rw [hu]; exact trimEnd_ne_nil hx v)
    rw [trimSpan_append hsrc hk]
    show bytes pre < max (bytes pre + bytes (trimEnd isLayout u)) _
    omega

/-- **The nodes of a parse are grown by their rules.** -/
theorem grown_finished {source pre u post : Text} (hsrc : source = pre ++ (u ++ post)) {p : Parse Rule}
    (h : Laid document (bytes pre) u p) {t : Tree} (ht : t ∈ named p) : ∃ r a, Grown r a (t.finished source) := by
  generalize hoff : bytes pre = off at h
  cases h with
  | @node r l _ ps left yields below =>
    obtain ⟨k, hk, rfl⟩ := mem_named.1 ht
    subst hoff
    refine ⟨r, ps.map Piece.letter, ?_, ⟨l, left, yields⟩, ?_, ?_, ?_, ?_⟩
    · rw [kind_finished]
      exact hk
    · intro hleaf
      rw [kind_finished] at hleaf
      have hleaf : k.isLeaf = true := hleaf
      rw [finished_node, if_pos hleaf, if_pos hleaf]
      rfl
    · intro hleaf
      rw [kind_finished] at hleaf
      have hleaf : k.isLeaf = false := hleaf
      rw [parts_finished, List.map_map, if_neg (by rw [hleaf]; exact Bool.false_ne_true), ← kinds_namedAll ps]
      exact List.map_congr_left fun c _ => kind_finished c
    · intro x b hb hx
      rw [start_finished]
      cases ps with
      | nil => cases hb
      | cons q ps =>
        cases q with
        | tree p u => cases hb
        | char y =>
          cases hb
          exact stop_finished hsrc rfl hx k _
    · intro x b hb c hc
      rw [parts_finished] at hc
      obtain ⟨d, hd, rfl⟩ := List.mem_map.1 hc
      rw [start_finished, start_finished]
      have hd : d ∈ namedAll (treesIn ps) := by
        have := (List.mem_filter.1 hd).1
        show d ∈ namedAll (treesIn ps)
        rw [Tree.children] at this
        split at this
        · cases this
        · exact this
      cases ps with
      | nil => cases hb
      | cons q ps =>
        cases q with
        | tree p u => cases hb
        | char y =>
          have hplaced : Placed (Laid document) (bytes pre) (.char y :: ps) := (placed_iff _ _ _).2 below
          have hps : Placed (Laid document) (bytes pre + y.utf8Size) ps := hplaced
          have := start_of_placed hps hd
          have := Char.utf8Size_pos y
          show bytes pre < d.span.start
          omega

theorem laid_below {source : Text} {off : Nat} {u : Text} {p : Parse Rule} (h : Laid document off u p) :
    ∀ pre post, source = pre ++ (u ++ post) → bytes pre = off → p.Firm source → ∀ t ∈ named p, ∀ v ∈ t.nodes,
      ∃ pre' u' post' q, source = pre' ++ (u' ++ post') ∧ Laid document (bytes pre') u' q ∧ q.Firm source ∧
        v ∈ named q := by
  induction h with
  | @node r l off ps left yields below ih =>
    rintro pre post hsrc rfl hfirm t ht v hv
    obtain ⟨k, hk, rfl⟩ := mem_named.1 ht
    rcases mem_nodes_iff.1 hv with rfl | ⟨c, hc, hv⟩
    · exact ⟨pre, _, post, _, hsrc, .node left yields below, hfirm, ht⟩
    · have hc : c ∈ namedAll (treesIn ps) := by
        rw [Tree.children] at hc
        split at hc
        · cases hc
        · exact hc
      obtain ⟨p, hp, hcp⟩ := mem_namedAll.1 hc
      obtain ⟨u, hu⟩ := mem_treesIn.1 hp
      obtain ⟨before, after, hps⟩ := List.append_of_mem hu
      rw [Parse.Firm] at hfirm
      refine ih before p u after hps (pre ++ textOf before) (textOf after ++ post) ?_ (Text.bytes_append _ _)
        (hfirm.2.mem hp) c hcp v hv
      rw [hsrc, hps]
      simp [Piece.text]

/-! ## The shapes of markup -/

/-- What stands below a node of markup. -/
structure Shaped (t : Tree) : Prop where
  leaf : t.kind.isLeaf = true → t.children = []
  element : t.kind = .element → ∃ tag inner closing, Lowering.Parts t tag inner closing
  tag : t.kind = .elementOpening ∨ t.kind = .elementSelfClosing → t.span.start < t.span.stop ∧
    ∀ c ∈ t.parts, (c.kind = .tagName ∨ c.kind = .attribute) ∧ t.span.start < c.span.start
  closing : t.kind = .elementClosing → ∀ c ∈ t.parts, c.kind = .tagName
  value : t.kind = .attribute → ∃ (name : Tree) (value : Option Tree), t.parts = name :: value.toList ∧
    name.kind = .attributeName ∧ ∀ v ∈ value, v.kind = .attributeValue ∨ v.kind = .interpolation
  quoted : t.kind = .attributeValue → ∀ c ∈ t.parts, c.kind = .attributeContent
  braces : t.kind = .interpolation → ∃ inner : Option Tree, t.parts = inner.toList ∧ ∀ e ∈ inner, e.kind = .expression
  name : t.kind = .tagName → t.span.start < t.span.stop

def markupRules : List Rule :=
  [.element, .selfClosingTag, .openingTag, .closingTag, .tagName, .attribute, .attributeValue, .interpolation]

/-- The nodes of markup are made by one rule each. -/
theorem rule_of_kind {r s : Rule} (hs : s ∈ markupRules) (h : Kind.ofRule? r = Kind.ofRule? s) : r = s :=
  (by decide : ∀ s ∈ markupRules, ∀ r ∈ Rule.all, Kind.ofRule? r = Kind.ofRule? s → r = s) s hs r r.mem_all h

namespace Grown

variable {r : Rule} {a : List (Char ⊕ Rule)} {t : Tree}

/-- The row of a node of markup, as its rule has it. -/
theorem row (h : Grown r a t) {s : Rule} (hs : s ∈ markupRules) (hk : Kind.ofRule? s = some t.kind) :
    ∃ l, Yields document (document.body s) l a ∧ (document.style s ≠ .token → l ≠ .token) := by
  obtain rfl : r = s := rule_of_kind hs (h.kind.trans hk.symm)
  obtain ⟨l, hl, hy⟩ := h.yields
  exact ⟨_, hy, fun hstyle => inside_ne_token hstyle hl⟩

theorem kind_of_mem (h : Grown r a t) (hl : t.kind.isLeaf = false) {P : Kind → Prop} (hP : ∀ k ∈ kindsIn a, P k) :
    ∀ c ∈ t.parts, P c.kind := by
  intro c hc
  refine hP c.kind ?_
  rw [← h.parts hl]
  exact List.mem_map_of_mem hc

theorem exists_parts (h : Grown r a t) (hk : t.kind = .element) :
    ∃ tag inner closing, Lowering.Parts t tag inner closing := by
  obtain ⟨l, hy, hl⟩ := h.row (s := .element) (by decide) (by rw [hk]; rfl)
  have hparts := h.parts (by rw [hk]; rfl)
  rcases kinds_element (hl (by decide)) hy with hsingle | ⟨inner, closing, hkinds, hinner, hclosing⟩
  · rw [hsingle] at hparts
    obtain ⟨tag, htag, hkind⟩ := List.map_eq_singleton_iff.1 hparts
    exact ⟨tag, [], none, htag, .inr hkind, by simp, by simp⟩
  · rw [hkinds] at hparts
    obtain ⟨tag, rest, hrest, htag, hparts⟩ := List.map_eq_cons_iff.1 hparts
    obtain ⟨xs, ys, rfl, hxs, hys⟩ := List.map_eq_append_iff.1 hparts
    have hcontent : ∀ c ∈ xs, c.kind ∈ Lowering.contentKinds := fun c hc =>
      hinner _ (hxs ▸ List.mem_map_of_mem hc)
    rcases hclosing with rfl | rfl
    · obtain rfl : ys = [] := List.map_eq_nil_iff.1 hys
      exact ⟨tag, xs, none, hrest, .inl htag, hcontent, by simp⟩
    · obtain ⟨close, rfl, hclose⟩ := List.map_eq_singleton_iff.1 hys
      exact ⟨tag, xs, some close, hrest, .inl htag, hcontent, by simpa using hclose⟩

theorem tag (h : Grown r a t) (hk : t.kind = .elementOpening ∨ t.kind = .elementSelfClosing) :
    t.span.start < t.span.stop ∧
      ∀ c ∈ t.parts, (c.kind = .tagName ∨ c.kind = .attribute) ∧ t.span.start < c.span.start := by
  obtain ⟨w, l, hy, hl⟩ : ∃ w l, Yields document (DocExpr.seqs (.word "<") [.opt (.rule .tagName),
      .many (.seq DocExpr.newlines (.rule .attribute)), DocExpr.newlines, Expr.word w]) l a ∧ l ≠ .token := by
    rcases hk with hk | hk
    · obtain ⟨l, hy, hl⟩ := h.row (s := .openingTag) (by decide) (by rw [hk]; rfl)
      exact ⟨_, l, hy, hl (by decide)⟩
    · obtain ⟨l, hy, hl⟩ := h.row (s := .selfClosingTag) (by decide) (by rw [hk]; rfl)
      exact ⟨_, l, hy, hl (by decide)⟩
  have hleaf : t.kind.isLeaf = false := by rcases hk with hk | hk <;> rw [hk] <;> rfl
  obtain ⟨b, rfl⟩ := head_word hy
  refine ⟨h.solid '<' b rfl (by decide), fun c hc => ⟨?_, h.below '<' b rfl c hc⟩⟩
  exact h.kind_of_mem hleaf (kinds_tag hl hy) c hc

theorem closing (h : Grown r a t) (hk : t.kind = .elementClosing) : ∀ c ∈ t.parts, c.kind = .tagName := by
  obtain ⟨l, hy, hl⟩ := h.row (s := .closingTag) (by decide) (by rw [hk]; rfl)
  exact h.kind_of_mem (by rw [hk]; rfl) (kinds_closingTag (hl (by decide)) hy)

theorem value (h : Grown r a t) (hk : t.kind = .attribute) : ∃ (name : Tree) (value : Option Tree),
    t.parts = name :: value.toList ∧ name.kind = .attributeName ∧
      ∀ v ∈ value, v.kind = .attributeValue ∨ v.kind = .interpolation := by
  obtain ⟨l, hy, hl⟩ := h.row (s := .attribute) (by decide) (by rw [hk]; rfl)
  obtain ⟨value, hkinds, hvalue⟩ := kinds_attribute (hl (by decide)) hy
  have hparts := h.parts (by rw [hk]; rfl)
  rw [hkinds] at hparts
  obtain ⟨name, rest, hrest, hname, hparts⟩ := List.map_eq_cons_iff.1 hparts
  rcases hvalue with rfl | rfl | rfl
  · obtain rfl : rest = [] := List.map_eq_nil_iff.1 hparts
    exact ⟨name, none, hrest, hname, by simp⟩
  · obtain ⟨v, rfl, hv⟩ := List.map_eq_singleton_iff.1 hparts
    exact ⟨name, some v, hrest, hname, by simp [hv]⟩
  · obtain ⟨v, rfl, hv⟩ := List.map_eq_singleton_iff.1 hparts
    exact ⟨name, some v, hrest, hname, by simp [hv]⟩

theorem quoted (h : Grown r a t) (hk : t.kind = .attributeValue) : ∀ c ∈ t.parts, c.kind = .attributeContent := by
  obtain ⟨l, hy, hl⟩ := h.row (s := .attributeValue) (by decide) (by rw [hk]; rfl)
  exact h.kind_of_mem (by rw [hk]; rfl) (kinds_attributeValue (hl (by decide)) hy)

theorem braces (h : Grown r a t) (hk : t.kind = .interpolation) : ∃ inner : Option Tree,
    t.parts = inner.toList ∧ ∀ e ∈ inner, e.kind = .expression := by
  obtain ⟨l, hy, hl⟩ := h.row (s := .interpolation) (by decide) (by rw [hk]; rfl)
  have hparts := h.parts (by rw [hk]; rfl)
  rcases kinds_interpolation (hl (by decide)) hy with hkinds | hkinds
  · rw [hkinds] at hparts
    exact ⟨none, List.map_eq_nil_iff.1 hparts, by simp⟩
  · rw [hkinds] at hparts
    obtain ⟨e, he, hkind⟩ := List.map_eq_singleton_iff.1 hparts
    exact ⟨some e, he, by simpa using hkind⟩

theorem name (h : Grown r a t) (hk : t.kind = .tagName) : t.span.start < t.span.stop := by
  obtain ⟨l, hy, -⟩ := h.row (s := .tagName) (by decide) (by rw [hk]; rfl)
  obtain ⟨c, b, rfl, hc⟩ := head_tagName hy
  exact h.solid c b rfl hc

theorem shaped (h : Grown r a t) : Shaped t :=
  ⟨h.leaf, h.exists_parts, h.tag, h.closing, h.value, h.quoted, h.braces, h.name⟩

end Grown

theorem IsToken.shaped {source : Text} {t : Tree} (h : t.IsToken source) : Shaped t := by
  refine ⟨fun _ => h.children, ?_, ?_, ?_, ?_, ?_, ?_, ?_⟩ <;> simp [h.kind]

theorem child?_eq_find? {k : Kind} (hk : k.isPart = true) (t : Tree) : t.child? k = t.parts.find? (·.kind == k) := by
  rw [child?, parts, List.find?_filter]
  congr 1
  funext c
  cases hc : c.kind == k with
  | false => simp
  | true => simp [beq_iff_eq.1 hc, hk]

namespace Shaped

variable {t : Tree}

/-- Braces are empty or hold one expression. -/
theorem braces_cases (h : t.Shaped) (hk : t.kind = .interpolation) :
    (t.child? .expression = none ∧ t.parts = []) ∨
      ∃ e ∈ t.children, t.child? .expression = some e ∧ e.kind = .expression ∧ t.parts = [e] := by
  obtain ⟨inner, hparts, hinner⟩ := h.braces hk
  rw [child?_eq_find? rfl, hparts]
  cases inner with
  | none => exact .inl ⟨rfl, rfl⟩
  | some e =>
    have he : e ∈ t.parts := by simp [hparts]
    exact .inr ⟨e, (List.mem_filter.1 he).1, by simp [hinner e rfl], hinner e rfl, rfl⟩

/-- An attribute has a name, and may have a value in quotes or in braces. -/
theorem value_cases (h : t.Shaped) (hk : t.kind = .attribute) : ∃ name ∈ t.parts, name.kind = .attributeName ∧
    ((t.parts = [name] ∧ t.child? .attributeValue = none ∧ t.child? .interpolation = none) ∨
      ∃ v ∈ t.parts, t.parts = [name, v] ∧ (v.kind = .attributeValue ∧ t.child? .attributeValue = some v ∨
        v.kind = .interpolation ∧ t.child? .attributeValue = none ∧ t.child? .interpolation = some v)) := by
  obtain ⟨name, value, hparts, hname, hvalue⟩ := h.value hk
  rw [child?_eq_find? rfl, child?_eq_find? rfl, hparts]
  refine ⟨name, List.mem_cons_self, hname, ?_⟩
  cases value with
  | none => exact .inl (by simp [hname])
  | some v =>
    refine .inr ⟨v, by simp, rfl, (hvalue v rfl).imp (fun hv => ⟨hv, ?_⟩) fun hv => ⟨hv, ?_, ?_⟩⟩
    · simp [hname, hv]
    · simp [hname, hv]
    · simp [hname, hv]

end Shaped

end Tree

open Grammar in
/-- **All nodes of a document** but the tokens are nodes of its parse. -/
theorem parse_laid {doc : Document} {c : Cst} (h : doc.parse = .ok c) {t : Tree} (ht : t ∈ c.tree.nodes) :
    t.IsToken doc.text ∨ ∃ pre u post p v, doc.text = pre ++ (u ++ post) ∧ Laid document (bytes pre) u p ∧
      p.Firm doc.text ∧ v ∈ Tree.named p ∧ t = v.finished doc.text := by
  obtain ⟨inner, rfl, hlaid, hinner⟩ := parse_cases h
  rw [tree_ofParse] at ht
  rcases Tree.mem_nodes_finished ht with htoken | ⟨v, hv, rfl⟩
  · exact .inl htoken
  · have hsource : doc.text = [] ++ (doc.text ++ []) := by simp
    have hfirm : Parse.Firm doc.text (.node .program 0 (bytes doc.text) inner) := by
      rw [Parse.Firm]
      exact ⟨fun _ hp => absurd rfl hp, hinner⟩
    obtain ⟨pre, u, post, q, hsrc, hq, hfq, hvq⟩ := Tree.laid_below hlaid [] [] hsource rfl hfirm _
      (Tree.mem_named.2 ⟨.program, rfl, rfl⟩) v hv
    exact .inr ⟨pre, u, post, q, v, hsrc, hq, hfq, hvq, rfl⟩

theorem parse_grown {doc : Document} {c : Cst} (h : doc.parse = .ok c) {t : Tree} (ht : t ∈ c.tree.nodes) :
    t.IsToken doc.text ∨ ∃ r a, Tree.Grown r a t := by
  rcases parse_laid h ht with htoken | ⟨pre, u, post, p, v, hsrc, hp, -, hv, rfl⟩
  · exact .inl htoken
  · exact .inr (Tree.grown_finished hsrc hp hv)

/-- **All nodes of a document are shaped as markup is.** -/
theorem parse_shaped {doc : Document} {c : Cst} (h : doc.parse = .ok c) : ∀ t ∈ c.tree.nodes, t.Shaped := by
  intro t ht
  rcases parse_grown h ht with htoken | ⟨r, a, hgrown⟩
  · exact htoken.shaped
  · exact hgrown.shaped

end InlineMarkup
