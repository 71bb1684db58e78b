import InlineMarkup.Lowering.Lower
import InlineMarkup.Proofs.Spread
import InlineMarkup.Proofs.Steps
/-!
# Proofs.Finished — lowering looks past tokens

In the tree of a document the ends of the nodes are moved back and tokens stand among their children (`Tree.finished`).
What lowering asks of a node's children is about nodes other than tokens, and gives the same as it would without them
(`child?_finished`).  An element consists of a tag, content and perhaps a closing tag (`Parts`), and what else stands
among its content gives no child (`each_children`).
-/
namespace InlineMarkup

open Text (bytes isBlank)

/-- Neither a token nor a comment, which may stand anywhere. -/
def Kind.isPart (k : Kind) : Bool := k != .token && k != .comment

namespace Tree

/-- The tree as it stands in a document: its ends are moved back, and tokens stand in its gaps. -/
def finished (source : Text) (t : Tree) : Tree := (t.trimmed source).tokenized source

variable {source : Text}

theorem finished_node (k : Kind) (s : Span) (cs : List Tree) :
    (Tree.node k s cs).finished source = .node k (trimSpan source k s (trimmedAll source cs))
      (if k.isLeaf then cs.map (finished source)
       else withTokens source (trimSpan source k s (trimmedAll source cs)).stop
        (trimSpan source k s (trimmedAll source cs)).start (cs.map (finished source))) := by
  have hall : tokenizedAll source (trimmedAll source cs) = cs.map (finished source) := by
    rw [tokenizedAll_eq_map, trimmedAll_eq_map, List.map_map]
    rfl
  rw [finished, trimmed, tokenized, hall]

theorem kind_finished (t : Tree) : (t.finished source).kind = t.kind := by
  obtain ⟨k, s, cs⟩ := t
  rw [finished_node]
  rfl

theorem span_finished (t : Tree) : (t.finished source).span = (t.trimmed source).span := span_tokenized source _

/-! ## Tokens among the children -/

/-- The span of a piece of the text `u` at an offset, a piece that begins with a character that is not blank. -/
def IsRun (off : Nat) (u : Text) (s : Span) : Prop :=
  ∃ a x v b, u = a ++ (x :: v ++ b) ∧ s = ⟨off + bytes a, off + bytes a + bytes (x :: v)⟩ ∧ isBlank x = false

/-- **Tokens are pieces of their gap.** -/
theorem isRun_of_spanOf {off : Nat} {u : Text} {k : GapClass} {s : Span} (hk : k ≠ .blank) (h : SpanOf off u k s) :
    IsRun off u s := by
  obtain ⟨a, v, b, rfl, hne, hv, rfl⟩ := h
  obtain ⟨x, v, rfl⟩ := List.exists_cons_of_ne_nil hne
  exact ⟨a, x, v, b, rfl, rfl, GapClass.solid_of (hv x List.mem_cons_self) hk⟩

/-- A token: a piece of the source, with nothing below it. -/
structure IsToken (source : Text) (t : Tree) : Prop where
  kind : t.kind = .token
  children : t.children = []
  run : IsRun 0 source t.span

theorem isToken_of_mem {start stop : Nat} {t : Tree} (h : t ∈ tokenTrees source start stop) : t.IsToken source := by
  obtain ⟨s, hs, rfl⟩ := List.mem_map.1 h
  refine ⟨rfl, rfl, ?_⟩
  unfold gapTokens at hs
  split at hs
  · split at hs
    · next gap hgap =>
      obtain ⟨p, w, rfl, rfl, -⟩ := Text.slice?_eq_some hgap
      obtain ⟨k, hk, hspan⟩ := (runs_splitTokens gap _).spanOf hs
      obtain ⟨a, x, v, b, rfl, rfl, hx⟩ := isRun_of_spanOf hk hspan
      exact ⟨p ++ a, x, v, b ++ w, by simp, by simp [Tree.span], hx⟩
    · cases hs
  · cases hs

theorem IsToken.solid {t : Tree} (h : t.IsToken source) : t.span.start < t.span.stop := by
  obtain ⟨a, x, v, b, -, hs, -⟩ := h.run
  have := Text.bytes_pos (List.cons_ne_nil x v)
  rw [hs]
  show 0 + bytes a < 0 + bytes a + bytes (x :: v)
  omega

theorem filter_withTokens {p : Tree → Bool} (hp : ∀ t : Tree, t.kind = .token → p t = false) (stop : Nat) :
    ∀ (ts : List Tree) (cursor : Nat), (withTokens source stop cursor ts).filter p = ts.filter p := by
  have htokens : ∀ start stop, (tokenTrees source start stop).filter p = [] := by
    intro start stop
    rw [List.filter_eq_nil_iff]
    intro t ht
    rw [hp t (isToken_of_mem ht).kind]
    exact Bool.false_ne_true
  intro ts
  induction ts with
  | nil => exact fun cursor => htokens cursor stop
  | cons t ts ih =>
    intro cursor
    rw [withTokens, List.filter_append, htokens, List.nil_append, List.filter_cons, List.filter_cons, ih]

/-- **Filters that drop tokens do not see them.** -/
theorem filter_children_finished {p : Tree → Bool} (hp : ∀ t : Tree, t.kind = .token → p t = false) (t : Tree) :
    (t.finished source).children.filter p = (t.children.map (finished source)).filter p := by
  obtain ⟨k, s, cs⟩ := t
  rw [finished_node]
  show (ite _ _ _ : List Tree).filter p = _
  split
  · rfl
  · exact filter_withTokens hp _ _ _

theorem filter_kind_finished {q : Kind → Bool} (hq : q .token = false) (t : Tree) :
    (t.finished source).children.filter (fun c => q c.kind) =
      (t.children.filter fun c => q c.kind).map (finished source) := by
  rw [filter_children_finished (fun t ht => by rw [ht, hq]), List.filter_map]
  refine congrArg _ (List.filter_congr fun c _ => ?_)
  simp [kind_finished]

theorem child?_finished {k : Kind} (hk : k ≠ .token) (t : Tree) :
    (t.finished source).child? k = (t.child? k).map (finished source) := by
  rw [child?, ← List.head?_filter, filter_kind_finished (q := (· == k)) (by simpa using Ne.symm hk), List.head?_map,
    List.head?_filter]
  rfl

/-- The children that a node has by its kind. -/
def parts (t : Tree) : List Tree := t.children.filter (·.kind.isPart)

theorem parts_finished (t : Tree) : (t.finished source).parts = t.parts.map (finished source) :=
  filter_kind_finished rfl t

theorem mem_withTokens {stop : Nat} {c : Tree} : ∀ {ts : List Tree} {cursor : Nat},
    c ∈ withTokens source stop cursor ts → c.IsToken source ∨ c ∈ ts
  | [], cursor, h => .inl (isToken_of_mem h)
  | t :: ts, cursor, h => by
    rw [withTokens, List.mem_append, List.mem_cons] at h
    rcases h with h | rfl | h
    · exact .inl (isToken_of_mem h)
    · exact .inr List.mem_cons_self
    · exact (mem_withTokens h).imp id (List.mem_cons_of_mem t)

theorem mem_children_finished {t c : Tree} (h : c ∈ (t.finished source).children) :
    c.IsToken source ∨ c ∈ t.children.map (finished source) := by
  obtain ⟨k, s, cs⟩ := t
  rw [finished_node, children] at h
  split at h
  · exact .inr h
  · exact mem_withTokens h

mutual

/-- **The nodes of a finished tree** are tokens and the finished nodes of the tree. -/
theorem mem_nodes_finished {u : Tree} : ∀ {t : Tree}, u ∈ (t.finished source).nodes →
    u.IsToken source ∨ ∃ v ∈ t.nodes, u = v.finished source
  | .node k s cs, h => by
    rw [mem_nodes_iff] at h
    rcases h with rfl | ⟨c, hc, hu⟩
    · exact .inr ⟨_, mem_nodes_self _, rfl⟩
    · rcases mem_children_finished hc with htoken | hmem
      · rw [mem_nodes_iff, htoken.children] at hu
        rcases hu with rfl | ⟨_, hnil, _⟩
        · exact .inl htoken
        · cases hnil
      · have hall : u ∈ nodesAll (cs.map (finished source)) := mem_nodesAll.2 ⟨c, hmem, hu⟩
        refine (mem_nodesAll_finished hall).imp id fun ⟨v, hv, hu⟩ => ⟨v, ?_, hu⟩
        exact mem_nodes_iff.2 (.inr (mem_nodesAll.1 hv))

theorem mem_nodesAll_finished {u : Tree} : ∀ {ts : List Tree}, u ∈ nodesAll (ts.map (finished source)) →
    u.IsToken source ∨ ∃ v ∈ nodesAll ts, u = v.finished source
  | [], h => by cases h
  | t :: ts, h => by
    rw [List.map_cons, nodesAll, List.mem_append] at h
    rcases h with h | h
    · refine (mem_nodes_finished h).imp id fun ⟨v, hv, hu⟩ => ⟨v, ?_, hu⟩
      exact List.mem_append_left _ hv
    · refine (mem_nodesAll_finished h).imp id fun ⟨v, hv, hu⟩ => ⟨v, ?_, hu⟩
      exact List.mem_append_right _ hv

end

end Tree

namespace Lowering

open InlineMarkup.Tree

variable {source : Text}

/-- The kinds of trees that stand between the tags of an element. -/
def contentKinds : List Kind := [.text, .interpolation, .markupComment, .element]

/-- What an element consists of. -/
structure Parts (t tag : Tree) (inner : List Tree) (closing : Option Tree) : Prop where
  parts : t.parts = tag :: (inner ++ closing.toList)
  tag_kind : tag.kind = .elementOpening ∨ tag.kind = .elementSelfClosing
  inner_kind : ∀ c ∈ inner, c.kind ∈ contentKinds
  closing_kind : ∀ c ∈ closing, c.kind = .elementClosing

namespace Parts

variable {t tag : Tree} {inner : List Tree} {closing : Option Tree}

theorem finished (h : Parts t tag inner closing) (source : Text) :
    Parts (t.finished source) (tag.finished source) (inner.map (Tree.finished source))
      (closing.map (Tree.finished source)) := by
  refine ⟨?_, ?_, ?_, ?_⟩
  · rw [parts_finished, h.parts]
    cases closing <;> simp
  · rw [kind_finished]
    exact h.tag_kind
  · intro c hc
    obtain ⟨d, hd, rfl⟩ := List.mem_map.1 hc
    rw [kind_finished]
    exact h.inner_kind d hd
  · intro c hc
    obtain ⟨d, hd, rfl⟩ := Option.map_eq_some_iff.1 hc
    rw [kind_finished]
    exact h.closing_kind d hd

/-- The children of some kinds, where content has none of them or all. -/
theorem filter (h : Parts t tag inner closing) {q : Kind → Bool} (hq : q .token = false ∧ q .comment = false) {b : Bool}
    (hb : ∀ k ∈ contentKinds, q k = b) :
    t.children.filter (fun c => q c.kind) =
      (if q tag.kind then [tag] else []) ++
        ((if b then inner else []) ++ (if q .elementClosing then closing.toList else [])) := by
  have hparts : t.children.filter (fun c => q c.kind) = t.parts.filter fun c => q c.kind := by
    rw [Tree.parts, List.filter_filter]
    refine List.filter_congr fun c _ => ?_
    by_cases htoken : c.kind = .token
    · rw [htoken, hq.1]
      rfl
    · by_cases hcomment : c.kind = .comment
      · rw [hcomment, hq.2]
        rfl
      · simp [Kind.isPart, htoken, hcomment]
  have hinner : inner.filter (fun c => q c.kind) = if b then inner else [] := by
    have hkind : ∀ c ∈ inner, q c.kind = b := fun c hc => hb _ (h.inner_kind c hc)
    cases b with
    | false => exact List.filter_eq_nil_iff.2 fun c hc => by rw [hkind c hc]; exact Bool.false_ne_true
    | true => exact List.filter_eq_self.2 hkind
  have hclosing : closing.toList.filter (fun c => q c.kind) = if q .elementClosing then closing.toList else [] := by
    cases closing with
    | none => simp
    | some c => simp [List.filter_cons, h.closing_kind c rfl]
  rw [hparts, h.parts, List.filter_cons, List.filter_append, hinner, hclosing]
  split <;> rfl

theorem openingTag? (h : Parts t tag inner closing) : openingTag? t = some tag := by
  have hfilter := h.filter (q := fun k => k == .elementOpening || k == .elementSelfClosing) (b := false) ⟨rfl, rfl⟩ (by decide)
  rw [if_pos (by simpa using h.tag_kind)] at hfilter
  rw [Lowering.openingTag?, ← List.head?_filter, List.filter_reverse, hfilter]
  rfl

theorem closingTag? (h : Parts t tag inner closing) : closingTag? t = closing := by
  have hfilter := h.filter (q := (· == .elementClosing)) (b := false) ⟨rfl, rfl⟩ (by decide)
  rw [if_neg (by rcases h.tag_kind with hk | hk <;> simp [hk])] at hfilter
  rw [Lowering.closingTag?, ← List.head?_filter, List.filter_reverse, hfilter]
  cases closing <;> rfl

theorem isSelfClosing (h : Parts t tag inner closing) : isSelfClosing t = (tag.kind == .elementSelfClosing) := by
  have hfilter := h.filter (q := (· == .elementSelfClosing)) (b := false) ⟨rfl, rfl⟩ (by decide)
  cases hk : tag.kind == .elementSelfClosing with
  | true =>
    have htag : tag ∈ t.children.filter (·.kind == .elementSelfClosing) := by
      rw [hfilter, hk]
      exact List.mem_cons_self
    exact List.any_eq_true.2 ⟨tag, List.mem_filter.1 htag⟩
  | false =>
    rw [hk] at hfilter
    exact List.any_eq_false.2 (List.filter_eq_nil_iff.1 hfilter)

theorem content (h : Parts t tag inner closing) : (content t).filter (·.kind.isPart) = inner := by
  have hfilter := h.filter (q := fun k => k.isPart &&
    (k != .elementOpening && k != .elementSelfClosing && k != .elementClosing)) (b := true) ⟨rfl, rfl⟩ (by decide)
  rw [if_neg (by rcases h.tag_kind with hk | hk <;> simp [hk])] at hfilter
  rw [Lowering.content, List.filter_filter, hfilter]
  exact List.append_nil inner

/-- **The check of an element's tags.** -/
theorem result_tagOf (h : Parts t tag inner closing) (i : Input) :
    (i.tagOf t).result = match (tagName? i.source tag).filter (!·.isEmpty) with
      | none => .error (.noTagName tag.span)
      | some name =>
        if tag.kind = .elementSelfClosing then .ok (tag, name)
        else match closing with
          | none => .error (.neverClosed name tag.span)
          | some close =>
            if (tagName? i.source close).getD [] = name then .ok (tag, name)
            else .error (.mismatch name ((tagName? i.source close).getD []) tag.span close.span
              (Position.ofOffset i.source tag.span.start)) := by
  rw [Input.tagOf, h.openingTag?]
  simp only
  cases (tagName? i.source tag).filter (!·.isEmpty) with
  | none => rfl
  | some name =>
    simp only [Input.checkTags, h.isSelfClosing, h.closingTag?, beq_iff_eq, Logged.result_bind]
    split
    · rfl
    · cases closing with
      | none => rfl
      | some close =>
        simp only
        split <;> rfl

theorem tagOf_eq_ok (h : Parts t tag inner closing) {i : Input} {name : Text} (hname : tagName? i.source tag = some name)
    (hne : name ≠ [])
    (hclosed : tag.kind = .elementSelfClosing ∨ ∃ close, closing = some close ∧ tagName? i.source close = some name) :
    (i.tagOf t).result = .ok (tag, name) := by
  have hfilter : (tagName? i.source tag).filter (!·.isEmpty) = some name := by
    rw [hname, Option.filter_some, if_pos (by simpa using hne)]
  rw [h.result_tagOf, hfilter]
  simp only
  split
  · rfl
  · next hsingle =>
    obtain ⟨close, rfl, hclose⟩ := hclosed.resolve_left hsingle
    simp only [hclose]
    exact if_pos rfl

end Parts

/-! ## The children of an element -/

/-- **Tokens and comments among the content give no child.** -/
theorem each_children {i : Input} {room : Nat} : ∀ (ts : List Tree) {xs : List (Option Text)},
    List.Forall₂ (fun t x => (i.lowerChild room t).result = .ok x) (ts.filter (·.kind.isPart)) xs →
    ∃ ys, (Logged.each (i.lowerChild room) ts).result = .ok ys ∧ ys.filterMap id = xs.filterMap id
  | [], xs, h => by
    cases h
    exact ⟨[], rfl, rfl⟩
  | t :: ts, xs, h => by
    cases ht : t.kind.isPart with
    | false =>
      rw [List.filter_cons_of_neg (by simp [ht])] at h
      obtain ⟨ys, hys, hsame⟩ := each_children ts h
      refine ⟨none :: ys, ?_, hsame⟩
      rw [Logged.result_each_eq_ok] at hys ⊢
      refine .cons (Input.result_lowerChild_other ?_ ?_ ?_) hys <;> intro hk <;> rw [hk] at ht <;> cases ht
    | true =>
      rw [List.filter_cons_of_pos (by simp [ht])] at h
      obtain _ | ⟨hx, h⟩ := h
      obtain ⟨ys, hys, hsame⟩ := each_children ts h
      refine ⟨_ :: ys, ?_, by rw [List.filterMap_cons, List.filterMap_cons, hsame]⟩
      rw [Logged.result_each_eq_ok] at hys ⊢
      exact .cons hx hys

end Lowering
end InlineMarkup
