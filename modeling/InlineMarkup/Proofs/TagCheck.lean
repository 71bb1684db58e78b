import InlineMarkup.Proofs.HostCode
import InlineMarkup.Proofs.Shapes
/-!
# Proofs.TagCheck — a document is translated if the tags of its elements agree

Lowering goes through composed code, elements, attributes and expressions, but it comes past every element of a document,
and in the order in which they begin.  So with room to go down, what it gives is decided by the first element whose tags
do not agree (`Reports`): there is none and it succeeds, or it fails with what is wrong with this one
(`translate_checks_tags`).
-/
namespace InlineMarkup

open Lowering

/-! ## Tags that agree -/

/-- The element has a tag with a name, and a closing tag with the same name unless it is a single tag. -/
def Tree.WellTagged (source : Text) (t : Tree) : Prop :=
  ∃ tag ∈ t.children, ∃ name, tagName? source tag = some name ∧
    (tag.kind = .elementSelfClosing ∨ tag.kind = .elementOpening ∧
      ∃ close ∈ t.children, close.kind = .elementClosing ∧ tagName? source close = some name)

/-- A report on the tags of an element, `tag` being the first one. -/
inductive Tree.Blames (source : Text) (t tag : Tree) (d : Diagnostic) : Prop where
  | noName (unnamed : tagName? source tag = none) (kind : d.kind = .malformedElement) (span : d.span = some tag.span)
  | neverClosed {name : Text} (named : tagName? source tag = some name) (opens : tag.kind = .elementOpening)
      (unclosed : ∀ c ∈ t.children, c.kind ≠ .elementClosing)
      (kind : d.kind = .unmatchedElement) (span : d.span = some tag.span)
  | mismatch {name : Text} {close : Tree} (named : tagName? source tag = some name) (opens : tag.kind = .elementOpening)
      (mem : close ∈ t.children) (closes : close.kind = .elementClosing) (other : tagName? source close ≠ some name)
      (kind : d.kind = .unmatchedElement) (span : d.span = some close.span) (related : d.related.map Label.span = [tag.span])

theorem Kind.isLeaf_of_isPart {k : Kind} (h : k.isPart = false) : k.isLeaf = true := by
  revert h
  cases k <;> decide

theorem Tree.heights_mem {c : Tree} : ∀ {ts : List Tree}, c ∈ ts → c.height + 1 ≤ Tree.heights ts
  | t :: ts, hc => by
    rw [Tree.heights]
    rcases List.mem_cons.1 hc with rfl | hc
    · exact Nat.le_max_left _ _
    · exact Nat.le_trans (Tree.heights_mem hc) (Nat.le_max_right _ _)

theorem Tree.height_lt {c t : Tree} (hc : c ∈ t.children) : c.height < t.height := by
  obtain ⟨k, s, cs⟩ := t
  rw [Tree.height]
  exact Tree.heights_mem hc

namespace Lowering

/-! ## The first fault -/

/-- What is wrong with the tags of a node, if it is an element. -/
def fault? (i : Input) (t : Tree) : Option Fault :=
  match t.kind, (i.tagOf t).result with
  | .element, .error f => some f
  | _, _ => none

/-- The fault of the first element of a tree whose tags do not agree. -/
def faultIn? (i : Input) (t : Tree) : Option Fault := t.nodes.findSome? (fault? i)

section Lists

variable {α β : Type} {f : α → Option β}

theorem findSome?_cons_or (a : α) (as : List α) : (a :: as).findSome? f = (f a).or (as.findSome? f) := by
  rw [List.findSome?_cons]
  cases f a <;> rfl

theorem findSome?_filter {q : α → Bool} : ∀ {as : List α}, (∀ a ∈ as, q a = false → f a = none) →
    (as.filter q).findSome? f = as.findSome? f
  | [], _ => rfl
  | a :: as, h => by
    have has : (as.filter q).findSome? f = as.findSome? f := findSome?_filter fun x hx => h x (List.mem_cons_of_mem a hx)
    cases hq : q a with
    | false =>
      rw [List.filter_cons_of_neg (by simp [hq]), findSome?_cons_or, h a List.mem_cons_self hq, has]
      rfl
    | true => rw [List.filter_cons_of_pos hq, findSome?_cons_or, findSome?_cons_or, has]

theorem findSome?_nodesAll {f : Tree → Option β} (ts : List Tree) :
    (Tree.nodesAll ts).findSome? f = ts.findSome? fun t => t.nodes.findSome? f := by
  induction ts with
  | nil => rfl
  | cons t ts ih => rw [Tree.nodesAll, List.findSome?_append, findSome?_cons_or, ih]

end Lists

variable {i : Input} {t : Tree}

theorem faultIn?_eq (t : Tree) : faultIn? i t = (fault? i t).or (t.children.findSome? (faultIn? i)) := by
  obtain ⟨k, s, cs⟩ := t
  rw [faultIn?, Tree.nodes, findSome?_cons_or, findSome?_nodesAll]
  rfl

theorem fault?_eq_none (h : t.kind ≠ .element) : fault? i t = none := by
  unfold fault?
  split
  · next hk _ => exact absurd hk h
  · rfl

theorem faultIn?_of_ne (h : t.kind ≠ .element) : faultIn? i t = t.children.findSome? (faultIn? i) := by
  rw [faultIn?_eq, fault?_eq_none h]
  rfl

theorem faultIn?_of_hasMarkup (h : t.hasMarkup = false) : faultIn? i t = none := by
  refine List.findSome?_eq_none_iff.2 fun u hu => fault?_eq_none fun hk => ?_
  rw [Tree.hasMarkup_iff.2 ⟨u, hu, hk⟩] at h
  cases h

/-! ## Trees of the right shape -/

/-- All nodes of the tree are shaped. -/
def WellShaped (t : Tree) : Prop := ∀ u ∈ t.nodes, u.Shaped

namespace WellShaped

theorem self (h : WellShaped t) : t.Shaped := h t (Tree.mem_nodes_self t)

theorem child (h : WellShaped t) {c : Tree} (hc : c ∈ t.children) : WellShaped c :=
  fun u hu => h u (Tree.mem_nodes_iff.2 (.inr ⟨c, hc, hu⟩))

theorem part (h : WellShaped t) {c : Tree} (hc : c ∈ t.parts) : WellShaped c := h.child (List.mem_filter.1 hc).1

theorem leaf (h : WellShaped t) (hl : t.kind.isLeaf = true) : faultIn? i t = none := by
  have hk : t.kind ≠ .element := by
    intro hk
    rw [hk] at hl
    cases hl
  rw [faultIn?_of_ne hk, h.self.leaf hl]
  rfl

theorem children (h : WellShaped t) : t.children.findSome? (faultIn? i) = t.parts.findSome? (faultIn? i) := by
  exact (findSome?_filter fun c hc hpart => (h.child hc).leaf (Kind.isLeaf_of_isPart hpart)).symm

theorem leaves (h : WellShaped t) (hk : t.kind ≠ .element) (hl : ∀ c ∈ t.parts, c.kind.isLeaf = true) :
    faultIn? i t = none := by
  rw [faultIn?_of_ne hk, h.children]
  exact List.findSome?_eq_none_iff.2 fun c hc => (h.part hc).leaf (hl c hc)

/-- What braces hold is the expression in them. -/
theorem braces (h : WellShaped t) (hk : t.kind = .interpolation) :
    (t.child? .expression = none ∧ faultIn? i t = none) ∨
      ∃ e ∈ t.children, t.child? .expression = some e ∧ faultIn? i t = faultIn? i e := by
  rw [faultIn?_of_ne (by rw [hk]; decide), h.children]
  rcases h.self.braces_cases hk with ⟨hnone, hparts⟩ | ⟨e, he, hsome, -, hparts⟩
  · exact .inl ⟨hnone, by rw [hparts]; rfl⟩
  · exact .inr ⟨e, he, hsome, by simp [hparts]⟩

/-- What an attribute holds is its value: a quoted text, or what stands in braces. -/
theorem value (h : WellShaped t) (hk : t.kind = .attribute) :
    (t.child? .attributeValue = none ∧ t.child? .interpolation = none ∧ faultIn? i t = none) ∨
    (∃ v, t.child? .attributeValue = some v ∧ faultIn? i t = none) ∨
    ∃ v ∈ t.children, v.kind = .interpolation ∧ t.child? .attributeValue = none ∧ t.child? .interpolation = some v ∧
      faultIn? i t = faultIn? i v := by
  rw [faultIn?_of_ne (by rw [hk]; decide), h.children]
  obtain ⟨name, hmem, hname, hvalue⟩ := h.self.value_cases hk
  have hleaf : faultIn? i name = none := (h.part hmem).leaf (by rw [hname]; rfl)
  rcases hvalue with ⟨hparts, hquoted, hbraces⟩ | ⟨v, hv, hparts, ⟨hvk, hquoted⟩ | ⟨hvk, hquoted, hbraces⟩⟩
  · exact .inl ⟨hquoted, hbraces, by simp [hparts, hleaf]⟩
  · have hnone : faultIn? i v = none := by
      refine (h.part hv).leaves (by rw [hvk]; decide) fun c hc => ?_
      rw [(h.part hv).self.quoted hvk c hc]
      rfl
    exact .inr (.inl ⟨v, hquoted, by simp [hparts, hleaf, hnone]⟩)
  · exact .inr (.inr ⟨v, (List.mem_filter.1 hv).1, hvk, hquoted, hbraces, by simp [hparts, hleaf]⟩)

end WellShaped

/-- An only operand has comments and parentheses beside it. -/
theorem singleOperand?_filter {source : Text} {c : Tree} (hc : singleOperand? source t = some c) :
    ∃ q : Tree → Bool, t.children.filter q = [c] ∧ ∀ d ∈ t.children, q d = false → d.kind.isLeaf = true := by
  unfold singleOperand? at hc
  split at hc
  · next c' hcs =>
    obtain rfl : c' = c := Option.some.inj hc
    refine ⟨_, hcs, fun d _ hdrop => ?_⟩
    by_cases hcomment : d.kind = .comment
    · rw [hcomment]
      rfl
    by_cases htoken : d.kind = .token
    · rw [htoken]
      rfl
    · simp [Tree.isToken, hcomment, htoken] at hdrop
  · cases hc

theorem mem_of_singleOperand? {source : Text} {c : Tree} (hc : singleOperand? source t = some c) : c ∈ t.children := by
  obtain ⟨q, hcs, -⟩ := singleOperand?_filter hc
  have hmem := List.mem_singleton_self c
  rw [← hcs] at hmem
  exact (List.mem_filter.1 hmem).1

theorem unwrapUpTo_mem (source : Text) : ∀ (n : Nat) (t : Tree), unwrapUpTo source n t ∈ t.nodes
  | 0, t => Tree.mem_nodes_self t
  | n + 1, t => by
    rw [unwrapUpTo]
    split
    · next d hd =>
      split
      · exact Tree.mem_nodes_iff.2 (.inr ⟨d, mem_of_singleOperand? hd, unwrapUpTo_mem source n d⟩)
      · exact Tree.mem_nodes_self t
    · exact Tree.mem_nodes_self t

theorem singleOperand?_spec {source : Text} {c : Tree} (h : WellShaped t) (hc : singleOperand? source t = some c) :
    c ∈ t.children ∧ t.children.findSome? (faultIn? i) = faultIn? i c := by
  refine ⟨mem_of_singleOperand? hc, ?_⟩
  obtain ⟨q, hcs, hrest⟩ := singleOperand?_filter hc
  rw [← findSome?_filter, hcs, findSome?_cons_or, List.findSome?_nil, Option.or_none]
  exact fun d hd hdrop => (h.child hd).leaf (hrest d hd hdrop)

/-- **Looking through wrappers** passes no element by. -/
theorem unwrapUpTo_spec (source : Text) : ∀ (n : Nat) (t : Tree), WellShaped t →
    WellShaped (unwrapUpTo source n t) ∧ (unwrapUpTo source n t).height ≤ t.height ∧
      faultIn? i (unwrapUpTo source n t) = faultIn? i t
  | 0, t, h => ⟨h, Nat.le_refl _, rfl⟩
  | n + 1, t, h => by
    rw [unwrapUpTo]
    cases hc : singleOperand? source t with
    | none => exact ⟨h, Nat.le_refl _, rfl⟩
    | some c =>
      simp only
      split
      · next hw =>
        have hk : t.kind ≠ .element := by
          intro hk
          rw [hk] at hw
          cases hw
        obtain ⟨hmem, hfault⟩ := singleOperand?_spec (i := i) h hc
        obtain ⟨hshape, hheight, hsame⟩ := unwrapUpTo_spec source n c (h.child hmem)
        have hlt := Tree.height_lt hmem
        exact ⟨hshape, by omega, by rw [hsame, faultIn?_of_ne hk, hfault]⟩
      · exact ⟨h, Nat.le_refl _, rfl⟩

/-! ## Results that agree with a fault -/

/-- The result is a failure with this fault, or a success if there is none. -/
def Agrees {α : Type} (x : Except Fault α) : Option Fault → Prop
  | none => ∃ a, x = .ok a
  | some f => x = .error f

namespace Agrees

variable {α β : Type} {x : Except Fault α} {o o' : Option Fault}

theorem ok (a : α) : Agrees (.ok a) none := ⟨a, rfl⟩

theorem bind {f : α → Except Fault β} (hx : Agrees x o) (hf : ∀ a, x = .ok a → Agrees (f a) o') :
    Agrees (x.bind f) (o.or o') := by
  cases o with
  | none =>
    obtain ⟨a, rfl⟩ := hx
    exact hf a rfl
  | some e =>
    obtain rfl : x = .error e := hx
    rfl

theorem map (hx : Agrees x o) (f : α → β) : Agrees (x.bind fun a => .ok (f a)) o := by
  have hbind : Agrees (x.bind fun a => .ok (f a)) (o.or none) := hx.bind fun a _ => .ok (f a)
  rwa [Option.or_none] at hbind

/-- **Going through a list** fails with the first fault in it. -/
theorem each {g : Tree → Step α} : ∀ {ts : List Tree}, (∀ t ∈ ts, Agrees (g t).result (faultIn? i t)) →
    Agrees (Logged.each g ts).result (ts.findSome? (faultIn? i))
  | [], _ => .ok []
  | t :: ts, h => by
    rw [Logged.result_each_cons, findSome?_cons_or]
    refine (h t List.mem_cons_self).bind fun a _ => (each fun u hu => h u (List.mem_cons_of_mem t hu)).map _

end Agrees

/-! ## Lowering reports the first fault -/

/-- With room to go down, each way of lowering reports the first fault below. -/
structure Reports (i : Input) (room : Nat) : Prop where
  compose : ∀ t, WellShaped t → 2 * t.height + 1 ≤ room → Agrees (i.compose room t).result (faultIn? i t)
  element : ∀ t, WellShaped t → t.kind = .element → 2 * t.height ≤ room →
    Agrees (i.lowerElement room t).result (faultIn? i t)
  expression : ∀ t, WellShaped t → 2 * t.height + 2 ≤ room → Agrees (i.lowerExpression room t).result (faultIn? i t)
  value : ∀ t, WellShaped t → t.kind = .attribute → 2 * t.height + 1 ≤ room →
    Agrees (i.lowerAttribute room t).result (faultIn? i t)

section Steps

variable {room : Nat}

theorem agrees_compose (ih : Reports i room) (h : WellShaped t) (hroom : 2 * t.height + 1 ≤ room + 1) :
    Agrees (i.compose (room + 1) t).result (faultIn? i t) := by
  rw [Input.result_compose]
  split
  · next hmarkup =>
    rw [faultIn?_of_hasMarkup hmarkup]
    exact .ok _
  · split
    · next hk => exact ih.element t h hk (by omega)
    · next hk =>
      rw [faultIn?_of_ne hk]
      refine (Agrees.each fun c hc => ih.compose c (h.child hc) ?_).map _
      have := Tree.height_lt hc
      omega

theorem agrees_expression (ih : Reports i room) (h : WellShaped t) (hroom : 2 * t.height + 2 ≤ room + 1) :
    Agrees (i.lowerExpression (room + 1) t).result (faultIn? i t) := by
  obtain ⟨hshape, hheight, hfault⟩ : WellShaped (unwrap i.source t) ∧ (unwrap i.source t).height ≤ t.height ∧
      faultIn? i (unwrap i.source t) = faultIn? i t := unwrapUpTo_spec i.source maxUnwrap t h
  have hcore : Agrees (i.lowerCore room t).result (faultIn? i t) := by
    rw [Input.lowerCore]
    split
    · next hk =>
      rw [← hfault, hshape.leaf (by rcases hk with hk | hk <;> rw [hk] <;> rfl)]
      exact .ok _
    · split
      · next hk =>
        rw [← hfault]
        exact ih.element _ hshape hk (by omega)
      · split
        · exact ih.compose t h (by omega)
        · next hmarkup =>
          rw [faultIn?_of_hasMarkup (Bool.eq_false_iff.2 hmarkup)]
          exact .ok _
  rw [Input.result_lowerExpression]
  simp only [Input.result_closeComment]
  exact hcore.map _

theorem agrees_value (ih : Reports i room) (h : WellShaped t) (hk : t.kind = .attribute)
    (hroom : 2 * t.height + 1 ≤ room + 1) : Agrees (i.lowerAttribute (room + 1) t).result (faultIn? i t) := by
  have hvalue : Agrees (i.lowerValue room t) (faultIn? i t) := by
    rw [Input.lowerValue]
    obtain ⟨hquoted, hbraces, hfault⟩ | ⟨v, hquoted, hfault⟩ | ⟨v, hv, hvk, hquoted, hbraces, hfault⟩ :=
      h.value (i := i) hk
    · rw [hquoted, hbraces, hfault]
      simp only
      split <;> exact .ok _
    · rw [hquoted, hfault]
      exact .ok _
    · rw [hquoted, hbraces, hfault]
      simp only
      rcases (h.child hv).braces (i := i) hvk with ⟨hnone, hfault⟩ | ⟨e, he, hsome, hfault⟩
      · rw [hnone, hfault]
        exact .ok _
      · rw [hsome, hfault]
        have := Tree.height_lt he
        have := Tree.height_lt hv
        exact ih.expression e ((h.child hv).child he) (by omega)
  rw [Input.result_lowerAttribute]
  exact hvalue.map _

theorem agrees_child (ih : ∀ r ≤ room, Reports i r) (h : WellShaped t)
    (hk : t.kind ∈ contentKinds ∨ t.kind.isLeaf = true) (hroom : 2 * t.height + 1 ≤ room) :
    Agrees (i.lowerChild room t).result (faultIn? i t) := by
  by_cases htext : t.kind = .text
  · rw [Input.result_lowerChild_text htext, h.leaf (by rw [htext]; rfl)]
    exact .ok _
  by_cases helement : t.kind = .element
  · rw [Input.result_lowerChild_element helement]
    exact ((ih room (Nat.le_refl room)).element t h helement (by omega)).map _
  by_cases hbraces : t.kind = .interpolation
  · rcases h.braces (i := i) hbraces with ⟨hnone, hfault⟩ | ⟨e, he, hsome, hfault⟩
    · rw [Input.result_lowerChild_empty hbraces hnone, hfault]
      exact .ok _
    · have hlt := Tree.height_lt he
      obtain ⟨room, rfl⟩ : ∃ r, room = r + 1 := ⟨room - 1, by omega⟩
      obtain ⟨hshape, hheight, hsame⟩ : WellShaped (unwrap i.source e) ∧ (unwrap i.source e).height ≤ e.height ∧
          faultIn? i (unwrap i.source e) = faultIn? i e := unwrapUpTo_spec i.source maxUnwrap e (h.child he)
      rw [Input.result_lowerChild_expression hbraces hsome, hfault]
      split
      · next hcore =>
        rw [← hsame]
        exact ((ih room (by omega)).element _ hshape hcore (by omega)).map _
      · exact ((ih room (by omega)).expression e (h.child he) (by omega)).map _
  · rw [Input.result_lowerChild_other htext helement hbraces, h.leaf]
    · exact .ok _
    · rcases hk with hk | hk
      · simp only [contentKinds, List.mem_cons, List.not_mem_nil, htext, helement, hbraces, false_or, or_false] at hk
        rw [hk]
        rfl
      · exact hk

/-- An element is left with its tag if its tags agree. -/
theorem tag_of_tagOf {tag : Tree} {inner : List Tree} {closing : Option Tree} (hparts : Parts t tag inner closing)
    {x : Tree × Text} (hx : (i.tagOf t).result = .ok x) : x.1 = tag :=
  Option.some.inj ((Input.tagOf_eq_ok hx).1.symm.trans hparts.openingTag?)

theorem fault?_agrees (hk : t.kind = .element) : Agrees (i.tagOf t).result (fault? i t) := by
  unfold fault?
  rw [hk]
  cases (i.tagOf t).result with
  | error f => rfl
  | ok x => exact .ok x

/-- The attributes of a tag are all that it holds. -/
theorem attributes_of_tag {tag : Tree} (h : WellShaped tag)
    (hk : tag.kind = .elementOpening ∨ tag.kind = .elementSelfClosing) :
    (tag.children.filter (·.kind == .attribute)).findSome? (faultIn? i) = faultIn? i tag := by
  have hne : tag.kind ≠ .element := by rcases hk with hk | hk <;> rw [hk] <;> decide
  have hattributes : tag.children.filter (·.kind == .attribute) = tag.parts.filter (·.kind == .attribute) := by
    rw [Tree.parts, List.filter_filter]
    refine List.filter_congr fun c _ => ?_
    cases hc : c.kind == .attribute with
    | false => rfl
    | true => rw [beq_iff_eq.1 hc]; rfl
  rw [faultIn?_of_ne hne, h.children, hattributes]
  refine findSome?_filter fun c hc hother => (h.part hc).leaf ?_
  rcases ((h.self.tag hk).2 c hc).1 with hname | hattribute
  · rw [hname]
    rfl
  · rw [hattribute] at hother
    cases hother

theorem agrees_element (ih : ∀ r ≤ room, Reports i r) (h : WellShaped t) (hk : t.kind = .element)
    (hroom : 2 * t.height ≤ room + 1) : Agrees (i.lowerElement (room + 1) t).result (faultIn? i t) := by
  obtain ⟨tag, inner, closing, hparts⟩ := h.self.element hk
  have htag : tag ∈ t.parts := by simp [hparts.parts]
  have hheight := Tree.height_lt (List.mem_filter.1 htag).1
  have hclosing : closing.toList.findSome? (faultIn? i) = none := by
    refine List.findSome?_eq_none_iff.2 fun c hc => ?_
    have hmem : c ∈ t.parts := by rw [hparts.parts]; simp [Option.mem_toList.1 hc]
    have hck := hparts.closing_kind c (Option.mem_toList.1 hc)
    refine (h.part hmem).leaves (by rw [hck]; decide) fun d hd => ?_
    rw [(h.part hmem).self.closing hck d hd]
    rfl
  have hcontent : (content t).findSome? (faultIn? i) = inner.findSome? (faultIn? i) := by
    rw [← hparts.content]
    refine (findSome?_filter fun c hc hpart => (h.child (List.mem_filter.1 hc).1).leaf ?_).symm
    exact Kind.isLeaf_of_isPart hpart
  rw [Input.result_lowerElement, faultIn?_eq, h.children, hparts.parts, findSome?_cons_or, List.findSome?_append, hclosing,
    Option.or_none, ← hcontent]
  refine (fault?_agrees hk).bind fun x hx => ?_
  rw [tag_of_tagOf hparts hx, ← attributes_of_tag (h.part htag) hparts.tag_kind]
  refine Agrees.bind (Agrees.each fun a ha => ?_) fun as _ => (Agrees.each fun c hc => ?_).map _
  · obtain ⟨ha, hak⟩ := List.mem_filter.1 ha
    have := Tree.height_lt ha
    exact (ih room (Nat.le_refl room)).value a ((h.part htag).child ha) (beq_iff_eq.1 hak) (by omega)
  · have hmem := (List.mem_filter.1 hc).1
    have := Tree.height_lt hmem
    refine agrees_child ih (h.child hmem) ?_ (by omega)
    cases hpart : c.kind.isPart with
    | true =>
      refine .inl (hparts.inner_kind c ?_)
      rw [← hparts.content]
      exact List.mem_filter.2 ⟨hc, hpart⟩
    | false => exact .inr (Kind.isLeaf_of_isPart hpart)

end Steps

/-- **Lowering reports the first fault.** -/
theorem reports (i : Input) (room : Nat) : Reports i room := by
  induction room using Nat.strongRecOn with
  | ind room ih =>
    cases room with
    | zero =>
      refine ⟨fun t h hroom => by omega, fun t h hk hroom => ?_, fun t h hroom => by omega, fun t h hk hroom => by omega⟩
      obtain ⟨tag, inner, closing, hparts⟩ := h.self.element hk
      have htag : tag ∈ t.parts := by simp [hparts.parts]
      have := Tree.height_lt (List.mem_filter.1 htag).1
      omega
    | succ room =>
      have hroom := ih room (Nat.lt_succ_self room)
      refine ⟨fun t => agrees_compose hroom, fun t h hk => ?_, fun t => agrees_expression hroom, fun t h hk => ?_⟩
      · exact agrees_element (fun r hr => ih r (Nat.lt_succ_of_le hr)) h hk
      · exact agrees_value hroom h hk

/-! ## What is wrong with an element -/

section Tags

variable {tag : Tree} {inner : List Tree} {closing : Option Tree}

theorem Parts.mem_parts (h : Parts t tag inner closing) {c : Tree} (hc : c ∈ t.children) (hk : c.kind.isPart = true) :
    c = tag ∨ c.kind ∈ contentKinds ∨ closing = some c := by
  have hmem : c ∈ t.parts := List.mem_filter.2 ⟨hc, hk⟩
  rw [h.parts, List.mem_cons, List.mem_append, Option.mem_toList] at hmem
  exact hmem.imp id (Or.imp (h.inner_kind c) id)

theorem Parts.eq_tag (h : Parts t tag inner closing) {c : Tree} (hc : c ∈ t.children)
    (hk : c.kind = .elementSelfClosing ∨ c.kind = .elementOpening) : c = tag := by
  rcases h.mem_parts hc (by rcases hk with hk | hk <;> rw [hk] <;> rfl) with htag | hcontent | hclosing
  · exact htag
  · rcases hk with hk | hk <;> simp [hk, contentKinds] at hcontent
  · have := h.closing_kind c hclosing
    rcases hk with hk | hk <;> rw [hk] at this <;> cases this

theorem Parts.eq_closing (h : Parts t tag inner closing) {c : Tree} (hc : c ∈ t.children)
    (hk : c.kind = .elementClosing) : closing = some c := by
  rcases h.mem_parts hc (by rw [hk]; rfl) with rfl | hcontent | hclosing
  · rcases h.tag_kind with htag | htag <;> rw [hk] at htag <;> cases htag
  · simp [hk, contentKinds] at hcontent
  · exact hclosing

theorem Parts.wellTagged_iff (h : Parts t tag inner closing) {source : Text} :
    t.WellTagged source ↔ ∃ name, tagName? source tag = some name ∧
      (tag.kind = .elementSelfClosing ∨ ∃ close, closing = some close ∧ tagName? source close = some name) := by
  constructor
  · rintro ⟨tag', hmem, name, hname, hkind⟩
    obtain rfl : tag' = tag := h.eq_tag hmem (hkind.imp id And.left)
    refine ⟨name, hname, hkind.imp id ?_⟩
    rintro ⟨-, close, hclose, hk, hsame⟩
    exact ⟨close, h.eq_closing hclose hk, hsame⟩
  · rintro ⟨name, hname, hkind⟩
    have htag : tag ∈ t.parts := by simp [h.parts]
    refine ⟨tag, (List.mem_filter.1 htag).1, name, hname, ?_⟩
    by_cases hsingle : tag.kind = .elementSelfClosing
    · exact .inl hsingle
    · obtain ⟨close, rfl, hsame⟩ := hkind.resolve_left hsingle
      have hclose : close ∈ t.parts := by simp [h.parts]
      exact .inr ⟨h.tag_kind.resolve_right hsingle, close, (List.mem_filter.1 hclose).1, h.closing_kind close rfl, hsame⟩

/-- **The check of an element's tags** finds what is wrong with them, and nothing else. -/
theorem fault?_spec (h : Parts t tag inner closing) (hk : t.kind = .element)
    (hname : ∀ name, tagName? i.source tag = some name → name ≠ []) :
    (fault? i t = none ∧ t.WellTagged i.source) ∨
      ∃ f, fault? i t = some f ∧ ¬ t.WellTagged i.source ∧ ∀ doc, t.Blames i.source tag (f.report doc) := by
  have hfault : ∀ f, (i.tagOf t).result = .error f → fault? i t = some f := by
    intro f hf
    simp only [fault?, hk, hf]
  have hnone : ∀ x, (i.tagOf t).result = .ok x → fault? i t = none := by
    intro x hx
    simp only [fault?, hk, hx]
  have hresult := h.result_tagOf i
  rw [h.wellTagged_iff]
  cases hn : tagName? i.source tag with
  | none =>
    rw [hn] at hresult
    exact .inr ⟨_, hfault _ hresult, by simp, fun doc => .noName hn rfl rfl⟩
  | some name =>
    have hne := hname name hn
    rw [hn, Option.filter_some, if_pos (by simpa using hne)] at hresult
    simp only at hresult
    split at hresult
    · next hsingle => exact .inl ⟨hnone _ hresult, name, rfl, .inl hsingle⟩
    · next hsingle =>
      have hopens := h.tag_kind.resolve_right hsingle
      cases closing with
      | none =>
        refine .inr ⟨_, hfault _ hresult, by simp [hsingle], fun doc => .neverClosed hn hopens ?_ rfl rfl⟩
        intro c hc hck
        cases h.eq_closing hc hck
      | some close =>
        have hclose : close ∈ t.parts := by simp [h.parts]
        simp only at hresult
        split at hresult
        · next hsame =>
          refine .inl ⟨hnone _ hresult, name, rfl, .inr ⟨close, rfl, ?_⟩⟩
          cases hc : tagName? i.source close with
          | none => rw [hc] at hsame; exact absurd hsame.symm hne
          | some other => rw [hc] at hsame; exact congrArg some hsame
        · next hother =>
          have hother : tagName? i.source close ≠ some name := fun hc => hother (by rw [hc]; rfl)
          refine .inr ⟨_, hfault _ hresult, by simp [hsingle, hother], fun doc => ?_⟩
          exact .mismatch hn hopens (List.mem_filter.1 hclose).1 (h.closing_kind close rfl) hother rfl rfl rfl

end Tags

/-! ## Where elements begin -/

section Order

open InlineMarkup.Tree
open Text (bytes)

variable {G : Gaps} {off : Nat} {u : Text} {v : Tree}

theorem span_below (h : Spread G off u t) (hv : v ∈ t.nodes) :
    t.span.start ≤ v.span.start ∧ v.span.stop ≤ t.span.stop := by
  obtain ⟨pre, x, post, rfl, hx⟩ := h.below hv
  rw [h.span, hx.span]
  simp only [Text.bytes_append]
  omega

theorem spread_child (h : Spread G off u t) {c : Tree} (hc : c ∈ t.children) :
    ∃ off x, Spread G off x c ∧ t.span.start ≤ c.span.start ∧ c.span.stop ≤ t.span.stop := by
  have hmem : c ∈ t.nodes := mem_nodes_iff.2 (.inr ⟨c, hc, mem_nodes_self c⟩)
  obtain ⟨pre, x, post, -, hx⟩ := h.below hmem
  exact ⟨_, x, hx, span_below h hmem⟩

theorem parts_ordered (h : Spread G off u t) : t.parts.Pairwise fun c d => c.span.stop ≤ d.span.start := by
  rcases h.children with ⟨-, hcs⟩ | ⟨-, hcs⟩
  · rw [Tree.parts, hcs]
    exact .nil
  · exact hcs.ordered.filter _

/-- An element below a node is below one of its parts. -/
theorem exists_part (h : WellShaped t) (hv : v ∈ nodesAll t.children) (hk : v.kind = .element) :
    ∃ c ∈ t.parts, v ∈ c.nodes := by
  obtain ⟨c, hc, hvc⟩ := mem_nodesAll.1 hv
  cases hpart : c.kind.isPart with
  | true => exact ⟨c, List.mem_filter.2 ⟨hc, hpart⟩, hvc⟩
  | false =>
    have hleaf := Kind.isLeaf_of_isPart hpart
    rw [mem_nodes_iff, (h.child hc).self.leaf hleaf] at hvc
    rcases hvc with rfl | ⟨d, hd, -⟩
    · rw [hk] at hleaf
      cases hleaf
    · cases hd

/-- **An element begins before the elements in it.** -/
theorem start_lt_below (hspread : Spread G off u t) (h : WellShaped t) (hk : t.kind = .element)
    (hv : v ∈ nodesAll t.children) (hvk : v.kind = .element) : t.span.start < v.span.start := by
  obtain ⟨tag, inner, closing, hparts⟩ := h.self.element hk
  have htag : tag ∈ t.parts := by simp [hparts.parts]
  obtain ⟨_, _, htagSpread, hstart, -⟩ := spread_child hspread (List.mem_filter.1 htag).1
  obtain ⟨hsolid, hinside⟩ := (h.part htag).self.tag hparts.tag_kind
  obtain ⟨c, hc, hvc⟩ := exists_part h hv hvk
  obtain ⟨_, _, hcSpread, -, -⟩ := spread_child hspread (List.mem_filter.1 hc).1
  have horder := parts_ordered hspread
  rw [hparts.parts, List.pairwise_cons] at horder
  rw [hparts.parts, List.mem_cons] at hc
  rcases hc with rfl | hc
  · have hvtag : v ∈ nodesAll c.children := by
      rcases mem_nodes_iff.1 hvc with rfl | hbelow
      · rcases hparts.tag_kind with htagk | htagk <;> rw [hvk] at htagk <;> cases htagk
      · exact mem_nodesAll.2 hbelow
    obtain ⟨d, hd, hvd⟩ := exists_part (h.part htag) hvtag hvk
    obtain ⟨_, _, hdSpread, -, -⟩ := spread_child htagSpread (List.mem_filter.1 hd).1
    have := (hinside d hd).2
    have := (span_below hdSpread hvd).1
    omega
  · have := horder.1 c hc
    have := (span_below hcSpread hvc).1
    omega

theorem start_lt_stop (hspread : Spread G off u t) (h : WellShaped t) (hk : t.kind = .element) :
    t.span.start < t.span.stop := by
  obtain ⟨tag, inner, closing, hparts⟩ := h.self.element hk
  have htag : tag ∈ t.parts := by simp [hparts.parts]
  obtain ⟨_, _, -, hstart, hstop⟩ := spread_child hspread (List.mem_filter.1 htag).1
  have := ((h.part htag).self.tag hparts.tag_kind).1
  omega

/-- The first node begins before the second if both are elements. -/
def Before (a b : Tree) : Prop := a.kind = .element → b.kind = .element → a.span.start < b.span.start

mutual

/-- **Elements stand in the order in which they begin.** -/
theorem sorted_nodes : ∀ {t : Tree} {off : Nat} {u : Text}, Spread G off u t → WellShaped t → t.nodes.Pairwise Before
  | .node k s cs, off, u, hspread, h => by
    rw [nodes, List.pairwise_cons]
    refine ⟨fun v hv hk hvk => start_lt_below hspread h hk hv hvk, ?_⟩
    rcases hspread.children with ⟨-, hcs⟩ | ⟨-, hcs⟩
    · have hnil : cs = [] := hcs
      rw [hnil]
      exact .nil
    · exact sorted_nodesAll hcs fun c hc => h.child hc

theorem sorted_nodesAll : ∀ {ts : List Tree} {off : Nat} {u : Text}, SpreadAll G off u ts →
    (∀ c ∈ ts, WellShaped c) → (nodesAll ts).Pairwise Before
  | [], _, _, _, _ => .nil
  | t :: ts, off, _, hspread, h => by
    rw [SpreadAll] at hspread
    obtain ⟨g, x, w, rfl, -, ht, hts⟩ := hspread
    have hshape := h t List.mem_cons_self
    rw [nodesAll, List.pairwise_append]
    refine ⟨sorted_nodes ht hshape, sorted_nodesAll hts fun c hc => h c (List.mem_cons_of_mem t hc), ?_⟩
    intro a ha b hb hak _
    obtain ⟨pre, y, post, -, hy⟩ := ht.below ha
    obtain ⟨pre', y', post', -, hy'⟩ := hts.below hb
    have hsolid := start_lt_stop hy (fun v hv => hshape v (nodes_trans hv ha)) hak
    have hinside := (span_below ht ha).2
    have hstart : b.span.start = off + bytes g + bytes x + bytes pre' := by rw [hy'.span]
    have hstop : t.span.stop = off + bytes g + bytes x := by rw [ht.span]
    omega

end

end Order

/-! ## Documents -/

theorem agrees_assemble {settings : Settings} {c : Cst} (hv : (rejectVerbatim c).result = .ok ()) (h : WellShaped c.tree)
    (hk : c.tree.kind ≠ .element) (hdepth : 2 * c.tree.height + 1 ≤ settings.maxDepth) :
    Agrees (assemble settings c).result (faultIn? ⟨c.source, settings⟩ c.tree) := by
  rw [result_assemble hv]
  split
  · next hmarkup =>
    rw [faultIn?_of_hasMarkup hmarkup]
    exact .ok _
  · rw [faultIn?_of_ne hk]
    refine (Agrees.each fun t ht => (reports _ _).compose t (h.child ht) ?_).map _
    have := Tree.height_lt ht
    omega

end Lowering

theorem tagName_ne_nil_of_parse {doc : Document} {c : Cst} (hp : doc.parse = .ok c) {tag : Tree} (ht : tag ∈ c.tree.nodes)
    {name : Text} (hname : tagName? doc.text tag = some name) : name ≠ [] := by
  obtain ⟨n, hn, rfl⟩ := Option.map_eq_some_iff.1 hname
  have hmem : n ∈ c.tree.nodes :=
    Tree.nodes_trans (Tree.mem_nodes_iff.2 (.inr ⟨n, List.mem_of_find?_eq_some hn, Tree.mem_nodes_self n⟩)) ht
  have hkind : (n.kind == .tagName) = true := List.find?_some (p := fun c : Tree => c.kind == .tagName) hn
  have hsolid := (parse_shaped hp n hmem).name (beq_iff_eq.1 hkind)
  obtain ⟨pre, u, post, hsrc, hu⟩ := (parse_loose hp).below hmem
  rw [Nat.zero_add] at hu
  have htext : n.text doc.text = u := Span.text_append hsrc (by rw [hu.span]) (by rw [hu.span])
  rw [htext]
  rintro rfl
  rw [hu.span] at hsolid
  exact absurd hsolid (by simp)

/-- What the check of tags finds at a node of a document. -/
theorem fault?_of_parse {doc : Document} {c : Cst} (hp : doc.parse = .ok c) (settings : Settings) {t : Tree}
    (ht : t ∈ c.tree.nodes) (hk : t.kind = .element) :
    (fault? ⟨doc.text, settings⟩ t = none ∧ t.WellTagged doc.text) ∨
      ∃ f tag, fault? ⟨doc.text, settings⟩ t = some f ∧ ¬ t.WellTagged doc.text ∧ tag ∈ t.children ∧
        (tag.kind = .elementOpening ∨ tag.kind = .elementSelfClosing) ∧ t.Blames doc.text tag (f.report doc) := by
  obtain ⟨tag, inner, closing, hparts⟩ := (parse_shaped hp t ht).element hk
  have htag : tag ∈ t.parts := by simp [hparts.parts]
  have hmem := (List.mem_filter.1 htag).1
  have hnode : tag ∈ c.tree.nodes := Tree.nodes_trans (Tree.mem_nodes_iff.2 (.inr ⟨tag, hmem, Tree.mem_nodes_self tag⟩)) ht
  refine (fault?_spec hparts hk fun name hname => tagName_ne_nil_of_parse hp hnode hname).imp id ?_
  rintro ⟨f, hf, hill, hblames⟩
  exact ⟨f, tag, hf, hill, hmem, hparts.tag_kind, hblames doc⟩

/-- The element with the first fault begins before all others that have one. -/
theorem exists_first_fault {doc : Document} {c : Cst} (hp : doc.parse = .ok c) {i : Input} {f : Fault}
    (hf : faultIn? i c.tree = some f) :
    ∃ t ∈ c.tree.nodes, t.kind = .element ∧ fault? i t = some f ∧
      ∀ u ∈ c.tree.nodes, u.kind = .element → fault? i u ≠ none → u ≠ t → t.span.start < u.span.start := by
  obtain ⟨before, t, after, hnodes, hf, hbefore⟩ := List.findSome?_eq_some_iff.1 hf
  have hk : t.kind = .element := by
    refine Decidable.byContradiction fun hk => ?_
    rw [fault?_eq_none hk] at hf
    cases hf
  have hsorted := sorted_nodes (parse_loose hp) (parse_shaped hp)
  rw [hnodes, List.pairwise_append, List.pairwise_cons] at hsorted
  refine ⟨t, by simp [hnodes], hk, hf, fun u hu huk hfault hne => ?_⟩
  rw [hnodes, List.mem_append, List.mem_cons] at hu
  rcases hu with hu | rfl | hu
  · exact absurd (hbefore u hu) hfault
  · exact absurd rfl hne
  · exact hsorted.2.1.1 u hu hk huk

/-- **A document is translated if the tags of its elements agree**, and otherwise the first element whose tags do not
agree is reported. -/
theorem translate_checks_tags {doc : Document} {c : Cst} {settings : Settings} (hp : doc.parse = .ok c)
    (hv : (rejectVerbatim c).result = .ok ()) (hdepth : 2 * c.tree.height + 1 ≤ settings.maxDepth) :
    ((∃ output, (doc.translate settings).result = .ok output) ↔
      ∀ t ∈ c.tree.nodes, t.kind = .element → t.WellTagged doc.text) ∧
    ∀ d, (doc.translate settings).result = .error d →
      ∃ t ∈ c.tree.nodes, t.kind = .element ∧ ¬ t.WellTagged doc.text ∧
        (∀ u ∈ c.tree.nodes, u.kind = .element → ¬ u.WellTagged doc.text → u ≠ t → t.span.start < u.span.start) ∧
        ∃ tag ∈ t.children, (tag.kind = .elementOpening ∨ tag.kind = .elementSelfClosing) ∧ t.Blames doc.text tag d := by
  obtain ⟨cs, hroot, -⟩ := parse_spread hp
  have hagrees := agrees_assemble hv (parse_shaped hp) (by rw [hroot]; exact nofun) hdepth
  have hcheck := fun t ht hk => fault?_of_parse hp settings (t := t) ht hk
  rw [parse_source hp] at hagrees
  rw [result_translate hp]
  cases hfault : faultIn? ⟨doc.text, settings⟩ c.tree with
  | none =>
    rw [hfault] at hagrees
    obtain ⟨output, houtput⟩ := hagrees
    rw [houtput]
    refine ⟨⟨fun _ t ht hk => ?_, fun _ => ⟨output, rfl⟩⟩, fun d hd => by cases hd⟩
    rcases hcheck t ht hk with ⟨-, hgood⟩ | ⟨f, tag, hf, -⟩
    · exact hgood
    · rw [List.findSome?_eq_none_iff.1 hfault t ht] at hf
      cases hf
  | some f =>
    rw [hfault] at hagrees
    obtain ⟨t, ht, hk, hf, hfirst⟩ := exists_first_fault hp hfault
    rcases hcheck t ht hk with ⟨hnone, -⟩ | ⟨f', tag, hf', hill, hmem, htag, hblames⟩
    · rw [hnone] at hf
      cases hf
    · obtain rfl : f' = f := Option.some.inj (hf'.symm.trans hf)
      rw [show (assemble settings c).result = .error f' from hagrees]
      refine ⟨⟨?_, fun hall => absurd (hall t ht hk) hill⟩, ?_⟩
      · rintro ⟨output, houtput⟩
        cases houtput
      · rintro d hd
        cases hd
        refine ⟨t, ht, hk, hill, fun u hu huk hubad hne => hfirst u hu huk ?_ hne, tag, hmem, htag, hblames⟩
        rcases hcheck u hu huk with ⟨-, hgood⟩ | ⟨g, _, hg, -⟩
        · exact absurd hgood hubad
        · rw [hg]
          exact nofun

/-- An element in another one whose tags do not agree. -/
def crossed : Document := ⟨"a.mbx", "<a><b></c></a>".toList⟩

theorem translate_checks_tags_crossed : ∃ c d, crossed.parse = .ok c ∧ (rejectVerbatim c).result = .ok () ∧
    2 * c.tree.height + 1 ≤ Settings.maxDepth {} ∧ (crossed.translate {}).result = .error d ∧ d.span = some ⟨6, 10⟩ ∧
    ∃ t ∈ c.tree.nodes, t.kind = .element ∧ ¬ t.WellTagged crossed.text ∧ ∃ tag ∈ t.children, t.Blames crossed.text tag d := by
  have hparse : crossed.parse.toOption.any (fun c => decide ((rejectVerbatim c).result = .ok () ∧
      2 * c.tree.height + 1 ≤ Settings.maxDepth {})) = true := by decide +kernel
  have hfail : (match (crossed.translate {}).result with | .ok _ => none | .error d => d.span) = some ⟨6, 10⟩ := by
    decide +kernel
  cases hp : crossed.parse with
  | error d => rw [hp] at hparse; cases hparse
  | ok c =>
    rw [hp] at hparse
    obtain ⟨hv, hdepth⟩ := of_decide_eq_true hparse
    cases hd : (crossed.translate {}).result with
    | ok output => rw [hd] at hfail; cases hfail
    | error d =>
      rw [hd] at hfail
      obtain ⟨t, ht, hk, hill, -, tag, htag, -, hblames⟩ := (translate_checks_tags hp hv hdepth).2 d hd
      exact ⟨c, d, rfl, hv, hdepth, rfl, hfail, t, ht, hk, hill, tag, htag, hblames⟩

end InlineMarkup
