import InlineMarkup.Proofs.Record
/-!
# Proofs.Faults — what lowering fails with

A step of lowering fails at a node below its own that goes too deep, or with what the check of an element's tags says
(`Raised`, `raises`).  Before that a document is rejected for markup in a node that is copied as it stands
(`fails_assemble`).
-/
namespace InlineMarkup.Lowering

/-! ## Failures of steps -/

/-- Whatever the step fails with satisfies `P`. -/
def Fails {α : Type} (x : Step α) (P : Fault → Prop) : Prop := ∀ f, x.result = .error f → P f

namespace Fails

variable {α β : Type} {x : Step α} {P Q : Fault → Prop}

theorem pure (a : α) : Fails (Pure.pure a) P := nofun

theorem note (e : Event) : Fails (Logged.note e) P := nofun

theorem fail {f : Fault} (h : P f) : Fails (Logged.fail f : Step α) P := by
  rintro g ⟨⟩
  exact h

theorem mono (h : Fails x P) (hPQ : ∀ f, P f → Q f) : Fails x Q := fun f hf => hPQ f (h f hf)

theorem bind {g : α → Step β} (hx : Fails x P) (hg : ∀ a, x.result = .ok a → Fails (g a) P) : Fails (x >>= g) P := by
  intro f hf
  rw [Logged.result_bind] at hf
  cases hresult : x.result with
  | error e =>
    rw [hresult] at hf
    cases hf
    exact hx f hresult
  | ok a =>
    rw [hresult] at hf
    exact hg a hresult f hf

theorem map (hx : Fails x P) (g : α → β) : Fails (x >>= fun a => Pure.pure (g a)) P := hx.bind fun a _ => .pure (g a)

theorem each {g : Tree → Step α} : ∀ {ts : List Tree}, (∀ t ∈ ts, Fails (g t) P) → Fails (Logged.each g ts) P
  | [], _ => .pure _
  | t :: _, h => (h t List.mem_cons_self).bind fun a _ => (each fun u hu => h u (List.mem_cons_of_mem t hu)).map (a :: ·)

end Fails

/-! ## The check of tags -/

/-- What is wrong with an element whose tags do not agree. -/
inductive BadTags (t : Tree) : Fault → Prop where
  | noOpeningTag (none : openingTag? t = none) : BadTags t (.noOpeningTag t.span)
  | noTagName {tag : Tree} (opening : openingTag? t = some tag) : BadTags t (.noTagName tag.span)
  | neverClosed {tag : Tree} (opening : openingTag? t = some tag) (name : Text) : BadTags t (.neverClosed name tag.span)
  | mismatch {tag close : Tree} (opening : openingTag? t = some tag) (closing : closingTag? t = some close)
      (name closingName : Text) (at_ : Position) : BadTags t (.mismatch name closingName tag.span close.span at_)

variable {i : Input} {t : Tree}

theorem fails_checkTags {tag : Tree} (h : openingTag? t = some tag) (name : Text) :
    Fails (i.checkTags t tag name) (BadTags t) := by
  unfold Input.checkTags
  split
  · exact .pure _
  · split
    · exact .fail (.neverClosed h name)
    · next close hclose =>
      simp only
      split
      · exact .pure _
      · exact .fail (.mismatch h hclose _ _ _)

theorem fails_tagOf (i : Input) (t : Tree) : Fails (i.tagOf t) (BadTags t) := by
  unfold Input.tagOf
  split
  · next h => exact .fail (.noOpeningTag h)
  · next tag h =>
    split
    · exact .fail (.noTagName h)
    · exact (fails_checkTags h _).map _

/-! ## Lowering -/

/-- A fault that lowering a tree can give: some node goes too deep, or the tags of some element do not agree. -/
inductive Raised (i : Input) (t : Tree) : Fault → Prop where
  | tooDeep {u : Tree} (mem : u ∈ t.nodes) : Raised i t (.tooDeep i.settings.maxDepth u.span)
  | badTags {u : Tree} {f : Fault} (mem : u ∈ t.nodes) (element : u.kind = .element) (bad : BadTags u f) : Raised i t f

theorem Raised.above {u : Tree} (hu : u ∈ t.nodes) {f : Fault} (h : Raised i u f) : Raised i t f := by
  cases h with
  | tooDeep hv => exact .tooDeep (Tree.nodes_trans hv hu)
  | badTags hv helement hbad => exact .badTags (Tree.nodes_trans hv hu) helement hbad

theorem mem_nodes_of_child {c : Tree} (hc : c ∈ t.children) : c ∈ t.nodes :=
  Tree.mem_nodes_iff.2 (.inr ⟨c, hc, Tree.mem_nodes_self c⟩)

theorem mem_nodes_of_child? {c : Tree} {k : Kind} (hc : t.child? k = some c) : c ∈ t.nodes :=
  mem_nodes_of_child (List.mem_of_find?_eq_some hc)

theorem openingTag?_mem {tag : Tree} (h : openingTag? t = some tag) : tag ∈ t.nodes :=
  mem_nodes_of_child (List.mem_reverse.1 (List.mem_of_find?_eq_some h))

theorem closingTag?_mem {close : Tree} (h : closingTag? t = some close) : close ∈ t.nodes :=
  mem_nodes_of_child (List.mem_reverse.1 (List.mem_of_find?_eq_some h))

/-- Each way of lowering raises faults below its node only. -/
structure Raises (i : Input) (room : Nat) : Prop where
  compose : ∀ t, Fails (i.compose room t) (Raised i t)
  element : ∀ t, t.kind = .element → Fails (i.lowerElement room t) (Raised i t)
  expression : ∀ t, Fails (i.lowerExpression room t) (Raised i t)
  value : ∀ t, Fails (i.lowerAttribute room t) (Raised i t)

section Steps

variable {room : Nat}

theorem fails_tooDeep {α : Type} {u : Tree} (hu : u ∈ t.nodes) : Fails (i.tooDeep u : Step α) (Raised i t) :=
  .fail (.tooDeep hu)

theorem raises_compose (ih : Raises i room) (t : Tree) : Fails (i.compose (room + 1) t) (Raised i t) := by
  rw [Input.compose]
  split
  · exact .pure _
  · split
    · next hk => exact ih.element t hk
    · exact (Fails.each fun c hc => (ih.compose c).mono fun f => Raised.above (mem_nodes_of_child hc)).map _

theorem raises_expression (ih : Raises i room) (t : Tree) : Fails (i.lowerExpression (room + 1) t) (Raised i t) := by
  have hcore : Fails (i.lowerCore room t) (Raised i t) := by
    unfold Input.lowerCore
    simp only
    split
    · exact .pure _
    · split
      · next hk => exact (ih.element _ hk).mono fun f => Raised.above (unwrapUpTo_mem _ _ t)
      · split
        · exact ih.compose t
        · exact .pure _
  rw [lowerExpression_eq]
  refine hcore.bind fun w _ => ?_
  unfold Input.closeComment
  split
  · exact (Fails.note _).map _
  · exact .pure _

theorem raises_value (ih : Raises i room) (t : Tree) : Fails (i.lowerAttribute (room + 1) t) (Raised i t) := by
  have hvalue : Fails (readValue i room t) (Raised i t) := by
    unfold readValue
    split
    · exact .pure _
    · next braces _ hbraces =>
      split
      · next e he =>
        refine (ih.expression e).mono fun f => Raised.above ?_
        exact Tree.nodes_trans (mem_nodes_of_child? he) (mem_nodes_of_child? hbraces)
      · exact (Fails.note _).map _
    · split
      · exact (Fails.note _).map _
      · exact .pure _
  rw [lowerAttribute_eq]
  exact hvalue.bind fun value _ => (Fails.note _).map _

theorem raises_child (ih : ∀ r ≤ room, Raises i r) (t : Tree) : Fails (i.lowerChild room t) (Raised i t) := by
  unfold Input.lowerChild
  split
  · exact .pure _
  · next hk => exact ((ih room (Nat.le_refl room)).element t hk).map _
  · split
    · exact .pure _
    · next e he =>
      have hmem := mem_nodes_of_child? he
      have hcore : unwrap i.source e ∈ t.nodes := Tree.nodes_trans (unwrapUpTo_mem _ _ e) hmem
      cases room with
      | zero =>
        refine fails_tooDeep ?_
        split
        · exact hcore
        · exact hmem
      | succ room =>
        have hroom := ih room (Nat.le_succ room)
        simp only
        split
        · next hk => exact ((hroom.element _ hk).mono fun f => Raised.above hcore).map _
        · exact ((hroom.expression e).mono fun f => Raised.above hmem).map _
  · exact .pure _

theorem raises_element (ih : ∀ r ≤ room, Raises i r) (hk : t.kind = .element) :
    Fails (i.lowerElement (room + 1) t) (Raised i t) := by
  rw [lowerElement_eq]
  refine ((fails_tagOf i t).mono fun f => .badTags (Tree.mem_nodes_self t) hk).bind fun tag htag => ?_
  have hmem : tag.1 ∈ t.nodes := openingTag?_mem (Input.tagOf_eq_ok htag).1
  refine Fails.bind (.each fun a ha => ?_) fun attributes _ => ?_
  · refine ((ih room (Nat.le_refl room)).value a).mono fun f => Raised.above ?_
    exact Tree.nodes_trans (mem_nodes_of_child (List.mem_filter.1 ha).1) hmem
  · refine Fails.bind (.each fun c hc => ?_) fun children _ => (Fails.note _).map _
    exact (raises_child ih c).mono fun f => Raised.above (mem_nodes_of_child (List.mem_filter.1 hc).1)

end Steps

/-- **Lowering fails at a node below**, because it goes too deep or because its tags do not agree. -/
theorem raises (i : Input) (room : Nat) : Raises i room := by
  induction room using Nat.strongRecOn with
  | ind room ih =>
    cases room with
    | zero =>
      refine ⟨fun t => ?_, fun t _ => ?_, fun t => ?_, fun t => ?_⟩
      · rw [Input.compose]; exact fails_tooDeep (Tree.mem_nodes_self t)
      · rw [Input.lowerElement]; exact fails_tooDeep (Tree.mem_nodes_self t)
      · rw [Input.lowerExpression]; exact fails_tooDeep (Tree.mem_nodes_self t)
      · rw [Input.lowerAttribute]; exact fails_tooDeep (Tree.mem_nodes_self t)
    | succ room =>
      have hroom := ih room (Nat.lt_succ_self room)
      refine ⟨raises_compose hroom, fun t => ?_, raises_expression hroom, raises_value hroom⟩
      exact raises_element fun r hr => ih r (Nat.lt_succ_of_le hr)

/-! ## Documents -/

/-- Markup was found in a node that is copied as it stands. -/
inductive Leaked (c : Cst) : Fault → Prop where
  | intro {n : Node} {found : Span} (mem : n ∈ c.arena.nodes.toList)
      (leak : verbatimMarkup? c.source n = some (n, found)) : Leaked c (.verbatimMarkup n.kind found n.span)

theorem verbatimMarkup?_fst {source : Text} {n m : Node} {found : Span} (h : verbatimMarkup? source n = some (m, found)) :
    m = n := by
  unfold verbatimMarkup? at h
  split at h
  · obtain ⟨_, -, h⟩ := Option.map_eq_some_iff.1 h
    exact (Prod.mk.inj h).1.symm
  · cases h

theorem fails_rejectVerbatim (c : Cst) : Fails (rejectVerbatim c) (Leaked c) := by
  unfold rejectVerbatim
  split
  · exact .pure _
  · next n found hfirst =>
    obtain ⟨m, hm, hleak⟩ := List.exists_of_findSome?_eq_some hfirst
    obtain rfl := verbatimMarkup?_fst hleak
    exact (Fails.note _).bind fun _ _ => .fail (.intro hm hleak)

/-- **What a parsed document fails with.** -/
theorem fails_assemble (settings : Settings) (c : Cst) :
    Fails (assemble settings c) fun f => Leaked c f ∨ Raised ⟨c.source, settings⟩ c.tree f := by
  unfold assemble
  refine ((fails_rejectVerbatim c).mono fun f => .inl).bind fun _ _ => ?_
  simp only
  split
  · exact .pure _
  · refine (Fails.each fun t ht => ?_).map _
    exact ((raises _ _).compose t).mono fun f hf => .inr (hf.above (mem_nodes_of_child ht))

end InlineMarkup.Lowering

namespace InlineMarkup

open Lowering

theorem exists_fault_of_translate {doc : Document} {c : Cst} {settings : Settings} {e : Diagnostic} (hp : doc.parse = .ok c)
    (h : (doc.translate settings).result = .error e) : ∃ f, (assemble settings c).result = .error f ∧ e = f.report doc := by
  rw [result_translate hp] at h
  cases hresult : (assemble settings c).result with
  | ok output =>
    rw [hresult] at h
    cases h
  | error f =>
    rw [hresult] at h
    cases h
    exact ⟨f, rfl, rfl⟩

end InlineMarkup
