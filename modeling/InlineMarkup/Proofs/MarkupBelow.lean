import InlineMarkup.Cst.BuildStep
import InlineMarkup.Proofs.HostCode
import InlineMarkup.Proofs.Index
import Mathlib.Logic.Relation
/-!
# Proofs.MarkupBelow — the index of an arena that was built step by step

Every step of a build keeps children behind their parents (`ascending_apply`), so every arena that a build reaches is
`Ascending`, whatever nodes its lists of children share.  On such an arena the pass from the last node to the first finds
the flags of all children set when it comes to their parent (`contains_visit`): in the end a node is marked exactly if a
way down from it leads to an element (`contains_markupIndex`).
-/
namespace InlineMarkup

open Relation (ReflTransGen)

/-! ## Builds -/

namespace BuildStep

/-- Each step is admissible on the arena that it finds. -/
def Admissible : Arena → List BuildStep → Prop
  | _, [] => True
  | a, s :: ss => s.refusal? a = none ∧ Admissible (s.apply a) ss

instance decidableAdmissible : ∀ (a : Arena) (ss : List BuildStep), Decidable (Admissible a ss)
  | _, [] => .isTrue trivial
  | a, s :: ss =>
    have := decidableAdmissible (s.apply a) ss
    inferInstanceAs (Decidable (s.refusal? a = none ∧ Admissible (s.apply a) ss))

/-- The arena after all steps. -/
def built (ss : List BuildStep) : Arena := ss.foldl apply {}

theorem admissible_append : ∀ (ss ts : List BuildStep) (a : Arena),
    Admissible a (ss ++ ts) ↔ Admissible a ss ∧ Admissible (ss.foldl apply a) ts
  | [], ts, a => by simp [Admissible]
  | s :: ss, ts, a => by
    rw [List.cons_append, Admissible, Admissible, admissible_append ss ts, List.foldl_cons, and_assoc]

theorem refusal?_replaceChildren {a : Arena} {node : Nat} {children : List Nat} :
    (BuildStep.replaceChildren node children).refusal? a = none ↔
      node < a.size ∧ ∀ c ∈ children, node < c ∧ c < a.size := by
  rw [refusal?]
  split
  · next h =>
    simp only [reduceCtorEq, false_iff, not_and, not_forall]
    intro hnode
    simp only [Bool.or_eq_true, decide_eq_true_eq, List.any_eq_true, Nat.not_le.2 hnode, false_or] at h
    obtain ⟨c, hc, hle⟩ := h
    exact ⟨c, hc, fun h => by omega⟩
  · next h =>
    simp only [Bool.or_eq_true, decide_eq_true_eq, List.any_eq_true, not_or, not_exists, not_and, Nat.not_le] at h
    simp only [ite_eq_right_iff, reduceCtorEq, imp_false, List.any_eq_true, decide_eq_true_eq, not_exists, not_and,
      Nat.not_le]
    exact ⟨fun hlt => ⟨h.1, fun c hc => ⟨hlt c hc, h.2 c hc⟩⟩, fun hlt c hc => (hlt.2 c hc).1⟩

end BuildStep

namespace Arena

theorem size_update (a : Arena) (id : Nat) (f : Node → Node) : (a.update id f).size = a.size := Array.size_modify

theorem get?_update (a : Arena) (id : Nat) (f : Node → Node) (j : Nat) :
    (a.update id f).get? j = if id = j then (a.get? j).map f else a.get? j := Array.getElem?_modify

theorem ascending_empty : Ascending {} := by
  intro id n h
  cases h

/-- A changed node must keep the order; all others do. -/
theorem ascending_update {a : Arena} {id : Nat} {f : Node → Node} (ha : a.Ascending)
    (hf : ∀ n, a.get? id = some n → ∀ c ∈ (f n).children, id < c ∧ c < a.size) : (a.update id f).Ascending := by
  intro j n hn c hc
  rw [size_update]
  rw [get?_update] at hn
  by_cases hj : id = j
  · subst hj
    rw [if_pos rfl] at hn
    obtain ⟨m, hm, rfl⟩ := Option.map_eq_some_iff.1 hn
    exact hf m hm c hc
  · rw [if_neg hj] at hn
    exact ha j n hn c hc

theorem ascending_added {a : Arena} (ha : a.Ascending) (kind : Kind) (span : Span) :
    (a.push kind span none).Ascending := by
  intro j n hn c hc
  have hsize : (a.push kind span none).size = a.size + 1 := Array.size_push _
  have hget : (a.nodes.push ⟨kind, span, []⟩)[j]? = some n := hn
  rw [hsize]
  rw [Array.getElem?_push] at hget
  split at hget
  · cases hget
    cases hc
  · have := ha j n hget c hc
    omega

/-- **A step keeps children behind their parents.** -/
theorem ascending_apply {a : Arena} {s : BuildStep} (ha : a.Ascending) (hs : s.refusal? a = none) :
    (s.apply a).Ascending := by
  cases s with
  | push kind span parent =>
    cases parent with
    | none => exact ascending_added ha kind span
    | some p =>
      have hp : p < a.size := by
        by_contra hp
        simp [BuildStep.refusal?, hp] at hs
      have hadded := ascending_added ha kind span
      have hsize : (a.push kind span none).size = a.size + 1 := Array.size_push _
      refine ascending_update hadded fun n hn c hc => ?_
      rcases List.mem_append.1 hc with hc | hc
      · exact hadded p n hn c hc
      · rw [List.mem_singleton.1 hc]
        show p < a.size ∧ a.size < (a.push kind span none).size
        omega
  | setStop node stop => exact ascending_update ha fun n hn c hc => ha node n hn c hc
  | replaceChildren node children =>
    exact ascending_update ha fun _ _ c hc => (BuildStep.refusal?_replaceChildren.1 hs).2 c hc

/-- **A build keeps children behind their parents.** -/
theorem ascending_build : ∀ {ss : List BuildStep} {a : Arena}, a.Ascending → BuildStep.Admissible a ss →
    (ss.foldl BuildStep.apply a).Ascending
  | [], _, ha, _ => ha
  | s :: ss, a, ha, hss => by
    rw [List.foldl_cons]
    exact ascending_build (ascending_apply ha hss.1) hss.2

/-! ## Ways down -/

/-- The second number stands among the children of the first. -/
def IsChild (a : Arena) (parent child : Nat) : Prop := child ∈ a.children parent

/-- Here stands an element. -/
def IsElement (a : Arena) (id : Nat) : Prop := ∃ n, a.get? id = some n ∧ n.kind = .element

/-- A way down, of any length, leads to an element. -/
def LeadsToElement (a : Arena) (id : Nat) : Prop := ∃ e, ReflTransGen a.IsChild id e ∧ a.IsElement e

theorem leadsToElement_iff (a : Arena) (id : Nat) :
    a.LeadsToElement id ↔ a.IsElement id ∨ ∃ c ∈ a.children id, a.LeadsToElement c := by
  constructor
  · rintro ⟨e, hway, he⟩
    rcases ReflTransGen.cases_head hway with rfl | ⟨c, hc, hway⟩
    · exact .inl he
    · exact .inr ⟨c, hc, e, hway, he⟩
  · rintro (h | ⟨c, hc, e, hway, he⟩)
    · exact ⟨id, .refl, h⟩
    · exact ⟨e, .head hc hway, he⟩

theorem not_leadsToElement {a : Arena} {id : Nat} (h : a.get? id = none) : ¬ a.LeadsToElement id := by
  rw [leadsToElement_iff]
  rintro (⟨n, hn, -⟩ | ⟨c, hc, -⟩)
  · rw [h] at hn
    cases hn
  · rw [children, h] at hc
    cases hc

/-! ## The pass over the arena -/

/-- The flags from a number on tell which nodes lead to an element. -/
structure MarksFrom (a : Arena) (k : Nat) (x : MarkupIndex) : Prop where
  size : x.flags.size = a.size
  marks : ∀ id, k ≤ id → (x.contains id = true ↔ a.LeadsToElement id)

theorem contains_setIfInBounds (x : MarkupIndex) {k : Nat} (hk : k < x.flags.size) (b : Bool) (m id : Nat) :
    (MarkupIndex.mk (x.flags.setIfInBounds k b) m).contains id = if k = id then b else x.contains id := by
  unfold MarkupIndex.contains
  rw [Array.getElem?_setIfInBounds]
  by_cases hid : k = id
  · simp [← hid, hk]
  · simp [hid]

/-- **One node further back.**  Its children are behind it, so their flags are final. -/
theorem contains_visit {a : Arena} (ha : a.Ascending) {k : Nat} (hk : k < a.size) {x : MarkupIndex}
    (hx : a.MarksFrom (k + 1) x) : a.MarksFrom k (x.visit a k) := by
  obtain ⟨n, hn⟩ : ∃ n, a.get? k = some n := ⟨_, Array.getElem?_eq_getElem hk⟩
  have hchildren : a.children k = n.children := by simp [children, hn]
  have hflag : (n.kind.isMarkup || n.children.any x.contains) = true ↔ a.LeadsToElement k := by
    rw [leadsToElement_iff, Bool.or_eq_true, List.any_eq_true, hchildren]
    refine or_congr ?_ (exists_congr fun c => and_congr_right fun hc => ?_)
    · simp [IsElement, hn, Tree.isMarkup_iff]
    · exact hx.marks c (ha k n hn c hc).1
  unfold MarkupIndex.visit
  rw [hn]
  refine ⟨by simpa using hx.size, fun id hid => ?_⟩
  rw [contains_setIfInBounds x (by rw [hx.size]; exact hk)]
  by_cases hkid : k = id
  · rw [if_pos hkid, ← hkid]
    exact hflag
  · rw [if_neg hkid]
    exact hx.marks id (by omega)

/-- **The whole pass**, from any node down to the first. -/
theorem marks_pass {a : Arena} (ha : a.Ascending) : ∀ {k : Nat} {x : MarkupIndex}, k ≤ a.size → a.MarksFrom k x →
    a.MarksFrom 0 ((List.range k).reverse.foldl (MarkupIndex.visit a) x)
  | 0, _, _, hx => hx
  | k + 1, x, hk, hx => by
    rw [List.range_succ, List.reverse_append, List.reverse_singleton, List.singleton_append, List.foldl_cons]
    exact marks_pass ha (by omega) (contains_visit ha hk hx)

/-- **A node is marked exactly if a way down from it leads to an element.** -/
theorem contains_markupIndex {a : Arena} (ha : a.Ascending) (id : Nat) :
    a.markupIndex.contains id = true ↔ a.LeadsToElement id := by
  -- before the pass no flag is set, and behind the last node there is nothing to reach
  have hstart : a.MarksFrom a.size ⟨Array.replicate a.size false, 0⟩ := by
    refine ⟨Array.size_replicate, fun id hid => ?_⟩
    have hnone : a.get? id = none := Array.getElem?_eq_none hid
    have hflag : (Array.replicate a.size false)[id]? = none := Array.getElem?_eq_none (by simpa using hid)
    simp [MarkupIndex.contains, hflag, not_leadsToElement hnone]
  exact (marks_pass ha (Nat.le_refl _) hstart).marks id (Nat.zero_le _)

end Arena

open BuildStep

/-- **The index of every arena that a build reaches.**  While admissible steps build an arena, every child exists and has
a greater number than its parent; in the end the index marks exactly the nodes that are elements or reach one through
children, and counts the elements. -/
theorem markupIndex_built {ss : List BuildStep} (h : Admissible {} ss) :
    (∀ done, done <+: ss → (built done).Ascending) ∧
      (∀ id, (built ss).markupIndex.contains id = true ↔
        ∃ e n, ReflTransGen (built ss).IsChild id e ∧ (built ss).get? e = some n ∧ n.kind = .element) ∧
      (built ss).markupIndex.elements = (built ss).nodes.toList.countP (·.kind = .element) := by
  refine ⟨?_, fun id => ?_, ?_⟩
  · rintro done ⟨rest, rfl⟩
    exact Arena.ascending_build Arena.ascending_empty ((admissible_append done rest {}).1 h).1
  · have hascending : (built ss).Ascending := Arena.ascending_build Arena.ascending_empty h
    rw [Arena.contains_markupIndex hascending]
    simp only [Arena.LeadsToElement, Arena.IsElement, exists_and_left]
  · rw [Arena.elements_markupIndex]
    refine List.countP_congr fun n _ => ?_
    simp [Tree.isMarkup_iff]

/-- Two nodes that share a child with an element below it, beside one that has none. -/
def sharing : List BuildStep :=
  [.push .program ⟨0, 9⟩ none, .push .letStatement ⟨0, 3⟩ (some 0), .push .exprStatement ⟨4, 9⟩ (some 0),
    .push .identifier ⟨0, 1⟩ (some 1), .push .expression ⟨4, 8⟩ (some 2), .push .element ⟨4, 8⟩ (some 4),
    .setStop 2 8, .replaceChildren 1 [3, 4], .replaceChildren 0 [2, 1, 3]]

theorem markupIndex_built_sharing : Admissible {} sharing ∧
    (∀ id, (built sharing).markupIndex.contains id = true ↔
      ∃ e n, ReflTransGen (built sharing).IsChild id e ∧ (built sharing).get? e = some n ∧ n.kind = .element) ∧
    (built sharing).markupIndex.flags = #[true, true, true, false, true, true] ∧
    (built sharing).markupIndex.elements = 1 :=
  ⟨by decide, (markupIndex_built (by decide)).2.1, by decide, by decide⟩

end InlineMarkup
