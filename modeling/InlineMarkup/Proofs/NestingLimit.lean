import InlineMarkup.Proofs.Faults
import InlineMarkup.Proofs.Refusals
/-!
# Proofs.NestingLimit — the allowed depth only decides what goes too deep

With less room a step of lowering does what it does with more, up to where it goes too deep (`Capped`, `caps`).  So
settings that differ in the allowed depth alone give the same translation with the same log, unless the markup is nested
deeper than the smaller one allows.  It never is in a document whose tree is less than half as high, or has no element
(`translate_maxDepth`).
-/
namespace InlineMarkup.Lowering

/-! ## Steps that may go too deep -/

/-- The first step does what the second does, unless it goes too deep. -/
def Capped {α : Type} (x y : Step α) : Prop := x = y ∨ ∃ limit node, x.result = .error (.tooDeep limit node)

namespace Capped

variable {α β : Type} {x y : Step α}

theorem refl (x : Step α) : Capped x x := .inl rfl

theorem tooDeep (i : Input) (t : Tree) : Capped (i.tooDeep t) y := .inr ⟨_, _, rfl⟩

theorem bind {f g : α → Step β} (h : Capped x y) (hfg : ∀ a, Capped (f a) (g a)) : Capped (x >>= f) (y >>= g) := by
  rcases h with rfl | ⟨limit, node, hx⟩
  · cases hresult : x.result with
    | error e =>
      refine .inl ?_
      show Logged.bind x f = Logged.bind x g
      simp only [Logged.bind, hresult]
    | ok a =>
      rcases hfg a with hsame | ⟨limit, node, hdeep⟩
      · refine .inl ?_
        show Logged.bind x f = Logged.bind x g
        simp only [Logged.bind, hresult, hsame]
      · refine .inr ⟨limit, node, ?_⟩
        rw [Logged.result_bind, hresult]
        exact hdeep
  · refine .inr ⟨limit, node, ?_⟩
    rw [Logged.result_bind, hx]
    rfl

theorem map (h : Capped x y) (f : α → β) : Capped (x >>= fun a => pure (f a)) (y >>= fun a => pure (f a)) :=
  h.bind fun _ => .refl _

theorem ite {p : Prop} [Decidable p] {x' y' : Step α} (h : p → Capped x y) (h' : ¬ p → Capped x' y') :
    Capped (if p then x else x') (if p then y else y') := by
  split
  · next hp => exact h hp
  · next hp => exact h' hp

theorem each {f g : Tree → Step α} : ∀ {ts : List Tree}, (∀ t ∈ ts, Capped (f t) (g t)) →
    Capped (Logged.each f ts) (Logged.each g ts)
  | [], _ => .refl _
  | t :: _, h => (h t List.mem_cons_self).bind fun a => (each fun u hu => h u (List.mem_cons_of_mem t hu)).map (a :: ·)

end Capped

/-! ## Lowering with less room -/

/-- The input with another depth allowed. -/
def Input.withDepth (i : Input) (d : Nat) : Input := { i with settings := { i.settings with maxDepth := d } }

/-- Each way of lowering does with less room what it does with more, unless it goes too deep. -/
structure Caps (i : Input) (d d' room room' : Nat) : Prop where
  compose : ∀ t, Capped ((i.withDepth d).compose room t) ((i.withDepth d').compose room' t)
  element : ∀ t, Capped ((i.withDepth d).lowerElement room t) ((i.withDepth d').lowerElement room' t)
  expression : ∀ t, Capped ((i.withDepth d).lowerExpression room t) ((i.withDepth d').lowerExpression room' t)
  value : ∀ t, Capped ((i.withDepth d).lowerAttribute room t) ((i.withDepth d').lowerAttribute room' t)

section Steps

variable {i : Input} {d d' room room' : Nat}

theorem capped_compose (ih : Caps i d d' room room') (t : Tree) :
    Capped ((i.withDepth d).compose (room + 1) t) ((i.withDepth d').compose (room' + 1) t) := by
  rw [Input.compose, Input.compose]
  refine .ite (fun _ => .refl _) fun _ => .ite (fun _ => ih.element t) fun _ => ?_
  exact (Capped.each fun c _ => ih.compose c).map _

theorem capped_expression (ih : Caps i d d' room room') (t : Tree) :
    Capped ((i.withDepth d).lowerExpression (room + 1) t) ((i.withDepth d').lowerExpression (room' + 1) t) := by
  have hcore : Capped ((i.withDepth d).lowerCore room t) ((i.withDepth d').lowerCore room' t) := by
    unfold Input.lowerCore
    refine .ite (fun _ => .refl _) fun _ => .ite (fun _ => ih.element _) fun _ => ?_
    exact .ite (fun _ => ih.compose t) fun _ => .refl _
  rw [lowerExpression_eq, lowerExpression_eq]
  exact hcore.bind fun w => .refl _

theorem capped_value (ih : Caps i d d' room room') (t : Tree) :
    Capped ((i.withDepth d).lowerAttribute (room + 1) t) ((i.withDepth d').lowerAttribute (room' + 1) t) := by
  have hvalue : Capped (readValue (i.withDepth d) room t) (readValue (i.withDepth d') room' t) := by
    unfold readValue
    cases t.child? .attributeValue with
    | some v => exact .refl _
    | none =>
      cases t.child? .interpolation with
      | none => exact .refl _
      | some braces =>
        simp only
        cases braces.child? .expression with
        | none => exact .refl _
        | some e => exact ih.expression e
  rw [lowerAttribute_eq, lowerAttribute_eq]
  exact hvalue.bind fun value => .refl _

theorem capped_child (ih : ∀ r ≤ room, ∀ r', r ≤ r' → Caps i d d' r r') (hroom : room ≤ room') (c : Tree) :
    Capped ((i.withDepth d).lowerChild room c) ((i.withDepth d').lowerChild room' c) := by
  unfold Input.lowerChild
  split
  · exact .refl _
  · exact ((ih room (Nat.le_refl room) room' hroom).element c).map _
  · cases c.child? .expression with
    | none => exact .refl _
    | some e =>
      cases room with
      | zero => exact .tooDeep _ _
      | succ room =>
        obtain ⟨room', rfl⟩ : ∃ r, room' = r + 1 := ⟨room' - 1, by omega⟩
        have hless := ih room (Nat.le_succ room) room' (Nat.le_of_succ_le_succ hroom)
        exact .ite (fun _ => (hless.element _).map _) fun _ => (hless.expression e).map _
  · exact .refl _

theorem capped_element (ih : ∀ r ≤ room, ∀ r', r ≤ r' → Caps i d d' r r') (hroom : room ≤ room') (t : Tree) :
    Capped ((i.withDepth d).lowerElement (room + 1) t) ((i.withDepth d').lowerElement (room' + 1) t) := by
  have hsame := ih room (Nat.le_refl room) room' hroom
  rw [lowerElement_eq, lowerElement_eq]
  refine Capped.bind (.refl ((i.withDepth d).tagOf t)) fun tag => ?_
  refine Capped.bind (.each fun a _ => hsame.value a) fun attributes => ?_
  exact Capped.bind (.each fun c _ => capped_child ih hroom c) fun children => .refl _

end Steps

/-- **Less room changes nothing but where lowering goes too deep.** -/
theorem caps (i : Input) (d d' : Nat) : ∀ room room', room ≤ room' → Caps i d d' room room' := by
  intro room
  induction room using Nat.strongRecOn with
  | ind room ih =>
    intro room' hroom
    cases room with
    | zero =>
      refine ⟨fun t => ?_, fun t => ?_, fun t => ?_, fun t => ?_⟩
      · rw [Input.compose]; exact .tooDeep _ t
      · rw [Input.lowerElement]; exact .tooDeep _ t
      · rw [Input.lowerExpression]; exact .tooDeep _ t
      · rw [Input.lowerAttribute]; exact .tooDeep _ t
    | succ room =>
      obtain ⟨room', rfl⟩ : ∃ r, room' = r + 1 := ⟨room' - 1, by omega⟩
      have hroom := Nat.le_of_succ_le_succ hroom
      have hless : ∀ r ≤ room, ∀ r', r ≤ r' → Caps i d d' r r' := fun r hr => ih r (Nat.lt_succ_of_le hr)
      have hsame := hless room (Nat.le_refl room) room' hroom
      exact ⟨capped_compose hsame, capped_element hless hroom, capped_expression hsame, capped_value hsame⟩

theorem capped_assemble (settings : Settings) (c : Cst) {d d' : Nat} (hd : d ≤ d') :
    Capped (assemble { settings with maxDepth := d } c) (assemble { settings with maxDepth := d' } c) := by
  unfold assemble
  refine Capped.bind (.refl (rejectVerbatim c)) fun _ => ?_
  refine .ite (fun _ => .refl _) fun _ => ?_
  exact (Capped.each fun t _ => (caps ⟨c.source, settings⟩ d d' d d' hd).compose t).map _

/-! ## Room that is enough -/

theorem BadTags.ne_tooDeep {t : Tree} {f : Fault} (h : BadTags t f) (limit : Nat) (node : Span) : f ≠ .tooDeep limit node := by
  rintro rfl
  cases h

theorem fault?_ne_tooDeep {i : Input} {t : Tree} {f : Fault} (h : fault? i t = some f) (limit : Nat) (node : Span) :
    f ≠ .tooDeep limit node := by
  unfold fault? at h
  split at h
  · next g _ hg =>
    obtain rfl : g = f := Option.some.inj h
    exact (fails_tagOf i t g hg).ne_tooDeep limit node
  · cases h

theorem rejectVerbatim_ne_tooDeep (c : Cst) (limit : Nat) (node : Span) :
    (rejectVerbatim c).result ≠ .error (.tooDeep limit node) := by
  intro h
  cases fails_rejectVerbatim c _ h

/-- **Twice the height is room enough.** -/
theorem assemble_ne_tooDeep {doc : Document} {c : Cst} {settings : Settings} (hp : doc.parse = .ok c)
    (hdepth : 2 * c.tree.height + 1 ≤ settings.maxDepth) (limit : Nat) (node : Span) :
    (assemble settings c).result ≠ .error (.tooDeep limit node) := by
  cases hv : (rejectVerbatim c).result with
  | error f =>
    rw [assemble, Logged.result_bind, hv]
    rintro ⟨⟩
    exact rejectVerbatim_ne_tooDeep c limit node hv
  | ok =>
    obtain ⟨cs, hroot, -⟩ := parse_spread hp
    have hagrees := agrees_assemble hv (parse_shaped hp) (by rw [hroot]; rintro ⟨⟩) hdepth
    cases hfault : faultIn? ⟨c.source, settings⟩ c.tree with
    | none =>
      rw [hfault] at hagrees
      obtain ⟨output, houtput⟩ := hagrees
      rw [houtput]
      intro h
      cases h
    | some f =>
      rw [hfault] at hagrees
      rw [show (assemble settings c).result = .error f from hagrees]
      rintro ⟨⟩
      obtain ⟨t, -, ht⟩ := List.exists_of_findSome?_eq_some hfault
      exact fault?_ne_tooDeep ht limit node rfl

theorem assemble_ne_tooDeep_of_hasMarkup {c : Cst} {settings : Settings} (h : c.tree.hasMarkup = false) (limit : Nat)
    (node : Span) : (assemble settings c).result ≠ .error (.tooDeep limit node) := by
  cases hv : (rejectVerbatim c).result with
  | error f =>
    rw [assemble, Logged.result_bind, hv]
    rintro ⟨⟩
    exact rejectVerbatim_ne_tooDeep c limit node hv
  | ok =>
    rw [result_assemble hv, if_pos h]
    intro hdeep
    cases hdeep

/-- Only what goes too deep is reported so. -/
theorem Fault.eq_tooDeep {doc : Document} {f : Fault} (h : (f.report doc).kind = .nestingLimit) :
    ∃ limit node, f = .tooDeep limit node := by
  cases f with
  | tooDeep limit node => exact ⟨limit, node, rfl⟩
  | _ => cases h

end InlineMarkup.Lowering

namespace InlineMarkup

open Lowering

/-- **The allowed depth decides nothing but whether markup is nested too deeply.** -/
theorem translate_maxDepth (doc : Document) (settings : Settings) {d d' : Nat} (hd : d ≤ d') :
    ((∃ e, (doc.translate { settings with maxDepth := d }).result = .error e ∧ e.kind = .nestingLimit) ∨
      doc.translate { settings with maxDepth := d } = doc.translate { settings with maxDepth := d' }) ∧
    (∀ c, doc.parse = .ok c → 2 * c.tree.height + 1 ≤ d →
      ∀ e, (doc.translate { settings with maxDepth := d }).result = .error e → e.kind ≠ .nestingLimit) ∧
    ((∀ c, doc.parse = .ok c → ∀ t ∈ c.tree.nodes, t.kind ≠ .element) →
      ∀ e, (doc.translate { settings with maxDepth := d }).result = .error e → e.kind ≠ .nestingLimit) := by
  refine ⟨?_, fun c hp hdepth e he hk => ?_, fun hnone e he hk => ?_⟩
  · cases hp : doc.parse with
    | error e =>
      refine .inr ?_
      unfold Document.translate
      rw [hp]
    | ok c =>
      rcases capped_assemble settings c hd with hsame | ⟨limit, node, hdeep⟩
      · refine .inr ?_
        unfold Document.translate
        rw [hp]
        simp only [hsame]
      · refine .inl ⟨Fault.report doc (.tooDeep limit node), ?_, rfl⟩
        rw [result_translate hp, hdeep]
        rfl
  · obtain ⟨f, hf, rfl⟩ := exists_fault_of_translate hp he
    obtain ⟨limit, node, rfl⟩ := Fault.eq_tooDeep hk
    exact assemble_ne_tooDeep hp hdepth limit node hf
  · cases hp : doc.parse with
    | error e' =>
      unfold Document.translate at he
      rw [hp] at he
      cases he
      obtain ⟨a, rfl, -⟩ := parse_refused hp
      cases hk
    | ok c =>
      obtain ⟨f, hf, rfl⟩ := exists_fault_of_translate hp he
      obtain ⟨limit, node, rfl⟩ := Fault.eq_tooDeep hk
      refine assemble_ne_tooDeep_of_hasMarkup (Bool.eq_false_iff.2 fun hm => ?_) limit node hf
      obtain ⟨u, hu, huk⟩ := Tree.hasMarkup_iff.1 hm
      exact hnone c hp u hu huk

/-- An element in the braces of another one. -/
def interpolated : Document := ⟨"a.mbx", "let a = <b>\x7b<c/>\x7d</b>".toList⟩

theorem translate_maxDepth_interpolated :
    (∃ e, (interpolated.translate { maxDepth := 7 }).result = .error e ∧ e.kind = .nestingLimit) ∧
    8 ≤ 256 ∧ (interpolated.translate { maxDepth := 8 }).result.isOk = true ∧
    interpolated.translate { maxDepth := 8 } = interpolated.translate { maxDepth := 256 } := by
  have hdeep : (match (interpolated.translate { maxDepth := 7 }).result with
    | .ok _ => none
    | .error e => some e.kind) = some .nestingLimit := by decide +kernel
  have hok : (interpolated.translate { maxDepth := 8 }).result.isOk = true := by decide +kernel
  refine ⟨?_, by decide, hok, ?_⟩
  · cases h : (interpolated.translate { maxDepth := 7 }).result with
    | ok output => rw [h] at hdeep; cases hdeep
    | error e => rw [h] at hdeep; exact ⟨e, rfl, Option.some.inj hdeep⟩
  · rcases (translate_maxDepth interpolated {} (show 8 ≤ 256 by decide)).1 with ⟨e, he, -⟩ | hsame
    · rw [show (interpolated.translate { maxDepth := 8 }).result = .error e from he] at hok
      cases hok
    · exact hsame

end InlineMarkup
