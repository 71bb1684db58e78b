import InlineMarkup.Proofs.Attributes
import InlineMarkup.Proofs.Index
import InlineMarkup.Proofs.TagCheck
/-!
# Proofs.Record — lowering comes past every element and attribute once

Each element and each attribute is noted in the log when it is lowered, an attribute without its value with a warning
before it (`noted`).  Composed code, expressions, tags and braces lead lowering to all of them, and nothing that it leaves
out holds one: the log of a translated document is the record of its nodes, children before their parents
(`translate_records`).
-/
namespace InlineMarkup

open Lowering

/-! ## The record of a tree -/

namespace Event

def isElement : Event → Bool
  | .loweredElement .. => true
  | _ => false

def isAttribute : Event → Bool
  | .loweredAttribute .. => true
  | _ => false

def isWarning (e : Event) : Bool := e.level == .warn

/-- The event belongs to the record. -/
def isKept (e : Event) : Bool := e.isElement || e.isAttribute || e.isWarning

end Event

namespace Tree

mutual

/-- The tree and all trees below it, children before their parents. -/
def postorder : Tree → List Tree
  | .node k s cs => postorderAll cs ++ [.node k s cs]

def postorderAll : List Tree → List Tree
  | [] => []
  | t :: ts => t.postorder ++ postorderAll ts

end

/-- The attribute has an equals sign, but neither a quoted value nor braces with an expression. -/
def lacksValue (source : Text) (t : Tree) : Bool :=
  t.kind == .attribute && t.children.any (·.isToken source ['=']) &&
    !t.children.any fun c => c.kind == .attributeValue || c.kind == .interpolation && c.children.any (·.kind == .expression)

end Tree

namespace Lowering

/-- Whether an item of an element's content gives a child. -/
def givesChild (source : Text) (c : Tree) : Bool :=
  match c.kind with
  | .text => (normalizeText (c.text source)).isSome
  | .element => true
  | .interpolation => (c.child? .expression).isSome
  | _ => false

def attributeName (source : Text) (t : Tree) : Text := ((t.child? .attributeName).map (·.text source)).getD []

/-- The warning about an attribute without its value. -/
def warned (source : Text) (t : Tree) : List Event :=
  match t.child? .attributeValue, t.child? .interpolation with
  | some _, _ => []
  | none, some braces =>
    match braces.child? .expression with
    | some _ => []
    | none => [.emptyValue (attributeName source t) t.span]
  | none, none =>
    if t.children.any (·.isToken source ['=']) then [.missingValue (attributeName source t) t.span] else []

/-- What is noted of an element whose tag this is. -/
def elementNoted (source : Text) (t tag : Tree) : Event :=
  .loweredElement ((tagName? source tag).getD []) (tag.children.countP (·.kind == .attribute))
    ((content t).countP (givesChild source))

/-- What is noted of a node once all below it is lowered. -/
def noted (source : Text) (t : Tree) : List Event :=
  match t.kind with
  | .element => (openingTag? t).toList.map (elementNoted source t)
  | .attribute => warned source t ++ [.loweredAttribute (attributeName source t)]
  | _ => []

/-- The record of a tree. -/
def recorded (source : Text) (t : Tree) : List Event := t.postorder.flatMap (noted source)

section Recorded

variable {source : Text} {t : Tree}

theorem recordedAll (source : Text) (ts : List Tree) :
    (Tree.postorderAll ts).flatMap (noted source) = ts.flatMap (recorded source) := by
  induction ts with
  | nil => rfl
  | cons t ts ih =>
    rw [Tree.postorderAll, List.flatMap_append, ih]
    rfl

theorem recorded_eq (t : Tree) : recorded source t = t.children.flatMap (recorded source) ++ noted source t := by
  obtain ⟨k, s, cs⟩ := t
  rw [recorded, Tree.postorder, List.flatMap_append, recordedAll, List.flatMap_singleton]
  rfl

theorem noted_eq_nil (he : t.kind ≠ .element) (ha : t.kind ≠ .attribute) : noted source t = [] := by
  unfold noted
  split
  · next h => exact absurd h he
  · next h => exact absurd h ha
  · rfl

theorem recorded_of_ne (he : t.kind ≠ .element) (ha : t.kind ≠ .attribute) :
    recorded source t = t.children.flatMap (recorded source) := by
  rw [recorded_eq, noted_eq_nil he ha, List.append_nil]

theorem flatMap_filter {α β : Type} {f : α → List β} {q : α → Bool} : ∀ {as : List α},
    (∀ a ∈ as, q a = false → f a = []) → (as.filter q).flatMap f = as.flatMap f
  | [], _ => rfl
  | a :: as, h => by
    have has : (as.filter q).flatMap f = as.flatMap f := flatMap_filter fun x hx => h x (List.mem_cons_of_mem a hx)
    cases hq : q a with
    | false => rw [List.filter_cons_of_neg (by simp [hq]), List.flatMap_cons, h a List.mem_cons_self hq, has]; rfl
    | true => rw [List.filter_cons_of_pos hq, List.flatMap_cons, List.flatMap_cons, has]

/-! ## Trees of the right shape -/

/-- All nodes of the tree are shaped and nested as those of a document. -/
def Sound (t : Tree) : Prop := ∀ u ∈ t.nodes, u.Shaped ∧ u.Nested

/-- Neither an attribute nor a tag. -/
def isHost (k : Kind) : Bool := k != .attribute && k != .elementOpening && k != .elementSelfClosing

namespace Sound

theorem shaped (h : Sound t) : t.Shaped := (h t (Tree.mem_nodes_self t)).1

theorem nested (h : Sound t) : t.Nested := (h t (Tree.mem_nodes_self t)).2

theorem child (h : Sound t) {c : Tree} (hc : c ∈ t.children) : Sound c :=
  fun u hu => h u (Tree.mem_nodes_iff.2 (.inr ⟨c, hc, hu⟩))

theorem part (h : Sound t) {c : Tree} (hc : c ∈ t.parts) : Sound c := h.child (List.mem_filter.1 hc).1

theorem leaf (h : Sound t) (hl : t.kind.isLeaf = true) : recorded source t = [] := by
  rw [recorded_of_ne, h.shaped.leaf hl]
  · rfl
  · intro hk; rw [hk] at hl; cases hl
  · intro hk; rw [hk] at hl; cases hl

theorem children (h : Sound t) : t.children.flatMap (recorded source) = t.parts.flatMap (recorded source) :=
  (flatMap_filter fun _ hc hpart => (h.child hc).leaf (Kind.isLeaf_of_isPart hpart)).symm

theorem leaves (h : Sound t) (he : t.kind ≠ .element) (ha : t.kind ≠ .attribute)
    (hl : ∀ c ∈ t.parts, c.kind.isLeaf = true) : recorded source t = [] := by
  rw [recorded_of_ne he ha, h.children]
  exact List.flatMap_eq_nil_iff.2 fun c hc => (h.part hc).leaf (hl c hc)

theorem isHost_child (h : Sound t) (ht : isHost t.kind = true) (he : t.kind ≠ .element) {c : Tree} (hc : c ∈ t.children) :
    isHost c.kind = true := by
  obtain ⟨hattribute, htag⟩ := h.nested c hc
  simp only [isHost, Bool.and_eq_true, bne_iff_ne, ne_eq, and_assoc] at ht ⊢
  refine ⟨fun hk => ?_, fun hk => he (htag (.inl hk)), fun hk => he (htag (.inr hk))⟩
  exact (hattribute hk).elim ht.2.1 ht.2.2

theorem braces (h : Sound t) (source : Text) (hk : t.kind = .interpolation) :
    (t.child? .expression = none ∧ recorded source t = []) ∨
      ∃ e ∈ t.children, t.child? .expression = some e ∧ e.kind = .expression ∧ recorded source t = recorded source e := by
  rw [recorded_of_ne (by rw [hk]; decide) (by rw [hk]; decide), h.children]
  rcases h.shaped.braces_cases hk with ⟨hnone, hparts⟩ | ⟨e, he, hsome, hek, hparts⟩
  · exact .inl ⟨hnone, by rw [hparts]; rfl⟩
  · exact .inr ⟨e, he, hsome, hek, by simp [hparts]⟩

theorem value (h : Sound t) (source : Text) (hk : t.kind = .attribute) :
    (t.child? .attributeValue = none ∧ t.child? .interpolation = none ∧ t.children.flatMap (recorded source) = []) ∨
    (∃ v, t.child? .attributeValue = some v ∧ t.children.flatMap (recorded source) = []) ∨
    ∃ v ∈ t.children, v.kind = .interpolation ∧ t.child? .attributeValue = none ∧ t.child? .interpolation = some v ∧
      t.children.flatMap (recorded source) = recorded source v := by
  rw [h.children]
  obtain ⟨name, hmem, hname, hvalue⟩ := h.shaped.value_cases hk
  have hleaf : recorded source name = [] := (h.part hmem).leaf (by rw [hname]; rfl)
  rcases hvalue with ⟨hparts, hquoted, hbraces⟩ | ⟨v, hv, hparts, ⟨hvk, hquoted⟩ | ⟨hvk, hquoted, hbraces⟩⟩
  · exact .inl ⟨hquoted, hbraces, by simp [hparts, hleaf]⟩
  · have hnil : recorded source v = [] := by
      refine (h.part hv).leaves (by rw [hvk]; decide) (by rw [hvk]; decide) fun c hc => ?_
      rw [(h.part hv).shaped.quoted hvk c hc]
      rfl
    exact .inr (.inl ⟨v, hquoted, by simp [hparts, hleaf, hnil]⟩)
  · exact .inr (.inr ⟨v, (List.mem_filter.1 hv).1, hvk, hquoted, hbraces, by simp [hparts, hleaf]⟩)

end Sound

mutual

/-- **Code without elements has no attributes.** -/
theorem recorded_of_hasMarkup : ∀ {t : Tree}, Sound t → isHost t.kind = true → t.hasMarkup = false → recorded source t = []
  | .node k s cs, h, ht, hm => by
    rw [Tree.hasMarkup, Bool.or_eq_false_iff] at hm
    have he : (Tree.node k s cs).kind ≠ .element := by rintro rfl; cases hm.1
    have ha : (Tree.node k s cs).kind ≠ .attribute := by rintro rfl; cases ht
    refine (recorded_of_ne he ha).trans ?_
    exact recordedAll_of_hasMarkup (fun c hc => h.child hc) (fun c hc => h.isHost_child ht he hc) hm.2

theorem recordedAll_of_hasMarkup : ∀ {ts : List Tree}, (∀ t ∈ ts, Sound t) → (∀ t ∈ ts, isHost t.kind = true) →
    Tree.anyMarkup ts = false → ts.flatMap (recorded source) = []
  | [], _, _, _ => rfl
  | t :: ts, h, ht, hm => by
    rw [Tree.anyMarkup, Bool.or_eq_false_iff] at hm
    rw [List.flatMap_cons, recorded_of_hasMarkup (h t List.mem_cons_self) (ht t List.mem_cons_self) hm.1,
      recordedAll_of_hasMarkup (fun u hu => h u (List.mem_cons_of_mem t hu)) (fun u hu => ht u (List.mem_cons_of_mem t hu)) hm.2]
    rfl

end

/-- **Looking through wrappers** passes nothing of the record by. -/
theorem unwrapUpTo_recorded (source : Text) : ∀ (n : Nat) (t : Tree), Sound t →
    Sound (unwrapUpTo source n t) ∧ recorded source (unwrapUpTo source n t) = recorded source t
  | 0, t, h => ⟨h, rfl⟩
  | n + 1, t, h => by
    rw [unwrapUpTo]
    cases hc : singleOperand? source t with
    | none => exact ⟨h, rfl⟩
    | some c =>
      simp only
      split
      · next hw =>
        obtain ⟨q, hcs, hrest⟩ := singleOperand?_filter hc
        obtain ⟨hsound, hsame⟩ := unwrapUpTo_recorded source n c (h.child (mem_of_singleOperand? hc))
        have hne : ∀ k, wraps k = false → t.kind ≠ k := by
          rintro k hk rfl
          rw [hk] at hw
          cases hw
        have hfilter : (t.children.filter q).flatMap (recorded source) = t.children.flatMap (recorded source) :=
          flatMap_filter fun d hd hdrop => (h.child hd).leaf (hrest d hd hdrop)
        rw [hcs, List.flatMap_singleton] at hfilter
        exact ⟨hsound, by rw [hsame, hfilter, recorded_of_ne (hne _ rfl) (hne _ rfl)]⟩
      · exact ⟨h, rfl⟩

end Recorded

/-! ## What a step leaves in the log -/

/-- If the step succeeds, these are the events of the record in its log. -/
def Leaves {ε α : Type} (x : Logged ε α) (es : List Event) : Prop :=
  ∀ a, x.result = .ok a → x.events.filter Event.isKept = es

namespace Leaves

variable {ε α β : Type} {x : Logged ε α} {es es' : List Event}

theorem pure (a : α) : Leaves (Pure.pure a : Logged ε α) [] := fun _ _ => rfl

theorem fail (e : ε) : Leaves (Logged.fail e : Logged ε α) es := fun a h => by cases h

theorem note {e : Event} : Leaves (Logged.note e : Logged ε Unit) ([e].filter Event.isKept) := fun _ _ => rfl

theorem bind {f : α → Logged ε β} (hx : Leaves x es) (hf : ∀ a, x.result = .ok a → Leaves (f a) es') :
    Leaves (x >>= f) (es ++ es') := by
  intro b hb
  rw [Logged.result_bind] at hb
  obtain ⟨a, ha, hb⟩ := Logged.bind_eq_ok hb
  have hevents : (x >>= f).events = x.events ++ (f a).events := by
    show (Logged.bind x f).events = _
    rw [Logged.bind, ha]
  rw [hevents, List.filter_append, hx a ha, hf a ha b hb]

theorem map (hx : Leaves x es) (f : α → β) : Leaves (x >>= fun a => Pure.pure (f a)) es := by
  have hbind : Leaves (x >>= fun a => Pure.pure (f a)) (es ++ []) := hx.bind fun a _ => .pure (f a)
  rwa [List.append_nil] at hbind

/-- **Going through a list** leaves what its items leave, one after the other. -/
theorem each {g : Tree → Step α} {f : Tree → List Event} : ∀ {ts : List Tree}, (∀ t ∈ ts, Leaves (g t) (f t)) →
    Leaves (Logged.each g ts) (ts.flatMap f)
  | [], _ => fun _ _ => rfl
  | t :: ts, h => by
    rw [List.flatMap_cons]
    refine (h t List.mem_cons_self).bind fun a _ => ?_
    exact (each fun u hu => h u (List.mem_cons_of_mem t hu)).map (a :: ·)

end Leaves

/-- Each way of lowering leaves the record of what it lowers. -/
structure Records (i : Input) (room : Nat) : Prop where
  compose : ∀ t, Sound t → isHost t.kind = true → Leaves (i.compose room t) (recorded i.source t)
  element : ∀ t, Sound t → t.kind = .element → Leaves (i.lowerElement room t) (recorded i.source t)
  expression : ∀ t, Sound t → t.kind = .expression → Leaves (i.lowerExpression room t) (recorded i.source t)
  value : ∀ t, Sound t → t.kind = .attribute → Leaves (i.lowerAttribute room t) (recorded i.source t)

section Steps

variable {i : Input} {room : Nat} {t : Tree}

theorem leaves_compose (ih : Records i room) (h : Sound t) (ht : isHost t.kind = true) :
    Leaves (i.compose (room + 1) t) (recorded i.source t) := by
  rw [Input.compose]
  split
  · next hm =>
    rw [recorded_of_hasMarkup h ht (by simpa using hm)]
    exact .pure _
  · split
    · next hk => exact ih.element t h hk
    · next hk =>
      rw [recorded_of_ne hk (by intro ha; rw [ha] at ht; cases ht)]
      exact (Leaves.each fun c hc => ih.compose c (h.child hc) (h.isHost_child ht hk hc)).map _

theorem leaves_closeComment (t : Tree) (w : Text) : Leaves (i.closeComment t w) [] := by
  rw [Input.closeComment]
  split
  · exact Leaves.note.map _
  · exact .pure _

theorem lowerExpression_eq (t : Tree) :
    i.lowerExpression (room + 1) t = (i.lowerCore room t >>= fun w => i.closeComment t w) := by
  rw [Input.lowerExpression, Input.lowerCore]
  simp only
  split
  · rfl
  · split
    · rfl
    · split <;> rfl

theorem leaves_expression (ih : Records i room) (h : Sound t) (hk : t.kind = .expression) :
    Leaves (i.lowerExpression (room + 1) t) (recorded i.source t) := by
  obtain ⟨hsound, hsame⟩ : Sound (unwrap i.source t) ∧ recorded i.source (unwrap i.source t) = recorded i.source t :=
    unwrapUpTo_recorded i.source maxUnwrap t h
  have hhost : isHost t.kind = true := by rw [hk]; rfl
  have hcore : Leaves (i.lowerCore room t) (recorded i.source t) := by
    rw [Input.lowerCore]
    split
    · next hname =>
      rw [← hsame, hsound.leaf (by rcases hname with hname | hname <;> rw [hname] <;> rfl)]
      exact .pure _
    · split
      · next helement =>
        rw [← hsame]
        exact ih.element _ hsound helement
      · split
        · exact ih.compose t h hhost
        · next hm =>
          rw [recorded_of_hasMarkup h hhost (Bool.eq_false_iff.2 hm)]
          exact .pure _
  rw [lowerExpression_eq, ← List.append_nil (recorded i.source t)]
  exact hcore.bind fun w _ => leaves_closeComment t w

/-- The value of an attribute, with its warning. -/
def readValue (i : Input) (room : Nat) (t : Tree) : Step Text :=
  match t.child? .attributeValue, t.child? .interpolation with
  | some value, _ => pure (i.attributeString value)
  | none, some braces =>
    match braces.child? .expression with
    | some e => i.lowerExpression room e
    | none => do
      Logged.note (.emptyValue (attributeName i.source t) t.span)
      pure Input.emptyString
  | none, none =>
    if t.children.any (·.isToken i.source ['=']) then do
      Logged.note (.missingValue (attributeName i.source t) t.span)
      pure Input.emptyString
    else pure "true".toList

theorem lowerAttribute_eq (t : Tree) :
    i.lowerAttribute (room + 1) t = (readValue i room t >>= fun value =>
      Logged.note (.loweredAttribute (attributeName i.source t)) >>= fun _ =>
        pure (Input.call i.settings.builders.attr [Input.inQuotes (attributeName i.source t), value])) := by
  rw [Input.lowerAttribute, readValue]
  cases t.child? .attributeValue with
  | some value => rfl
  | none =>
    cases t.child? .interpolation with
    | some braces =>
      simp only
      cases braces.child? .expression <;> rfl
    | none =>
      simp only
      split <;> rfl

theorem leaves_readValue (ih : Records i room) (h : Sound t) (hk : t.kind = .attribute) :
    Leaves (readValue i room t) (t.children.flatMap (recorded i.source) ++ warned i.source t) := by
  unfold readValue warned
  obtain ⟨hquoted, hbraces, hnil⟩ | ⟨v, hquoted, hnil⟩ | ⟨v, hv, hvk, hquoted, hbraces, hsame⟩ :=
    h.value i.source hk
  · rw [hquoted, hbraces, hnil]
    simp only
    split
    · exact Leaves.note.map _
    · exact .pure _
  · rw [hquoted, hnil]
    exact .pure _
  · rw [hquoted, hbraces, hsame]
    simp only
    rcases (h.child hv).braces i.source hvk with ⟨hnone, hnil⟩ | ⟨e, he, hsome, hek, hsame⟩
    · rw [hnone, hnil]
      exact Leaves.note.map _
    · rw [hsome, hsame, List.append_nil]
      exact ih.expression e ((h.child hv).child he) hek

theorem leaves_value (ih : Records i room) (h : Sound t) (hk : t.kind = .attribute) :
    Leaves (i.lowerAttribute (room + 1) t) (recorded i.source t) := by
  have hnoted : noted i.source t = warned i.source t ++ [.loweredAttribute (attributeName i.source t)] := by
    unfold noted
    rw [hk]
  rw [lowerAttribute_eq, recorded_eq, hnoted, ← List.append_assoc]
  exact (leaves_readValue ih h hk).bind fun value _ => Leaves.note.map _

theorem leaves_child (ih : ∀ r ≤ room, Records i r) (h : Sound t)
    (hk : t.kind ∈ contentKinds ∨ t.kind.isLeaf = true) : Leaves (i.lowerChild room t) (recorded i.source t) := by
  unfold Input.lowerChild
  split
  · next htext =>
    rw [h.leaf (by rw [htext]; rfl)]
    exact .pure _
  · next helement => exact ((ih room (Nat.le_refl room)).element t h helement).map _
  · next hbraces =>
    rcases h.braces i.source hbraces with ⟨hnone, hnil⟩ | ⟨e, he, hsome, hek, hsame⟩
    · rw [hnone, hnil]
      exact .pure _
    · rw [hsome, hsame]
      obtain ⟨hsound, hcore⟩ : Sound (unwrap i.source e) ∧ recorded i.source (unwrap i.source e) = recorded i.source e :=
        unwrapUpTo_recorded i.source maxUnwrap e (h.child he)
      cases room with
      | zero => exact .fail _
      | succ room =>
        have hroom := ih room (Nat.le_succ room)
        simp only
        split
        · next hk =>
          rw [← hcore]
          exact (hroom.element _ hsound hk).map _
        · exact (hroom.expression e (h.child he) hek).map _
  · next htext helement hbraces =>
    have hl : t.kind.isLeaf = true := by
      refine hk.elim (fun hk => ?_) id
      simp only [contentKinds, List.mem_cons, List.not_mem_nil, or_false] at hk
      rcases hk with hk | hk | hk | hk
      · exact absurd hk htext
      · exact absurd hk hbraces
      · rw [hk]
        rfl
      · exact absurd hk helement
    rw [h.leaf hl]
    exact .pure _

theorem recorded_tag (source : Text) {tag : Tree} (h : Sound tag)
    (hk : tag.kind = .elementOpening ∨ tag.kind = .elementSelfClosing) :
    (tag.children.filter (·.kind == .attribute)).flatMap (recorded source) = recorded source tag := by
  have hne : tag.kind ≠ .element ∧ tag.kind ≠ .attribute := by rcases hk with hk | hk <;> rw [hk] <;> decide
  rw [recorded_of_ne hne.1 hne.2]
  refine flatMap_filter fun c hc hother => (h.child hc).leaf ?_
  cases hpart : c.kind.isPart with
  | false => exact Kind.isLeaf_of_isPart hpart
  | true =>
    rcases ((h.shaped.tag hk).2 c (List.mem_filter.2 ⟨hc, hpart⟩)).1 with hname | hattribute
    · rw [hname]
      rfl
    · rw [hattribute] at hother
      cases hother

theorem leaves_tagOf (t : Tree) : Leaves (i.tagOf t) [] := by
  have hcheck : ∀ tag name, Leaves (i.checkTags t tag name) [] := by
    intro tag name
    unfold Input.checkTags
    split
    · exact .pure _
    · split
      · exact .fail _
      · simp only
        split
        · exact .pure _
        · exact .fail _
  unfold Input.tagOf
  split
  · exact .fail _
  · split
    · exact .fail _
    · exact (hcheck _ _).map _

theorem name_of_tagOf {tag : Tree} {inner : List Tree} {closing : Option Tree} (hparts : Parts t tag inner closing)
    {x : Tree × Text} (hx : (i.tagOf t).result = .ok x) : tagName? i.source tag = some x.2 := by
  rw [← tag_of_tagOf hparts hx]
  exact (Input.tagOf_eq_ok hx).2

theorem lowerElement_eq (t : Tree) :
    i.lowerElement (room + 1) t = (i.tagOf t >>= fun tag =>
      Logged.each (i.lowerAttribute room) (tag.1.children.filter (·.kind == .attribute)) >>= fun attributes =>
        Logged.each (i.lowerChild room) (content t) >>= fun children =>
          Logged.note (.loweredElement tag.2 attributes.length (children.filterMap id).length) >>= fun _ =>
            pure (Input.call i.settings.builders.element
              [Input.inQuotes tag.2, Input.listOf attributes, Input.listOf (children.filterMap id)])) := by
  rw [Input.lowerElement]
  rfl

theorem isSome_of_lowerChild {x : Option Text} (h : (i.lowerChild room t).result = .ok x) :
    x.isSome = givesChild i.source t := by
  unfold givesChild
  cases Input.gives_of_lowerChild h with
  | text hk => rw [hk, Option.isSome_map]
  | element hk => rw [hk]; rfl
  | empty hk he => rw [hk]; simp only [he]; rfl
  | core hk he => rw [hk]; simp only [he]; rfl
  | expression hk he => rw [hk]; simp only [he]; rfl
  | other htext helement hbraces =>
    split
    · next hk => exact absurd hk htext
    · next hk => exact absurd hk helement
    · next hk => exact absurd hk hbraces
    · rfl

theorem length_children : ∀ {ts : List Tree} {xs : List (Option Text)},
    List.Forall₂ (fun t x => (i.lowerChild room t).result = .ok x) ts xs →
    (xs.filterMap id).length = ts.countP (givesChild i.source)
  | _, _, .nil => rfl
  | t :: ts, x :: xs, .cons h hs => by
    rw [List.countP_cons, ← isSome_of_lowerChild h, ← length_children hs, List.filterMap_cons]
    cases x <;> rfl

theorem leaves_element (ih : ∀ r ≤ room, Records i r) (h : Sound t) (hk : t.kind = .element) :
    Leaves (i.lowerElement (room + 1) t) (recorded i.source t) := by
  obtain ⟨tag, inner, closing, hparts⟩ := h.shaped.element hk
  have htag : tag ∈ t.parts := by simp [hparts.parts]
  have hclosing : closing.toList.flatMap (recorded i.source) = [] := by
    refine List.flatMap_eq_nil_iff.2 fun c hc => ?_
    have hmem : c ∈ t.parts := by rw [hparts.parts]; simp [Option.mem_toList.1 hc]
    have hck := hparts.closing_kind c (Option.mem_toList.1 hc)
    refine (h.part hmem).leaves (by rw [hck]; decide) (by rw [hck]; decide) fun d hd => ?_
    rw [(h.part hmem).shaped.closing hck d hd]
    rfl
  have hcontent : (content t).flatMap (recorded i.source) = inner.flatMap (recorded i.source) := by
    rw [← hparts.content]
    refine (flatMap_filter fun c hc hpart => (h.child (List.mem_filter.1 hc).1).leaf ?_).symm
    exact Kind.isLeaf_of_isPart hpart
  have hnoted : noted i.source t = [elementNoted i.source t tag] := by
    rw [noted, hk]
    simp only [hparts.openingTag?]
    rfl
  rw [lowerElement_eq, recorded_eq, h.children, hparts.parts, List.flatMap_cons, List.flatMap_append, hclosing,
    List.append_nil, ← hcontent, hnoted, List.append_assoc, ← List.nil_append (_ ++ _)]
  refine (leaves_tagOf t).bind fun x hx => ?_
  rw [tag_of_tagOf hparts hx, ← recorded_tag i.source (h.part htag) hparts.tag_kind]
  refine Leaves.bind (Leaves.each fun a ha => ?_) fun as has => Leaves.bind (Leaves.each fun c hc => ?_) fun cs hcs => ?_
  · obtain ⟨ha, hak⟩ := List.mem_filter.1 ha
    exact (ih room (Nat.le_refl room)).value a ((h.part htag).child ha) (beq_iff_eq.1 hak)
  · refine leaves_child ih (h.child (List.mem_filter.1 hc).1) ?_
    cases hpart : c.kind.isPart with
    | true =>
      refine .inl (hparts.inner_kind c ?_)
      rw [← hparts.content]
      exact List.mem_filter.2 ⟨hc, hpart⟩
    | false => exact .inr (Kind.isLeaf_of_isPart hpart)
  · have hattributes : as.length = tag.children.countP (·.kind == .attribute) := by
      rw [← (Logged.result_each_eq_ok.1 has).length_eq, List.countP_eq_length_filter]
    rw [elementNoted, name_of_tagOf hparts hx, Option.getD_some, ← hattributes,
      ← length_children (Logged.result_each_eq_ok.1 hcs)]
    exact Leaves.note.map _

end Steps

/-- **Lowering leaves the record.** -/
theorem records (i : Input) (room : Nat) : Records i room := by
  induction room using Nat.strongRecOn with
  | ind room ih =>
    cases room with
    | zero =>
      refine ⟨fun t _ _ => ?_, fun t _ _ => ?_, fun t _ _ => ?_, fun t _ _ => ?_⟩
      · rw [Input.compose]; exact .fail _
      · rw [Input.lowerElement]; exact .fail _
      · rw [Input.lowerExpression]; exact .fail _
      · rw [Input.lowerAttribute]; exact .fail _
    | succ room =>
      have hroom := ih room (Nat.lt_succ_self room)
      refine ⟨fun t => leaves_compose hroom, fun t h hk => ?_, fun t => leaves_expression hroom, fun t => leaves_value hroom⟩
      exact leaves_element (fun r hr => ih r (Nat.lt_succ_of_le hr)) h hk

end Lowering

/-! ## Orders of nodes -/

namespace Tree

mutual

theorem postorder_perm : ∀ t : Tree, t.postorder.Perm t.nodes
  | .node k s cs => by
    rw [postorder, nodes]
    exact (List.perm_append_singleton _ _).trans ((postorderAll_perm cs).cons _)

theorem postorderAll_perm : ∀ ts : List Tree, (postorderAll ts).Perm (nodesAll ts)
  | [] => .nil
  | t :: ts => by
    rw [postorderAll, nodesAll]
    exact (postorder_perm t).append (postorderAll_perm ts)

end

mutual

/-- **A node comes right after all nodes below it.** -/
theorem postorder_after {u : Tree} : ∀ {t : Tree}, u ∈ t.nodes →
    ∃ before after, t.postorder = before ++ (postorderAll u.children ++ u :: after)
  | .node k s cs, hu => by
    rw [nodes, List.mem_cons] at hu
    rcases hu with rfl | hu
    · exact ⟨[], [], rfl⟩
    · obtain ⟨before, after, h⟩ := postorderAll_after hu
      exact ⟨before, after ++ [.node k s cs], by rw [postorder, h]; simp⟩

theorem postorderAll_after {u : Tree} : ∀ {ts : List Tree}, u ∈ nodesAll ts →
    ∃ before after, postorderAll ts = before ++ (postorderAll u.children ++ u :: after)
  | t :: ts, hu => by
    rw [nodesAll, List.mem_append] at hu
    rcases hu with hu | hu
    · obtain ⟨before, after, h⟩ := postorder_after hu
      exact ⟨before, after ++ postorderAll ts, by rw [postorderAll, h]; simp⟩
    · obtain ⟨before, after, h⟩ := postorderAll_after hu
      exact ⟨t.postorder ++ before, after, by rw [postorderAll, h]; simp⟩

end

end Tree

namespace Lowering

/-! ## How often nodes are noted -/

theorem countP_flatMap {α β : Type} {f : α → List β} {p : β → Bool} {q : α → Bool} : ∀ {as : List α},
    (∀ a ∈ as, (f a).countP p = if q a then 1 else 0) → (as.flatMap f).countP p = as.countP q
  | [], _ => rfl
  | a :: as, h => by
    rw [List.flatMap_cons, List.countP_append, h a List.mem_cons_self,
      countP_flatMap fun x hx => h x (List.mem_cons_of_mem a hx), List.countP_cons, Nat.add_comm]

theorem countP_recorded {source : Text} {t : Tree} {p : Event → Bool} {q : Tree → Bool}
    (h : ∀ u ∈ t.nodes, (noted source u).countP p = if q u then 1 else 0) :
    (recorded source t).countP p = t.nodes.countP q := by
  rw [recorded, countP_flatMap fun u hu => h u ((Tree.postorder_perm t).mem_iff.1 hu)]
  exact (Tree.postorder_perm t).countP_eq q

variable {source : Text} {t : Tree}

theorem countP_isElement (h : t.Shaped) :
    (noted source t).countP Event.isElement = if t.kind == .element then 1 else 0 := by
  have hwarned : (warned source t).countP Event.isElement = 0 := by
    unfold warned
    split
    · rfl
    · split <;> rfl
    · split <;> rfl
  by_cases he : t.kind = .element
  · obtain ⟨tag, inner, closing, hparts⟩ := h.element he
    rw [noted, he]
    simp only [hparts.openingTag?]
    rfl
  by_cases ha : t.kind = .attribute
  · rw [noted, ha]
    simp only [List.countP_append, hwarned]
    rfl
  · rw [noted_eq_nil he ha, if_neg (by simpa using he)]
    rfl

theorem countP_isAttribute : (noted source t).countP Event.isAttribute = if t.kind == .attribute then 1 else 0 := by
  have hwarned : (warned source t).countP Event.isAttribute = 0 := by
    unfold warned
    split
    · rfl
    · split <;> rfl
    · split <;> rfl
  by_cases he : t.kind = .element
  · rw [noted, he]
    cases openingTag? t <;> rfl
  by_cases ha : t.kind = .attribute
  · rw [noted, ha]
    simp only [List.countP_append, hwarned]
    rfl
  · rw [noted_eq_nil he ha, if_neg (by simpa using ha)]
    rfl

theorem any_parts {q : Tree → Bool} (hq : ∀ c : Tree, c.kind.isPart = false → q c = false) :
    t.children.any q = t.parts.any q := by
  rw [Tree.parts, List.any_filter]
  refine List.any_congr rfl fun c => ?_
  cases hc : c.kind.isPart with
  | false => rw [hq c hc]; rfl
  | true => rfl

theorem isSome_child? (k : Kind) : (t.child? k).isSome = t.children.any (·.kind == k) := by
  rw [Bool.eq_iff_iff, Tree.child?, List.find?_isSome, List.any_eq_true]

theorem countP_isWarning (h : t.Shaped) (hbraces : t.kind = .attribute → ∀ v, t.child? .interpolation = some v →
    t.children.any (·.isToken source ['=']) = true) :
    (noted source t).countP Event.isWarning = if t.lacksValue source then 1 else 0 := by
  by_cases he : t.kind = .element
  · rw [noted, he, Tree.lacksValue, he]
    cases openingTag? t <;> rfl
  by_cases ha : t.kind = .attribute
  · have hany : (t.children.any fun c => c.kind == .attributeValue || c.kind == .interpolation &&
        c.children.any (·.kind == .expression)) = t.parts.any fun c => c.kind == .attributeValue ||
          c.kind == .interpolation && c.children.any (·.kind == .expression) := by
      refine any_parts fun c hc => ?_
      cases hk : c.kind <;> rw [hk] at hc <;> first | rfl | cases hc
    have hcount : (noted source t).countP Event.isWarning = (warned source t).countP Event.isWarning := by
      rw [noted, ha]
      simp only [List.countP_append]
      rfl
    rw [hcount, Tree.lacksValue, hany, ha]
    unfold warned
    obtain ⟨name, -, hname, hvalue⟩ := h.value_cases ha
    rcases hvalue with ⟨hparts, hquoted, hnone⟩ | ⟨v, -, hparts, ⟨hv, hquoted⟩ | ⟨hv, hquoted, hsome⟩⟩
    · rw [hparts, hquoted, hnone]
      cases heq : t.children.any (·.isToken source ['=']) <;> simp [hname, Event.isWarning, Event.level]
    · rw [hparts, hquoted]
      simp [hv]
    · rw [hparts, hquoted, hsome, hbraces ha v hsome]
      have hexpr := isSome_child? (t := v) .expression
      cases hchild : v.child? .expression <;> rw [hchild] at hexpr <;>
        simp [hname, hv, hchild, ← hexpr, Event.isWarning, Event.level]
  · rw [noted_eq_nil he ha, Tree.lacksValue, beq_eq_false_iff_ne.2 ha]
    rfl

/-! ## Documents -/

theorem leaves_rejectVerbatim (c : Cst) : Leaves (rejectVerbatim c) [] := by
  unfold rejectVerbatim
  split
  · exact .pure _
  · exact fun a h => by cases h

theorem leaves_assemble {settings : Settings} {c : Cst} (h : Sound c.tree) (hk : c.tree.kind = .program) :
    Leaves (assemble settings c) (recorded c.source c.tree) := by
  have hhost : isHost c.tree.kind = true := by rw [hk]; rfl
  have hne : c.tree.kind ≠ .element ∧ c.tree.kind ≠ .attribute := by rw [hk]; decide
  unfold assemble
  rw [← List.nil_append (recorded c.source c.tree)]
  refine (leaves_rejectVerbatim c).bind fun _ _ => ?_
  simp only
  split
  · next hm =>
    rw [recorded_of_hasMarkup h hhost (by simpa using hm)]
    exact .pure _
  · rw [recorded_of_ne hne.1 hne.2]
    refine (Leaves.each fun t ht => ?_).map _
    exact (records ⟨c.source, settings⟩ settings.maxDepth).compose t (h.child ht) (h.isHost_child hhost hne.1 ht)

end Lowering

theorem sound_of_parse {doc : Document} {c : Cst} (h : doc.parse = .ok c) : Sound c.tree :=
  fun t ht => ⟨parse_shaped h t ht, parse_nested h t ht⟩

theorem leaves_translate {doc : Document} {c : Cst} (hp : doc.parse = .ok c) (settings : Settings) :
    Leaves (doc.translate settings) (recorded doc.text c.tree) := by
  obtain ⟨cs, hroot, -⟩ := parse_spread hp
  have hassemble : Leaves (assemble settings c) (recorded c.source c.tree) :=
    leaves_assemble (sound_of_parse hp) (by rw [hroot]; rfl)
  rw [parse_source hp] at hassemble
  have hmapped : Leaves ((assemble settings c).mapError (Fault.report doc)) (recorded doc.text c.tree) :=
    fun a ha => hassemble a (Logged.mapError_eq_ok ha)
  unfold Document.translate
  rw [hp, ← List.nil_append (recorded doc.text c.tree), ← List.append_nil (recorded doc.text c.tree)]
  exact Leaves.note.bind fun _ _ => hmapped.bind fun _ _ => Leaves.note.map _

/-- **No element and no attribute is lost or lowered twice.**  The log of a translated document is the record of its
nodes, each once and after the nodes below it. -/
theorem translate_records {doc : Document} {settings : Settings} {output : Text}
    (h : (doc.translate settings).result = .ok output) :
    ∃ c, doc.parse = .ok c ∧
      (doc.translate settings).events.filter Event.isKept = c.tree.postorder.flatMap (noted doc.text) ∧
      c.tree.postorder.Perm c.tree.nodes ∧
      (∀ t ∈ c.tree.nodes, ∃ before after, c.tree.postorder = before ++ (Tree.postorderAll t.children ++ t :: after)) ∧
      (doc.translate settings).events.countP Event.isElement = c.arena.markupIndex.elements ∧
      c.arena.markupIndex.elements = c.tree.countKind .element ∧
      (doc.translate settings).events.countP Event.isAttribute = c.tree.countKind .attribute ∧
      (doc.translate settings).events.countP Event.isWarning = c.tree.nodes.countP (Tree.lacksValue doc.text) := by
  obtain ⟨c, hp⟩ : ∃ c, doc.parse = .ok c := by
    cases hp : doc.parse with
    | ok c => exact ⟨c, rfl⟩
    | error d =>
      unfold Document.translate at h
      rw [hp] at h
      cases h
  have hleaves : (doc.translate settings).events.filter Event.isKept = recorded doc.text c.tree :=
    leaves_translate hp settings output h
  have hcount : ∀ p : Event → Bool, (∀ e, p e = true → e.isKept = true) →
      (doc.translate settings).events.countP p = (recorded doc.text c.tree).countP p := by
    intro p hpk
    rw [← hleaves, List.countP_filter]
    refine List.countP_congr fun e _ => ?_
    simpa using hpk e
  have helements : (doc.translate settings).events.countP Event.isElement = c.tree.countKind .element := by
    rw [hcount _ fun e he => by simp [Event.isKept, he]]
    exact countP_recorded fun t ht => countP_isElement (parse_shaped hp t ht)
  refine ⟨c, hp, hleaves, Tree.postorder_perm c.tree, fun t ht => Tree.postorder_after ht, ?_, elements_of_parse hp, ?_, ?_⟩
  · rw [helements, elements_of_parse hp]
  · rw [hcount _ fun e he => by simp [Event.isKept, he]]
    exact countP_recorded fun t _ => countP_isAttribute
  · rw [hcount _ fun e he => by simp [Event.isKept, he]]
    exact countP_recorded fun t ht => countP_isWarning (parse_shaped hp t ht) fun hk v hv => equals_of_braces hp ht hk hv

/-- An element in an attribute of another one, with two attributes that have no value. -/
def nestedMarkup : Document := ⟨"a.mbx", "let x = (<a b=\x7b<i/>\x7d c= d=\x7b\x7d>t</a>)".toList⟩

theorem translate_records_nested : ∃ output c, (nestedMarkup.translate {}).result = .ok output ∧
    nestedMarkup.parse = .ok c ∧ c.tree.countKind .element = 2 ∧ c.tree.countKind .attribute = 3 ∧
    c.tree.nodes.countP (Tree.lacksValue nestedMarkup.text) = 2 ∧
    (nestedMarkup.translate {}).events.countP Event.isElement = 2 ∧
    (nestedMarkup.translate {}).events.countP Event.isAttribute = 3 ∧
    (nestedMarkup.translate {}).events.countP Event.isWarning = 2 := by
  have hparse : nestedMarkup.parse.toOption.any (fun c => decide (c.tree.countKind .element = 2 ∧
      c.tree.countKind .attribute = 3 ∧ c.tree.nodes.countP (Tree.lacksValue nestedMarkup.text) = 2)) = true := by
    decide +kernel
  have hok : (nestedMarkup.translate {}).result.toOption.isSome = true := by decide +kernel
  cases hresult : (nestedMarkup.translate {}).result with
  | error d => rw [hresult] at hok; cases hok
  | ok output =>
    obtain ⟨c, hp, -, -, -, helements, hindex, hattributes, hwarnings⟩ := translate_records hresult
    rw [hp] at hparse
    obtain ⟨h₁, h₂, h₃⟩ := of_decide_eq_true hparse
    exact ⟨output, c, rfl, hp, h₁, h₂, h₃, by rw [helements, hindex, h₁], by rw [hattributes, h₂], by rw [hwarnings, h₃]⟩

end InlineMarkup
