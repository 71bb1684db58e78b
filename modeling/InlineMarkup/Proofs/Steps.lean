import InlineMarkup.Lowering.Translate
import Mathlib.Data.List.Forall2
/-!
# Proofs.Steps — the results of logged steps

The log of a step has no influence on its result: steps in a row give what their results give in a row
(`result_bind`), and going through a list succeeds if it does on every item (`result_each_eq_ok`).  For the steps of
lowering this leaves what they do apart from their log (`result_compose`, `result_lowerExpression`,
`result_lowerAttribute`, `result_lowerElement`, `result_assemble`, `result_translate`).  An item of an element's
content that succeeds does so in one of six ways (`gives_of_lowerChild`).
-/
namespace InlineMarkup.Logged

variable {ε ε' α β : Type}

@[simp] theorem result_pure (a : α) : (pure a : Logged ε α).result = .ok a := rfl

@[simp] theorem result_note (e : Event) : (note e : Logged ε Unit).result = .ok () := rfl

@[simp] theorem result_fail (e : ε) : (fail e : Logged ε α).result = .error e := rfl

@[simp] theorem result_bind (x : Logged ε α) (f : α → Logged ε β) :
    (x >>= f).result = x.result.bind fun a => (f a).result := by
  show (x.bind f).result = _
  unfold Logged.bind
  cases x.result <;> rfl

@[simp] theorem result_mapError (f : ε → ε') (x : Logged ε α) : (x.mapError f).result = x.result.mapError f := rfl

theorem bind_eq_ok {x : Except ε α} {f : α → Except ε β} {b : β} (h : x.bind f = .ok b) :
    ∃ a, x = .ok a ∧ f a = .ok b := by
  cases x with
  | error e => cases h
  | ok a => exact ⟨a, rfl, h⟩

theorem mapError_eq_ok {f : ε → ε'} {x : Except ε α} {a : α} (h : x.mapError f = .ok a) : x = .ok a := by
  cases x with
  | error e => cases h
  | ok b => exact congrArg Except.ok (Except.ok.inj h)

theorem result_each_cons (f : α → Logged ε β) (a : α) (as : List α) :
    (each f (a :: as)).result = (f a).result.bind fun b => (each f as).result.bind fun bs => .ok (b :: bs) := by
  show (f a >>= fun b => each f as >>= fun bs => pure (b :: bs)).result = _
  simp only [result_bind, result_pure]

/-- **Going through a list succeeds if every item does.** -/
theorem result_each_eq_ok {f : α → Logged ε β} : ∀ {as : List α} {bs : List β},
    (each f as).result = .ok bs ↔ List.Forall₂ (fun a b => (f a).result = .ok b) as bs
  | [], bs => by
    constructor
    · intro h
      cases h
      exact .nil
    · rintro ⟨⟩
      rfl
  | a :: as, bs => by
    rw [result_each_cons]
    constructor
    · intro h
      obtain ⟨b, hb, h⟩ := bind_eq_ok h
      obtain ⟨bs', hbs, h⟩ := bind_eq_ok h
      cases h
      exact .cons hb (result_each_eq_ok.1 hbs)
    · rintro (_ | ⟨hb, hbs⟩)
      rw [hb, result_each_eq_ok.2 hbs]
      rfl

end InlineMarkup.Logged

namespace InlineMarkup.Lowering.Input

open Logged

variable (i : Input) (room : Nat)

/-! ## The steps of lowering -/

theorem result_compose (t : Tree) :
    (i.compose (room + 1) t).result =
      if t.hasMarkup = false then .ok (t.text i.source)
      else if t.kind = .element then (i.lowerElement room t).result
      else (each (i.compose room) t.children).result.bind fun ws => .ok (weave i.source (t.children.zip ws)) := by
  rw [compose]
  cases t.hasMarkup with
  | false => rfl
  | true =>
    simp only [Bool.not_true, reduceCtorEq, if_false]
    split
    · rfl
    · simp only [result_bind, result_pure]

/-- What an expression stands for, before its comment is closed. -/
def lowerCore (t : Tree) : Step Text :=
  let core := unwrap i.source t
  if core.kind = .identifier ∨ core.kind = .qualifiedName then pure (core.text i.source)
  else if core.kind = .element then i.lowerElement room core
  else if t.hasMarkup then i.compose room t
  else pure (t.text i.source)

theorem result_closeComment (t : Tree) (w : Text) :
    (i.closeComment t w).result =
      .ok (if t.endsWithComment i.source then w ++ lineBreak i.source [] ++ lineIndent i.source t.span.start else w) := by
  rw [closeComment]
  split
  · simp only [result_bind, result_note, result_pure, Except.bind]
  · rfl

theorem result_lowerExpression (t : Tree) :
    (i.lowerExpression (room + 1) t).result =
      (i.lowerCore room t).result.bind fun w => (i.closeComment t w).result := by
  rw [lowerExpression, lowerCore]
  simp only
  split
  · rfl
  · split
    · exact result_bind _ _
    · split
      · exact result_bind _ _
      · rfl

/-- The value of an attribute. -/
def lowerValue (t : Tree) : Except Fault Text :=
  match t.child? .attributeValue, t.child? .interpolation with
  | some value, _ => .ok (i.attributeString value)
  | none, some braces =>
    match braces.child? .expression with
    | some e => (i.lowerExpression room e).result
    | none => .ok emptyString
  | none, none => if t.children.any (·.isToken i.source ['=']) then .ok emptyString else .ok "true".toList

theorem lowerValue_expression {t b e : Tree} (hvalue : t.child? .attributeValue = none)
    (hbraces : t.child? .interpolation = some b) (he : b.child? .expression = some e) :
    i.lowerValue room t = (i.lowerExpression room e).result := by
  rw [lowerValue, hvalue, hbraces]
  simp only [he]

theorem lowerValue_empty {t b : Tree} (hvalue : t.child? .attributeValue = none)
    (hbraces : t.child? .interpolation = some b) (he : b.child? .expression = none) :
    i.lowerValue room t = .ok emptyString := by
  rw [lowerValue, hvalue, hbraces]
  simp only [he]

theorem result_lowerAttribute (t : Tree) :
    (i.lowerAttribute (room + 1) t).result = (i.lowerValue room t).bind fun value =>
      .ok (call i.settings.builders.attr [inQuotes (((t.child? .attributeName).map (·.text i.source)).getD []), value]) := by
  rw [lowerAttribute, lowerValue]
  cases t.child? .attributeValue with
  | some value => rfl
  | none =>
    cases t.child? .interpolation with
    | some braces =>
      simp only
      cases braces.child? .expression with
      | some e => exact result_bind _ _
      | none => rfl
    | none =>
      simp only
      split <;> rfl

/-- What an item of an element's content is lowered to, if it gives a child. -/
def lowerChild (c : Tree) : Step (Option Text) :=
  match c.kind with
  | .text => pure
      ((normalizeText (c.text i.source)).map fun t => call i.settings.builders.text [inQuotes (escapeText t)])
  | .element => do
    let written ← i.lowerElement room c
    pure (some written)
  | .interpolation =>
    match c.child? .expression with
    | none => pure none
    | some e =>
      let core := unwrap i.source e
      match room with
      | 0 => i.tooDeep (if core.kind = .element then core else e)
      | room' + 1 =>
        if core.kind = .element then do
          let written ← i.lowerElement room' core
          pure (some written)
        else do
          let written ← i.lowerExpression room' e
          pure (some (call i.settings.builders.text [written]))
  | _ => pure none

section Child

variable {i room} {c : Tree}

theorem result_lowerChild_text (h : c.kind = .text) :
    (i.lowerChild room c).result = .ok
      ((normalizeText (c.text i.source)).map fun t => call i.settings.builders.text [inQuotes (escapeText t)]) := by
  rw [lowerChild, h]
  rfl

theorem result_lowerChild_element (h : c.kind = .element) :
    (i.lowerChild room c).result = (i.lowerElement room c).result.bind fun w => .ok (some w) := by
  rw [lowerChild, h]
  exact result_bind _ _

theorem result_lowerChild_empty (h : c.kind = .interpolation) (he : c.child? .expression = none) :
    (i.lowerChild room c).result = .ok none := by
  rw [lowerChild, h]
  simp only [he]
  rfl

theorem result_lowerChild_expression (h : c.kind = .interpolation) {e : Tree} (he : c.child? .expression = some e) :
    (i.lowerChild (room + 1) c).result =
      if (unwrap i.source e).kind = .element then
        (i.lowerElement room (unwrap i.source e)).result.bind fun w => .ok (some w)
      else (i.lowerExpression room e).result.bind fun w => .ok (some (call i.settings.builders.text [w])) := by
  rw [lowerChild, h]
  simp only [he]
  split <;> exact result_bind _ _

theorem result_lowerChild_other (ht : c.kind ≠ .text) (he : c.kind ≠ .element) (hi : c.kind ≠ .interpolation) :
    (i.lowerChild room c).result = .ok none := by
  unfold lowerChild
  split
  · next hk => exact absurd hk ht
  · next hk => exact absurd hk he
  · next hk => exact absurd hk hi
  · rfl

/-- How an item of an element's content comes to give a child, or none. -/
inductive Gives (i : Input) : Nat → Tree → Option Text → Prop where
  | text {room : Nat} {c : Tree} (kind : c.kind = .text) : Gives i room c
      ((normalizeText (c.text i.source)).map fun t => call i.settings.builders.text [inQuotes (escapeText t)])
  | element {room : Nat} {c : Tree} {w : Text} (kind : c.kind = .element)
      (written : (i.lowerElement room c).result = .ok w) : Gives i room c (some w)
  | empty {room : Nat} {c : Tree} (kind : c.kind = .interpolation) (inner : c.child? .expression = none) :
      Gives i room c none
  | core {room : Nat} {c e : Tree} {w : Text} (kind : c.kind = .interpolation)
      (inner : c.child? .expression = some e) (core : (unwrap i.source e).kind = .element)
      (written : (i.lowerElement room (unwrap i.source e)).result = .ok w) : Gives i (room + 1) c (some w)
  | expression {room : Nat} {c e : Tree} {w : Text} (kind : c.kind = .interpolation)
      (inner : c.child? .expression = some e) (core : (unwrap i.source e).kind ≠ .element)
      (written : (i.lowerExpression room e).result = .ok w) :
      Gives i (room + 1) c (some (call i.settings.builders.text [w]))
  | other {room : Nat} {c : Tree} (text : c.kind ≠ .text) (element : c.kind ≠ .element)
      (braces : c.kind ≠ .interpolation) : Gives i room c none

theorem gives_of_lowerChild {x : Option Text} (h : (i.lowerChild room c).result = .ok x) : Gives i room c x := by
  by_cases htext : c.kind = .text
  · rw [result_lowerChild_text htext] at h
    cases h
    exact .text htext
  by_cases helement : c.kind = .element
  · rw [result_lowerChild_element helement] at h
    obtain ⟨w, hw, h⟩ := bind_eq_ok h
    cases h
    exact .element helement hw
  by_cases hbraces : c.kind = .interpolation
  · cases he : c.child? .expression with
    | none =>
      rw [result_lowerChild_empty hbraces he] at h
      cases h
      exact .empty hbraces he
    | some e =>
      cases room with
      | zero =>
        rw [lowerChild, hbraces] at h
        simp only [he] at h
        cases h
      | succ room =>
        rw [result_lowerChild_expression hbraces he] at h
        split at h
        · next hcore =>
          obtain ⟨w, hw, h⟩ := bind_eq_ok h
          cases h
          exact .core hbraces he hcore hw
        · next hcore =>
          obtain ⟨w, hw, h⟩ := bind_eq_ok h
          cases h
          exact .expression hbraces he hcore hw
  · rw [result_lowerChild_other htext helement hbraces] at h
    cases h
    exact .other htext helement hbraces

end Child

theorem tagOf_eq_ok {i : Input} {t : Tree} {x : Tree × Text} (h : (i.tagOf t).result = .ok x) :
    openingTag? t = some x.1 ∧ tagName? i.source x.1 = some x.2 := by
  rw [tagOf] at h
  split at h
  · cases h
  · next tag htag =>
    split at h
    · cases h
    · next name hname =>
      rw [result_bind] at h
      obtain ⟨_, -, h⟩ := bind_eq_ok h
      cases h
      exact ⟨htag, (Option.filter_eq_some_iff.1 hname).1⟩

theorem result_lowerElement (t : Tree) :
    (i.lowerElement (room + 1) t).result = (i.tagOf t).result.bind fun tag =>
      (each (i.lowerAttribute room) (tag.1.children.filter (·.kind == .attribute))).result.bind fun attributes =>
        (each (i.lowerChild room) (content t)).result.bind fun children =>
          .ok (call i.settings.builders.element
            [inQuotes tag.2, listOf attributes, listOf (children.filterMap id)]) := by
  rw [lowerElement]
  refine (result_bind (i.tagOf t) _).trans (congrArg _ (funext fun tag => ?_))
  simp only [result_bind, result_note, result_pure]
  rfl

end InlineMarkup.Lowering.Input

namespace InlineMarkup

open Lowering Logged

theorem result_assemble {settings : Settings} {c : Cst} (hv : (rejectVerbatim c).result = .ok ()) :
    (assemble settings c).result =
      if c.tree.hasMarkup = false then .ok c.source
      else (each (Input.compose ⟨c.source, settings⟩ settings.maxDepth) c.tree.children).result.bind fun ws =>
        .ok (endLine c.source (assembleFrom c.source 0 (c.tree.children.zip ws))) := by
  rw [assemble, result_bind, hv]
  simp only [Except.bind]
  cases c.tree.hasMarkup with
  | false => rfl
  | true => exact result_bind _ _

theorem result_translate {doc : Document} {c : Cst} (hp : doc.parse = .ok c) (settings : Settings) :
    (doc.translate settings).result = (assemble settings c).result.mapError (Fault.report doc) := by
  unfold Document.translate
  rw [hp]
  simp only [result_bind, result_note, result_pure, result_mapError, Except.bind]
  cases (assemble settings c).result with
  | error f => rfl
  | ok output => rfl

end InlineMarkup
