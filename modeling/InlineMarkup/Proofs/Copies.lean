import InlineMarkup.Proofs.Cuts
import InlineMarkup.Proofs.Steps
/-!
# Proofs.Copies — which parts of the output are copied

The output consists of parts of the source, copied as they stand, and of text that lowering makes (`Patch`).  For each
step of lowering there is the list of patches that it writes; put together they are the text that the step gives
(`erases`), and so for a whole document (`texts_patches`).
-/
namespace InlineMarkup

open Text (bytes)

namespace Lowering

/-- A part of the output: the source of a span as it stands, or a text that is made. -/
inductive Patch where
  | copied (s : Span)
  | made (t : Text)
  deriving DecidableEq, Repr

namespace Patch

variable {source : Text}

def text (source : Text) : Patch → Text
  | .copied s => s.text source
  | .made t => t

/-- The span that is copied, if one is. -/
def span? : Patch → Option Span
  | .copied s => some s
  | .made _ => none

def texts (source : Text) (ps : List Patch) : Text := ps.flatMap (text source)

@[simp] theorem texts_nil : texts source [] = [] := rfl

@[simp] theorem texts_cons (p : Patch) (ps : List Patch) : texts source (p :: ps) = p.text source ++ texts source ps := rfl

@[simp] theorem texts_append (ps qs : List Patch) : texts source (ps ++ qs) = texts source ps ++ texts source qs :=
  List.flatMap_append

/-! ## The forms of builder calls -/

def joined : List (List Patch) → List Patch
  | [] => []
  | [ps] => ps
  | ps :: qs :: rest => ps ++ .made [',', ' '] :: joined (qs :: rest)

def quoted (ps : List Patch) : List Patch := .made ['"'] :: ps ++ [.made ['"']]

def called (builder : Text) (args : List (List Patch)) : List Patch :=
  .made (builder ++ ['(']) :: joined args ++ [.made [')']]

def listed (items : List (List Patch)) : List Patch := .made ['['] :: joined items ++ [.made [']']]

theorem texts_joined : ∀ pss : List (List Patch), texts source (joined pss) = Text.join [',', ' '] (pss.map (texts source))
  | [] => rfl
  | [ps] => rfl
  | ps :: qs :: rest => by
    rw [joined, texts_append, texts_cons, texts_joined (qs :: rest)]
    simp [Text.join, text]

@[simp] theorem texts_quoted (ps : List Patch) : texts source (quoted ps) = Input.inQuotes (texts source ps) := by
  simp [quoted, text, Input.inQuotes]

@[simp] theorem texts_called (builder : Text) (args : List (List Patch)) :
    texts source (called builder args) = Input.call builder (args.map (texts source)) := by
  simp [called, text, Input.call, texts_joined]

@[simp] theorem texts_listed (items : List (List Patch)) :
    texts source (listed items) = Input.listOf (items.map (texts source)) := by
  simp [listed, text, Input.listOf, texts_joined]

/-! ## The composer and the assembler -/

/-- Composed siblings, after the one before them. -/
def wovenAfter (source : Text) (previous : Tree) : List (Tree × List Patch) → List Patch
  | [] => []
  | (t, ps) :: more => .made (joint source previous t) :: (ps ++ wovenAfter source t more)

def woven (source : Text) : List (Tree × List Patch) → List Patch
  | [] => []
  | (t, ps) :: more => ps ++ wovenAfter source t more

/-- Items with the source before, between and after them, from a place on. -/
def assembled (source : Text) : Nat → List (Tree × List Patch) → List Patch
  | place, [] => [.copied ⟨place, bytes source⟩]
  | place, (t, ps) :: more => .copied ⟨place, t.span.start⟩ :: (ps ++ assembled source t.span.stop more)

theorem texts_wovenAfter : ∀ (previous : Tree) (ts : List (Tree × List Patch)),
    texts source (wovenAfter source previous ts) = weaveAfter source previous (ts.map fun x => (x.1, texts source x.2))
  | _, [] => rfl
  | previous, (t, ps) :: more => by
    simp [wovenAfter, weaveAfter, text, texts_wovenAfter t more]

theorem texts_woven (ts : List (Tree × List Patch)) :
    texts source (woven source ts) = weave source (ts.map fun x => (x.1, texts source x.2)) := by
  cases ts with
  | nil => rfl
  | cons x more => simp [woven, weave, texts_wovenAfter]

theorem slice?_end (t : Text) (n : Nat) : (Text.slice? t n (bytes t)).getD [] = (Text.after? t n).getD [] := by
  cases h : Text.after? t n with
  | none =>
    rw [Text.slice?, h]
    simp
  | some v =>
    obtain ⟨u, rfl, rfl⟩ := Text.after?_eq_some h
    have := Text.slice?_append u v []
    rw [List.append_nil] at this
    rw [Text.bytes_append, this]

theorem texts_assembled : ∀ (place : Nat) (ts : List (Tree × List Patch)),
    texts source (assembled source place ts) = assembleFrom source place (ts.map fun x => (x.1, texts source x.2))
  | place, [] => by
    rw [assembled, texts_cons, texts_nil, List.append_nil]
    exact slice?_end source place
  | place, (t, ps) :: more => by
    simp [assembled, assembleFrom, text, Span.text, texts_assembled t.span.stop more]

end Patch

open Patch

/-! ## The steps of lowering -/

/-- What the steps of lowering write for a tree. -/
structure Writers where
  compose : Tree → List Patch
  expression : Tree → List Patch
  attr : Tree → List Patch
  element : Tree → List Patch

namespace Writers

/-- A child that may be missing, copied. -/
def copiedChild (t : Tree) (k : Kind) : List Patch := (t.child? k).toList.map fun c => .copied c.span

/-- A quoted value: copied with its quotes, or made if they are single ones. -/
def string (i : Input) (value : Tree) : List Patch :=
  if (value.text i.source).head? = some '\'' then [.made (i.attributeString value)] else [.copied value.span]

/-- What closes the comment at the end of an expression. -/
def closing (i : Input) (t : Tree) : List Patch :=
  if t.endsWithComment i.source then [.made (lineBreak i.source [] ++ lineIndent i.source t.span.start)] else []

/-- What is written at depth 0, where every step fails. -/
def silent : Writers := ⟨fun _ => [], fun _ => [], fun _ => [], fun _ => []⟩

variable (i : Input) (w : Writers)

def core (t : Tree) : List Patch :=
  let core := unwrap i.source t
  if core.kind = .identifier ∨ core.kind = .qualifiedName then [.copied core.span]
  else if core.kind = .element then w.element core
  else if t.hasMarkup then w.compose t
  else [.copied t.span]

def value (t : Tree) : List Patch :=
  match t.child? .attributeValue, t.child? .interpolation with
  | some value, _ => string i value
  | none, some braces =>
    match braces.child? .expression with
    | some e => w.expression e
    | none => [.made Input.emptyString]
  | none, none =>
    [.made (if t.children.any (·.isToken i.source ['=']) then Input.emptyString else "true".toList)]

/-- An item of an element's content, if it gives a child; what stands in braces is one level further down. -/
def child (below : Writers) (c : Tree) : Option (List Patch) :=
  match c.kind with
  | .text =>
    (normalizeText (c.text i.source)).map fun t =>
      [.made (Input.call i.settings.builders.text [Input.inQuotes (escapeText t)])]
  | .element => some (w.element c)
  | .interpolation =>
    (c.child? .expression).map fun e =>
      if (unwrap i.source e).kind = .element then below.element (unwrap i.source e)
      else called i.settings.builders.text [below.expression e]
  | _ => none

/-- One more level, with what is written below it. -/
def next (below : Writers) : Writers where
  compose t :=
    if t.hasMarkup = false then [.copied t.span]
    else if t.kind = .element then w.element t
    else woven i.source (t.children.map fun c => (c, w.compose c))
  expression t := w.core i t ++ closing i t
  attr t := called i.settings.builders.attr [quoted (copiedChild t .attributeName), w.value i t]
  element t :=
    match openingTag? t with
    | none => []
    | some tag =>
      called i.settings.builders.element [quoted (copiedChild tag .tagName),
        listed ((tag.children.filter (·.kind == .attribute)).map w.attr),
        listed ((content t).filterMap (w.child i below))]

/-- What is written with so many levels to go, and what one level further down. -/
def levels : Nat → Writers × Writers
  | 0 => (silent, silent)
  | room + 1 => ((levels room).1.next i (levels room).2, (levels room).1)

end Writers

/-! ## Patches and texts -/

open Logged

/-- The patches are the text that the steps give, with so many levels to go. -/
structure Erases (i : Input) (room : Nat) (w : Writers) : Prop where
  compose : ∀ t u, (i.compose room t).result = .ok u → texts i.source (w.compose t) = u
  expression : ∀ t u, (i.lowerExpression room t).result = .ok u → texts i.source (w.expression t) = u
  attr : ∀ t u, (i.lowerAttribute room t).result = .ok u → texts i.source (w.attr t) = u
  element : ∀ t u, (i.lowerElement room t).result = .ok u → texts i.source (w.element t) = u

theorem Erases.silent (i : Input) (w : Writers) : Erases i 0 w := by
  refine ⟨?_, ?_, ?_, ?_⟩ <;> intro t u h <;> cases h

namespace Erases

variable {i : Input} {room : Nat} {w below : Writers} {t : Tree}

theorem texts_map {f : Tree → List Patch} {g : Tree → Step Text}
    (h : ∀ t u, (g t).result = .ok u → texts i.source (f t) = u) : ∀ {ts : List Tree} {us : List Text},
    (each g ts).result = .ok us → ts.map (fun t => texts i.source (f t)) = us := by
  intro ts us hus
  rw [result_each_eq_ok] at hus
  induction hus with
  | nil => rfl
  | cons hu _ ih => rw [List.map_cons, ih, h _ _ hu]

theorem core (hw : Erases i room w) {u : Text} (h : (i.lowerCore room t).result = .ok u) :
    texts i.source (w.core i t) = u := by
  rw [Input.lowerCore] at h
  rw [Writers.core]
  split at h
  · next hname =>
    rw [if_pos hname]
    cases h
    simp [Patch.text, Tree.text]
  · next hname =>
    rw [if_neg hname]
    split at h
    · next helement =>
      rw [if_pos helement]
      exact hw.element _ _ h
    · next helement =>
      rw [if_neg helement]
      split at h
      · next hmarkup =>
        rw [if_pos hmarkup]
        exact hw.compose _ _ h
      · next hmarkup =>
        rw [if_neg hmarkup]
        cases h
        simp [Patch.text, Tree.text]

theorem value (hw : Erases i room w) {u : Text} (h : i.lowerValue room t = .ok u) :
    texts i.source (w.value i t) = u := by
  cases hvalue : t.child? .attributeValue with
  | some value =>
    simp only [Input.lowerValue, hvalue] at h
    simp only [Writers.value, hvalue]
    cases h
    rw [Writers.string]
    split
    · simp [Patch.text]
    · next hquote =>
      rw [Input.attributeString]
      simp only [if_neg hquote]
      simp [Patch.text, Tree.text]
  | none =>
    cases hbraces : t.child? .interpolation with
    | some braces =>
      simp only [Input.lowerValue, hvalue, hbraces] at h
      simp only [Writers.value, hvalue, hbraces]
      cases he : braces.child? .expression with
      | some e =>
        simp only [he] at h ⊢
        exact hw.expression _ _ h
      | none =>
        simp only [he] at h ⊢
        cases h
        rfl
    | none =>
      simp only [Input.lowerValue, hvalue, hbraces] at h
      simp only [Writers.value, hvalue, hbraces]
      split at h <;> cases h <;> simp_all [Patch.text]

theorem child (hw : Erases i room w) (hbelow : ∀ r, room = r + 1 → Erases i r below) {c : Tree} {x : Option Text}
    (h : (i.lowerChild room c).result = .ok x) : (w.child i below c).map (texts i.source) = x := by
  rw [Writers.child]
  cases Input.gives_of_lowerChild h with
  | text hk =>
    rw [hk]
    simp [Function.comp_def, Patch.text]
  | element hk hu =>
    rw [hk]
    simp only [Option.map_some, hw.element _ _ hu]
  | empty hk he =>
    rw [hk]
    simp only [he]
    rfl
  | core hk he hcore hu =>
    rw [hk]
    simp only [he, Option.map_some]
    rw [if_pos hcore, (hbelow _ rfl).element _ _ hu]
  | expression hk he hcore hu =>
    rw [hk]
    simp only [he, Option.map_some]
    rw [if_neg hcore, texts_called, List.map_singleton, (hbelow _ rfl).expression _ _ hu]
  | other htext helement hbraces =>
    split
    · next hk => exact absurd hk htext
    · next hk => exact absurd hk helement
    · next hk => exact absurd hk hbraces
    · rfl

theorem children (hw : Erases i room w) (hbelow : ∀ r, room = r + 1 → Erases i r below) {cs : List Tree}
    {xs : List (Option Text)} (h : (each (i.lowerChild room) cs).result = .ok xs) :
    (cs.filterMap (w.child i below)).map (texts i.source) = xs.filterMap id := by
  rw [result_each_eq_ok] at h
  rw [List.map_filterMap]
  induction h with
  | nil => rfl
  | cons hx _ ih => rw [List.filterMap_cons, List.filterMap_cons, ih, hw.child hbelow hx]; rfl

/-- **One more level.** -/
theorem next (hw : Erases i room w) (hbelow : ∀ r, room = r + 1 → Erases i r below) :
    Erases i (room + 1) (w.next i below) where
  compose t u h := by
    rw [Input.result_compose] at h
    simp only [Writers.next]
    split at h
    · next hmarkup =>
      rw [if_pos hmarkup]
      cases h
      simp [Patch.text, Tree.text]
    · next hmarkup =>
      rw [if_neg hmarkup]
      split at h
      · next helement =>
        rw [if_pos helement]
        exact hw.element t u h
      · next helement =>
        rw [if_neg helement]
        obtain ⟨us, hus, h⟩ := bind_eq_ok h
        cases h
        rw [texts_woven, ← texts_map hw.compose hus, ← List.map_prod_left_eq_zip, List.map_map]
        rfl
  expression t u h := by
    rw [Input.result_lowerExpression] at h
    obtain ⟨v, hv, h⟩ := bind_eq_ok h
    rw [Input.result_closeComment] at h
    simp only [Writers.next, texts_append, hw.core hv, Writers.closing]
    cases h
    split
    · simp [Patch.text]
    · simp
  attr t u h := by
    rw [Input.result_lowerAttribute] at h
    obtain ⟨v, hv, h⟩ := bind_eq_ok h
    cases h
    simp only [Writers.next, texts_called, List.map_cons, List.map_nil, texts_quoted, hw.value hv, Writers.copiedChild]
    cases t.child? .attributeName with
    | none => rfl
    | some name => simp [Patch.text, Tree.text]
  element t u h := by
    rw [Input.result_lowerElement] at h
    obtain ⟨⟨tag, name⟩, htag, h⟩ := bind_eq_ok h
    obtain ⟨as, has, h⟩ := bind_eq_ok h
    obtain ⟨cs, hcs, h⟩ := bind_eq_ok h
    cases h
    obtain ⟨hopening, hname⟩ := Input.tagOf_eq_ok htag
    obtain ⟨n, hn, rfl⟩ := Option.map_eq_some_iff.1 hname
    have hattributes : (tag.children.filter (·.kind == .attribute)).map (fun t => texts i.source (w.attr t)) = as :=
      texts_map hw.attr has
    simp only [Writers.next, hopening, texts_called, List.map_cons, List.map_nil, texts_quoted, texts_listed,
      Writers.copiedChild, hn, hw.children hbelow hcs, List.map_map]
    rw [← hattributes]
    simp [Patch.text, Tree.text, Function.comp_def]

end Erases

/-- **What the steps give is what their patches are.** -/
theorem erases (i : Input) : ∀ room, Erases i room (Writers.levels i room).1 ∧
    ∀ r, room = r + 1 → Erases i r (Writers.levels i room).2
  | 0 => ⟨.silent i _, fun r h => by cases h⟩
  | room + 1 => by
    obtain ⟨hw, hbelow⟩ := erases i room
    refine ⟨hw.next hbelow, fun r h => ?_⟩
    cases h
    exact hw

end Lowering

open Lowering Logged Patch

/-- What a whole document writes. -/
def Cst.patches (settings : Settings) (c : Cst) : List Patch :=
  if c.tree.hasMarkup = false then [.copied ⟨0, bytes c.source⟩]
  else
    let w := (Writers.levels ⟨c.source, settings⟩ settings.maxDepth).1
    let ps := assembled c.source 0 (c.tree.children.map fun t => (t, w.compose t))
    if (texts c.source ps).getLast? = some '\n' then ps else ps ++ [.made (lineBreak c.source [])]

/-- **The output consists of the patches.** -/
theorem texts_patches {settings : Settings} {c : Cst} (hv : (rejectVerbatim c).result = .ok ()) {output : Text}
    (h : (assemble settings c).result = .ok output) : texts c.source (c.patches settings) = output := by
  rw [result_assemble hv] at h
  rw [Cst.patches]
  split at h
  · next hmarkup =>
    rw [if_pos hmarkup]
    cases h
    have := Text.slice?_append [] c.source []
    rw [List.append_nil, List.nil_append, Text.bytes_nil, Nat.zero_add] at this
    simp [Patch.text, Span.text, this]
  · next hmarkup =>
    rw [if_neg hmarkup]
    obtain ⟨us, hus, h⟩ := bind_eq_ok h
    cases h
    have hitems : texts c.source (assembled c.source 0 (c.tree.children.map fun t =>
        (t, (Writers.levels ⟨c.source, settings⟩ settings.maxDepth).1.compose t))) =
        assembleFrom c.source 0 (c.tree.children.zip us) := by
      rw [texts_assembled, ← Erases.texts_map (i := ⟨c.source, settings⟩) (erases _ settings.maxDepth).1.compose hus,
        ← List.map_prod_left_eq_zip, List.map_map]
      rfl
    simp only [hitems, endLine]
    split
    · rw [hitems]
    · rw [texts_append, hitems]
      simp [Patch.text]

theorem translate_patches {doc : Document} {settings : Settings} {output : Text}
    (h : (doc.translate settings).result = .ok output) :
    ∃ c, doc.parse = .ok c ∧ texts c.source (c.patches settings) = output := by
  cases hp : doc.parse with
  | error d =>
    unfold Document.translate at h
    rw [hp] at h
    cases h
  | ok c =>
    rw [result_translate hp] at h
    have hassemble := mapError_eq_ok h
    rw [assemble, result_bind] at hassemble
    obtain ⟨_, hv, -⟩ := bind_eq_ok hassemble
    exact ⟨c, rfl, texts_patches hv (mapError_eq_ok h)⟩

end InlineMarkup
