import InlineMarkup.Proofs.Finished
import InlineMarkup.Proofs.Lossless
import InlineMarkup.Proofs.MarkupReading
/-!
# Proofs.MarkupLowering — written markup is translated into its builder call

Each tree of written markup is lowered to what the markup stands for (`lowerElement_tree`), as long as the text of the
markup stands where the tree says.  Together with how written markup is read this gives the translation of a document that
consists of markup (`translate_print`).
-/
namespace InlineMarkup

open Text (bytes isLayout trimEnd)

/-! ## Texts at their places -/

/-- The text stands in the source at an offset. -/
def Text.Stands (source : Text) (off : Nat) (u : Text) : Prop := ∃ pre post, source = pre ++ (u ++ post) ∧ bytes pre = off

/-- The text does not end with layout. -/
def Text.Tight (u : Text) : Prop := ∀ x, u.getLast? = some x → isLayout x = false

namespace Text.Stands

variable {source u v : Text} {off : Nat}

theorem left (h : Stands source off (u ++ v)) : Stands source off u := by
  obtain ⟨pre, post, hs, hb⟩ := h
  exact ⟨pre, v ++ post, by rw [hs, List.append_assoc], hb⟩

theorem right (h : Stands source off (u ++ v)) : Stands source (off + bytes u) v := by
  obtain ⟨pre, post, hs, hb⟩ := h
  exact ⟨pre ++ u, post, by rw [hs]; simp only [List.append_assoc], by rw [Text.bytes_append, hb]⟩

theorem text (h : Stands source off u) : (Span.mk off (off + bytes u)).text source = u := by
  obtain ⟨pre, post, hs, rfl⟩ := h
  exact Span.text_append hs rfl rfl

end Text.Stands

open Text (Stands Tight)

theorem tight_concat (u : Text) {x : Char} (hx : isLayout x = false) : Tight (u ++ [x]) := by
  intro y hy
  rw [List.getLast?_append] at hy
  cases hy
  exact hx

/-! ## Finished trees -/

namespace Markup

open InlineMarkup.Tree

variable {source u w : Text} {off : Nat} {k : Kind}

theorem finished_leaf (h : Stands source off u) (hk : k.isLeaf = true) (hu : k.keepsTrailingBlanks = true ∨ Tight u) :
    (leaf k off u).finished source = leaf k off u := by
  have hspan : trimSpan source k ⟨off, off + bytes u⟩ [] = ⟨off, off + bytes u⟩ := by
    obtain ⟨pre, post, hs, rfl⟩ := h
    by_cases hkeep : k.keepsTrailingBlanks = true
    · rw [trimSpan, if_pos hkeep]
    · have htight := hu.resolve_left hkeep
      have htrim := Text.trimEnd_of_last (w := []) htight (by simp)
      rw [List.append_nil] at htrim
      rw [trimSpan_append hs (Bool.eq_false_iff.2 hkeep), htrim]
      simp [lastStop]
  rw [leaf, finished_node, trimmedAll, hspan, if_pos hk]
  rfl

theorem lastStop_finished (off : Nat) (cs : List Tree) :
    lastStop off (trimmedAll source cs) = lastStop off (cs.map (finished source)) := by
  rw [trimmedAll_eq_map, lastStop, lastStop, List.getLast?_map, List.getLast?_map, Option.map_map, Option.map_map]
  refine congrArg (·.getD off) (congrArg (Option.map · _) (funext fun t => ?_))
  exact congrArg Span.stop (span_finished t).symm

theorem finished_inner (cs : List Tree) (h : Stands source off (u ++ w)) (hw : ∀ c ∈ w, isLayout c = true)
    (hu : Tight u) (hl : k.isLeaf = false) (hp : k ≠ .program)
    (hcs : lastStop off (cs.map (finished source)) ≤ off + bytes u) :
    (Tree.node k ⟨off, off + bytes (u ++ w)⟩ cs).finished source =
      .node k ⟨off, off + bytes u⟩ (withTokens source (off + bytes u) off (cs.map (finished source))) := by
  have hspan : trimSpan source k ⟨off, off + bytes (u ++ w)⟩ (trimmedAll source cs) = ⟨off, off + bytes u⟩ := by
    rw [← lastStop_finished] at hcs
    obtain ⟨pre, post, hs, rfl⟩ := h
    rw [trimSpan_append hs (keepsTrailingBlanks_eq_false hl hp), Text.trimEnd_of_last hu hw, Nat.max_eq_left hcs]
  rw [finished_node, hspan, if_neg (by rw [hl]; exact Bool.false_ne_true)]

theorem withTokens_single {c : Tree} {stop : Nat} (hc : c.span = ⟨off, stop⟩) : withTokens source stop off [c] = [c] := by
  rw [withTokens, withTokens, hc, tokenTrees_eq_nil (Nat.le_refl off), tokenTrees_eq_nil (Nat.le_max_right _ _)]
  rfl

/-- A node that consists of one other keeps its only child. -/
theorem finished_wrap {c : Tree} (h : Stands source off u) (hu : Tight u) (hl : k.isLeaf = false) (hp : k ≠ .program)
    (hc : (c.finished source).span = ⟨off, off + bytes u⟩) :
    (Tree.node k ⟨off, off + bytes u⟩ [c]).finished source = .node k ⟨off, off + bytes u⟩ [c.finished source] := by
  have hinner := finished_inner [c] (w := []) (by rwa [List.append_nil]) (by simp) hu hl hp
    (by simp [lastStop, hc])
  rw [List.append_nil] at hinner
  rw [hinner, List.map_singleton, withTokens_single hc]

theorem finished_root {c : Tree} {s : Span} (hc : (c.finished source).span = s) :
    (Tree.node .program s [c]).finished source = .node .program s [c.finished source] := by
  have hspan : trimSpan source .program s (trimmedAll source [c]) = s := by rw [trimSpan, if_pos (by decide)]
  rw [finished_node, hspan, if_neg (by decide), List.map_singleton, withTokens_single hc]

/-! ## Names -/

theorem not_layout {f : Char → Bool} (hf : [' ', '\t', '\r', '\n'].all (!f ·) = true) (c : Char) (hc : f c = true) :
    isLayout c = false := by
  refine Bool.eq_false_iff.2 fun hl => ?_
  have hmem : c ∈ [' ', '\t', '\r', '\n'] := by
    simpa [Text.isLayout, Text.isIndent, or_assoc] using hl
  have := List.all_eq_true.1 hf c hmem
  rw [hc] at this
  cases this

theorem tight_word {f g : Char → Bool} (hf : [' ', '\t', '\r', '\n'].all (!f ·) = true)
    (hg : [' ', '\t', '\r', '\n'].all (!g ·) = true) {u : Text} (hu : isWord f g u = true) : Tight u := by
  cases u with
  | nil => cases hu
  | cons x u =>
    obtain ⟨hx, hall⟩ := Bool.and_eq_true_iff.1 hu
    intro y hy
    rcases List.mem_cons.1 (List.mem_of_getLast? hy) with rfl | hmem
    · exact not_layout hf y hx
    · exact not_layout hg y (List.all_eq_true.1 hall y hmem)

theorem tight_identifier (x : Identifier) : Tight x.1 :=
  tight_word (by decide) (by decide) (Bool.and_eq_true_iff.1 x.2).1

theorem tight_tagName (t : TagName) : Tight t.1 := tight_word (by decide) (by decide) t.2

theorem tight_attributeName (a : AttributeName) : Tight a.1 := tight_word (by decide) (by decide) a.2

theorem finished_name (x : Identifier) (h : Stands source off x.1) :
    (nameTree off x.1).finished source = nameTree off x.1 := by
  have hx := tight_identifier x
  have hleaf : (leaf .identifier off x.1).finished source = leaf .identifier off x.1 :=
    finished_leaf h rfl (.inr hx)
  have hpostfixed := finished_wrap (k := .postfixed) h hx rfl (by decide) (by rw [hleaf]; rfl)
  have hunary := finished_wrap (k := .unary) h hx rfl (by decide) (by rw [hpostfixed]; rfl)
  have hexpression := finished_wrap (k := .expression) h hx rfl (by decide) (by rw [hunary]; rfl)
  rw [nameTree, hexpression, hunary, hpostfixed, hleaf]

/-! ## Attributes -/

open Lowering Lowering.Input

variable {i : Input} {room : Nat}

theorem lowerExpression_name (x : Identifier) (h : Stands i.source off x.1) :
    (i.lowerExpression (room + 1) (nameTree off x.1)).result = .ok x.1 := by
  have hunwrap : unwrap i.source (nameTree off x.1) = leaf .identifier off x.1 := rfl
  have hends : (nameTree off x.1).endsWithComment i.source = false := rfl
  have hcore : (i.lowerCore room (nameTree off x.1)).result = .ok x.1 := by
    rw [lowerCore]
    simp only [hunwrap]
    rw [if_pos (.inl rfl)]
    exact congrArg Except.ok h.text
  rw [result_lowerExpression, hcore]
  show (i.closeComment _ _).result = _
  rw [result_closeComment, hends]
  rfl

theorem finished_quoted (t : QuotedText) (h : Stands source off (['"'] ++ t.1 ++ ['"'])) :
    ((Tree.node .attributeValue ⟨off, off + bytes ['"'] + bytes t.1 + bytes ['"']⟩
      [leaf .attributeContent (off + bytes ['"']) t.1]).finished source).text source = ['"'] ++ t.1 ++ ['"'] := by
  have hleaf : (leaf .attributeContent (off + bytes ['"']) t.1).finished source = _ :=
    finished_leaf h.left.right rfl (.inl rfl)
  have hspan : off + bytes ['"'] + bytes t.1 + bytes ['"'] = off + bytes (['"'] ++ t.1 ++ ['"'] ++ []) := by
    simp only [Text.bytes_append, Text.bytes_nil, Nat.add_assoc, Nat.add_zero]
  rw [hspan, finished_inner _ (by rwa [List.append_nil]) (by simp) (tight_concat _ (by decide)) rfl (by decide)]
  · exact h.text
  · rw [List.map_singleton, hleaf]
    simp only [lastStop, List.getLast?_singleton, Option.map_some, Option.getD_some, leaf, Tree.span, Text.bytes_append]
    omega

theorem stop_open (a : Attribute) (ho : a.value.isOpen = true) (as : List Attribute)
    (h : Stands source off (a.print ++ printAttributes as)) :
    ∃ w, a.stop off as = off + bytes (a.print ++ w) ∧ Stands source off (a.print ++ w) ∧
      ∀ c ∈ w, isLayout c = true := by
  rw [Attribute.stop, if_pos ho]
  cases as with
  | nil => exact ⟨[], by simp [attributesStart], by rw [List.append_nil]; exact h.left, by simp⟩
  | cons a' as =>
    rw [printAttributes, List.append_assoc, ← List.append_assoc] at h
    exact ⟨[' '], by simp [attributesStart, Nat.add_assoc], h.left, by simp [Text.isLayout, Text.isIndent]⟩

/-- An attribute without a value has its name for a child, and perhaps a token for the equals sign. -/
theorem children_open (a : Attribute) (ho : a.value.isOpen = true) (as : List Attribute)
    (h : Stands source off (a.print ++ printAttributes as)) :
    ((a.tree off as).finished source).children =
      leaf .attributeName off a.name.1 :: tokenTrees source (off + bytes a.name.1) (off + bytes a.print) := by
  have hname : Stands source off a.name.1 := h.left.left
  have hleaf : (leaf .attributeName off a.name.1).finished source = leaf .attributeName off a.name.1 :=
    finished_leaf hname rfl (.inr (tight_attributeName a.name))
  have htrees : a.value.trees (off + bytes a.name.1 + bytes ['=']) = [] := by
    cases hv : a.value with
    | bare => rfl
    | missing => rfl
    | _ => rw [hv] at ho; cases ho
  have htight : Tight a.print := by
    rw [Attribute.print]
    cases hv : a.value with
    | bare => simpa [Value.print] using tight_attributeName a.name
    | missing => exact tight_concat _ (by decide)
    | _ => rw [hv] at ho; cases ho
  have hle : off + bytes a.name.1 ≤ off + bytes a.print := by
    rw [Attribute.print, Text.bytes_append]
    omega
  obtain ⟨w, hstop, hstands, hw⟩ := stop_open a ho as h
  rw [Attribute.tree, htrees, hstop, finished_inner _ hstands hw htight rfl (by decide), List.map_singleton, hleaf]
  · show withTokens _ _ _ _ = _
    rw [withTokens, withTokens, leaf, Tree.span, tokenTrees_eq_nil (Nat.le_refl off), Nat.max_eq_right (Nat.le_add_right _ _)]
    rfl
  · rw [List.map_singleton, hleaf]
    exact hle

theorem any_equals (h : Stands source off ['=']) :
    (tokenTrees source off (off + bytes ['='])).any (·.isToken source ['=']) = true := by
  have hclass : GapClass.of '=' = .symbol := by decide
  have hlt : off < off + bytes ['='] := by simp [Char.utf8Size_pos]
  have htext := h.text
  obtain ⟨pre, post, hs, rfl⟩ := h
  have htokens : gapTokens source (bytes pre) (bytes pre + bytes ['=']) = [⟨bytes pre, bytes pre + bytes ['=']⟩] := by
    rw [gapTokens, if_pos hlt, hs, Text.slice?_append]
    simp [splitTokens, splitFrom, hclass, GapClass.opens]
  rw [tokenTrees, htokens, List.map_singleton, List.any_cons, Tree.isToken, Tree.text, Tree.span, htext]
  rfl

theorem lowerValue_tree (a : Attribute) (as : List Attribute) (h : Stands i.source off (a.print ++ printAttributes as)) :
    i.lowerValue (room + 1) ((a.tree off as).finished i.source) = .ok a.value.argument := by
  have hopen := fun ho => children_open a ho as h
  obtain ⟨name, value⟩ := a
  have hvalue : Stands i.source (off + bytes name.1) value.print := h.left.right
  cases value with
  | quoted t =>
    rw [lowerValue, child?_finished (by decide), child?_finished (by decide)]
    have htext := finished_quoted t hvalue.right
    show Except.ok (i.attributeString (Tree.finished _ _)) = _
    rw [attributeString, htext]
    rfl
  | braces =>
    refine lowerValue_empty i _ (b := (bracesTree (off + bytes name.1 + bytes ['='])).finished i.source) ?_ ?_ ?_ <;>
      (rw [child?_finished (by decide)]; rfl)
  | name x =>
    have hx : Stands i.source (off + bytes name.1 + bytes ['='] + bytes ['\x7b']) x.1 := hvalue.right.left.right
    rw [lowerValue_expression i _ (b := (inBracesTree (off + bytes name.1 + bytes ['=']) x.1).finished i.source)
      (e := (nameTree (off + bytes name.1 + bytes ['='] + bytes ['\x7b']) x.1).finished i.source), finished_name x hx]
    · exact lowerExpression_name x hx
    · rw [child?_finished (by decide)]; rfl
    · rw [child?_finished (by decide)]; rfl
    · rw [child?_finished (by decide)]; rfl
  | bare =>
    rw [lowerValue, child?_finished (by decide), child?_finished (by decide)]
    show (if _ then _ else _) = _
    rw [hopen rfl, tokenTrees_eq_nil (by simp [Attribute.print, Value.print])]
    rfl
  | missing =>
    rw [lowerValue, child?_finished (by decide), child?_finished (by decide)]
    show (if _ then _ else _) = _
    rw [hopen rfl, Attribute.print, Text.bytes_append, ← Nat.add_assoc, List.any_cons]
    show (if (_ || List.any (tokenTrees i.source _ (_ + bytes ['='])) _) = true then _ else _) = _
    rw [any_equals hvalue, Bool.or_true]
    rfl

theorem lowerAttribute_tree (a : Attribute) (as : List Attribute)
    (h : Stands i.source off (a.print ++ printAttributes as)) :
    (i.lowerAttribute (room + 2) ((a.tree off as).finished i.source)).result = .ok (a.call i.settings.builders) := by
  have hleaf : (leaf .attributeName off a.name.1).finished i.source = leaf .attributeName off a.name.1 :=
    finished_leaf h.left.left rfl (.inr (tight_attributeName a.name))
  have hname : ((a.tree off as).finished i.source).child? .attributeName = some (leaf .attributeName off a.name.1) := by
    rw [child?_finished (by decide)]
    exact congrArg some hleaf
  have htext : (leaf .attributeName off a.name.1).text i.source = a.name.1 := Stands.text h.left.left
  rw [result_lowerAttribute, lowerValue_tree a as h, hname, Option.map_some, htext]
  rfl

theorem lowerAttributes (room : Nat) : ∀ (as : List Attribute) (off : Nat), Stands i.source off (printAttributes as) →
    List.Forall₂ (fun t w => (i.lowerAttribute (room + 2) t).result = .ok w)
      ((attributeTrees off as).map (finished i.source)) (as.map (·.call i.settings.builders))
  | [], _, _ => .nil
  | a :: as, off, h => by
    rw [printAttributes, List.append_assoc] at h
    refine .cons (lowerAttribute_tree a as h.right) (lowerAttributes room as _ ?_)
    exact h.right.right

/-! ## The parts of an element -/

theorem kind_run (run : Option TextRun) (off : Nat) : ∀ t ∈ runTrees off run, t.kind ∈ contentKinds := by
  cases run with
  | none => simp [runTrees]
  | some run => simp [runTrees, leaf, Tree.kind, contentKinds]

theorem kind_item (item : Item) (off : Nat) : (item.tree off).kind ∈ contentKinds := by
  cases item with
  | name x => simp [Item.tree, inBracesTree, Tree.kind, contentKinds]
  | braces => simp [Item.tree, bracesTree, Tree.kind, contentKinds]
  | comment t => simp [Item.tree, leaf, Tree.kind, contentKinds]
  | element m => cases m <;> simp [Item.tree, tree, Tree.kind, contentKinds]

theorem kind_content : ∀ (c : Content) (off : Nat), ∀ t ∈ c.trees off, t.kind ∈ contentKinds
  | .last run, off, t, ht => kind_run run off t ht
  | .more run item rest, off, t, ht => by
    rw [Content.trees, List.mem_append, List.mem_cons] at ht
    rcases ht with ht | rfl | ht
    · exact kind_run run off t ht
    · exact kind_item item _
    · exact kind_content rest _ t ht

theorem parts_single (tag : TagName) (as : List Attribute) (off : Nat) :
    Parts ((Markup.single tag as).tree off) (tagTree .elementSelfClosing off tag as ['/', '>']) [] none := by
  refine ⟨rfl, .inr rfl, ?_, ?_⟩ <;> simp

theorem parts_pair (tag : TagName) (as : List Attribute) (content : Content) (off : Nat) :
    ∃ inside, inside = off + bytes ['<'] + bytes tag.1 + bytes (printAttributes as) + bytes ['>'] ∧
      Parts ((Markup.pair tag as content).tree off) (tagTree .elementOpening off tag as ['>'])
        (content.trees inside) (some (closingTree (inside + bytes content.print) tag)) := by
  refine ⟨_, rfl, ⟨?_, .inl rfl, kind_content content _, ?_⟩⟩
  · have hinner : ∀ t ∈ content.trees (off + bytes ['<'] + bytes tag.1 + bytes (printAttributes as) + bytes ['>']),
        t.kind.isPart = true := by
      intro t ht
      have := kind_content content _ t ht
      revert this
      cases t.kind <;> decide
    rw [tree, parts, Tree.children, List.filter_cons_of_pos (by rfl), List.filter_append, List.filter_eq_self.2 hinner]
    rfl
  · rintro c ⟨⟩
    rfl

theorem name_of_tag {t : Tree} {tag : TagName} (h : Stands source off tag.1)
    (ht : t.child? .tagName = some (leaf .tagName off tag.1)) : tagName? source (t.finished source) = some tag.1 := by
  have hleaf : (leaf .tagName off tag.1).finished source = leaf .tagName off tag.1 :=
    finished_leaf h rfl (.inr (tight_tagName tag))
  rw [tagName?, child?_finished (by decide), ht, Option.map_some, hleaf]
  exact congrArg some h.text

theorem tagName_ne_nil (tag : TagName) : tag.1 ≠ [] := by
  obtain ⟨x, v, hx, -⟩ := Grammar.isWord_head tag.2
  rw [hx]
  exact List.cons_ne_nil x v

/-! ## Elements -/

theorem lowerRun (room : Nat) (run : Option TextRun) (h : Stands i.source off (printRun run)) :
    ∃ xs, List.Forall₂ (fun t x => (i.lowerChild room t).result = .ok x) ((runTrees off run).map (finished i.source)) xs ∧
      xs.filterMap id = runCalls i.settings.builders run := by
  cases run with
  | none => exact ⟨[], .nil, rfl⟩
  | some run =>
    have hleaf : (leaf .text off run.1).finished i.source = leaf .text off run.1 := finished_leaf h rfl (.inl rfl)
    have htext : (leaf .text off run.1).text i.source = run.1 := h.text
    refine ⟨[(normalizeText run.1).map fun t => Input.call i.settings.builders.text [inQuotes (escapeText t)]], ?_, ?_⟩
    · rw [runTrees, List.map_singleton, hleaf]
      refine .cons ?_ .nil
      rw [result_lowerChild_text rfl, htext]
    · rw [runCalls]
      cases normalizeText run.1 <;> rfl

theorem attributes_of_tag (k : Kind) (tag : TagName) (as : List Attribute) (close : Text) :
    ((tagTree k off tag as close).finished source).children.filter (·.kind == .attribute) =
      (attributeTrees (off + bytes ['<'] + bytes tag.1) as).map (finished source) := by
  have hkind : ∀ (as : List Attribute) (off : Nat), ∀ t ∈ attributeTrees off as, (t.kind == .attribute) = true := by
    intro as
    induction as with
    | nil => simp [attributeTrees]
    | cons a as ih =>
      intro off t ht
      rcases List.mem_cons.1 ht with rfl | ht
      · rfl
      · exact ih _ t ht
  rw [filter_kind_finished (q := (· == .attribute)) rfl, tagTree, Tree.children, List.filter_cons_of_neg (by simp [leaf, Tree.kind]),
    List.filter_eq_self.2 (hkind as _)]

/-- An element whose tags agree, from its attributes and its content. -/
theorem lowerElement_of_parts {t tag : Tree} {inner : List Tree} {closing : Option Tree} (hparts : Parts t tag inner closing)
    {name : Text} (htag : (i.tagOf t).result = .ok (tag, name)) {as : List Text}
    (hattributes : List.Forall₂ (fun a w => (i.lowerAttribute room a).result = .ok w)
      (tag.children.filter (·.kind == .attribute)) as)
    {xs : List (Option Text)} (hinner : List.Forall₂ (fun c x => (i.lowerChild room c).result = .ok x) inner xs) :
    (i.lowerElement (room + 1) t).result =
      .ok (Input.call i.settings.builders.element [inQuotes name, listOf as, listOf (xs.filterMap id)]) := by
  obtain ⟨ys, hys, hsame⟩ := each_children (content t) (by rw [hparts.content]; exact hinner)
  rw [result_lowerElement, htag, ← hsame]
  show (Logged.each (i.lowerAttribute room) _).result.bind _ = _
  rw [Logged.result_each_eq_ok.2 hattributes]
  show (Logged.each (i.lowerChild room) _).result.bind _ = _
  rw [hys]
  rfl

mutual

/-- **The tree of written markup is lowered to its builder call.** -/
theorem lowerElement_tree : ∀ (m : Markup) (off room : Nat), Stands i.source off m.print → m.depth + 2 ≤ room →
    (i.lowerElement room ((m.tree off).finished i.source)).result = .ok (m.call i.settings.builders)
  | .single tag as, off, 0, _, hroom => by omega
  | .single tag as, off, room + 1, h, hroom => by
    rw [depth] at hroom
    obtain ⟨room, rfl⟩ := Nat.exists_eq_add_of_le' (show 2 ≤ room by omega)
    rw [print, List.append_assoc, List.append_assoc] at h
    have hparts := (parts_single tag as off).finished i.source
    have htag : (i.tagOf (((Markup.single tag as).tree off).finished i.source)).result =
        .ok ((tagTree .elementSelfClosing off tag as ['/', '>']).finished i.source, tag.1) :=
      hparts.tagOf_eq_ok (name_of_tag h.right.left rfl) (tagName_ne_nil tag) (.inl (kind_finished _))
    have hattributes := lowerAttributes room as _ h.right.right.left
    rw [← attributes_of_tag] at hattributes
    exact lowerElement_of_parts hparts htag hattributes .nil
  | .pair tag as content, off, 0, _, hroom => by omega
  | .pair tag as content, off, room + 1, h, hroom => by
    rw [depth] at hroom
    obtain ⟨room, rfl⟩ := Nat.exists_eq_add_of_le' (show 2 ≤ room by omega)
    obtain ⟨inside, rfl, hparts⟩ := parts_pair tag as content off
    replace hparts := hparts.finished i.source
    rw [print] at h
    simp only [List.append_assoc] at h
    have hclosing : tagName? i.source (Tree.finished i.source (closingTree _ tag)) = some tag.1 :=
      name_of_tag h.right.right.right.right.right.right.left rfl
    have htag : (i.tagOf (((Markup.pair tag as content).tree off).finished i.source)).result =
        .ok ((tagTree .elementOpening off tag as ['>']).finished i.source, tag.1) :=
      hparts.tagOf_eq_ok (name_of_tag h.right.left rfl) (tagName_ne_nil tag) (.inr ⟨_, rfl, hclosing⟩)
    have hattributes := lowerAttributes room as _ h.right.right.left
    rw [← attributes_of_tag] at hattributes
    obtain ⟨xs, hxs, hcalls⟩ := lowerContent content _ (room + 2) h.right.right.right.right.left (by omega)
    have := lowerElement_of_parts hparts htag hattributes hxs
    rw [hcalls] at this
    exact this

theorem lowerContent : ∀ (c : Content) (off room : Nat), Stands i.source off c.print → c.depth + 2 ≤ room →
    ∃ xs, List.Forall₂ (fun t x => (i.lowerChild room t).result = .ok x) ((c.trees off).map (finished i.source)) xs ∧
      xs.filterMap id = c.calls i.settings.builders
  | .last run, off, room, h, _ => lowerRun room run h
  | .more run item rest, off, room, h, hroom => by
    rw [Content.depth] at hroom
    rw [Content.print, List.append_assoc] at h
    obtain ⟨xs, hxs, hcalls⟩ := lowerRun room run h.left
    obtain ⟨x, hx, hcall⟩ := lowerItem item _ room h.right.left (by omega)
    obtain ⟨ys, hys, hmore⟩ := lowerContent rest _ room h.right.right (by omega)
    refine ⟨xs ++ x :: ys, ?_, ?_⟩
    · rw [Content.trees, List.map_append, List.map_cons]
      exact List.rel_append hxs (.cons hx hys)
    · rw [Content.calls, List.filterMap_append, List.filterMap_cons, hcalls, hmore, ← hcall]
      cases x <;> simp

theorem lowerItem : ∀ (item : Item) (off room : Nat), Stands i.source off item.print → item.depth + 2 ≤ room →
    ∃ x, (i.lowerChild room ((item.tree off).finished i.source)).result = .ok x ∧
      x.toList = item.calls i.settings.builders
  | .name x, off, 0, _, hroom | .name x, off, 1, _, hroom => by omega
  | .name x, off, room + 2, h, _ => by
    have hx : Stands i.source (off + bytes ['\x7b']) x.1 := h.left.right
    refine ⟨some (Input.call i.settings.builders.text [x.1]), ?_, rfl⟩
    have hchild : ((inBracesTree off x.1).finished i.source).child? .expression = some (nameTree (off + bytes ['\x7b']) x.1) := by
      rw [child?_finished (by decide)]
      exact congrArg some (finished_name x hx)
    have hcore : (unwrap i.source (nameTree (off + bytes ['\x7b']) x.1)).kind ≠ .element := by
      show Kind.identifier ≠ .element
      decide
    rw [Item.tree, result_lowerChild_expression (kind_finished _) hchild, if_neg hcore, lowerExpression_name x hx]
    rfl
  | .braces, off, room, h, _ => by
    refine ⟨none, result_lowerChild_empty (kind_finished _) ?_, rfl⟩
    rw [child?_finished (by decide)]
    rfl
  | .comment t, off, room, h, _ => by
    refine ⟨none, result_lowerChild_other ?_ ?_ ?_, rfl⟩ <;> rw [kind_finished] <;> exact nofun
  | .element m, off, room, h, hroom => by
    have hkind : (m.tree off).kind = .element := by cases m <;> rfl
    refine ⟨some (m.call i.settings.builders), ?_, rfl⟩
    rw [Item.tree, result_lowerChild_element (by rw [kind_finished, hkind]), lowerElement_tree m off room h hroom]
    rfl

end

/-! ## Trees without verbatim code -/

/-- No node of the tree is copied as it stands. -/
def Composed (t : Tree) : Prop := ∀ u ∈ t.nodes, u.kind.isVerbatim = false

theorem composed_node {k : Kind} {s : Span} {cs : List Tree} (hk : k.isVerbatim = false) (hcs : ∀ c ∈ cs, Composed c) :
    Composed (.node k s cs) := by
  intro u hu
  rcases mem_nodes_iff.1 hu with rfl | ⟨c, hc, hu⟩
  · exact hk
  · exact hcs c hc u hu

theorem composed_leaf {k : Kind} (hk : k.isVerbatim = false) (off : Nat) (u : Text) : Composed (leaf k off u) :=
  composed_node hk (by simp)

theorem composed_finished {t : Tree} (h : Composed t) : Composed (t.finished source) := by
  intro u hu
  rcases mem_nodes_finished hu with htoken | ⟨v, hv, rfl⟩
  · rw [htoken.kind]
    rfl
  · rw [kind_finished]
    exact h v hv

theorem composed_name (off : Nat) (x : Text) : Composed (nameTree off x) := by
  refine composed_node rfl (List.forall_mem_singleton.2 (composed_node rfl (List.forall_mem_singleton.2 ?_)))
  exact composed_node rfl (List.forall_mem_singleton.2 (composed_leaf rfl off x))

theorem composed_attributes : ∀ (as : List Attribute) (off : Nat), ∀ t ∈ attributeTrees off as, Composed t
  | [], off, t, ht => by cases ht
  | a :: as, off, t, ht => by
    rcases List.mem_cons.1 ht with rfl | ht
    · refine composed_node rfl (List.forall_mem_cons.2 ⟨composed_leaf rfl _ _, ?_⟩)
      cases a.value with
      | bare => exact fun c hc => by cases hc
      | missing => exact fun c hc => by cases hc
      | braces => exact List.forall_mem_singleton.2 (composed_node rfl (by simp))
      | quoted t => exact List.forall_mem_singleton.2 (composed_node rfl (List.forall_mem_singleton.2 (composed_leaf rfl _ _)))
      | name x => exact List.forall_mem_singleton.2 (composed_node rfl (List.forall_mem_singleton.2 (composed_name _ _)))
    · exact composed_attributes as _ t ht

theorem composed_tag {k : Kind} (hk : k.isVerbatim = false) (tag : TagName) (as : List Attribute) (close : Text) :
    Composed (tagTree k off tag as close) :=
  composed_node hk (List.forall_mem_cons.2 ⟨composed_leaf rfl _ _, composed_attributes as _⟩)

theorem composed_run (run : Option TextRun) : ∀ t ∈ runTrees off run, Composed t := by
  cases run with
  | none => exact fun c hc => by cases hc
  | some run => exact List.forall_mem_singleton.2 (composed_leaf rfl _ _)

mutual

theorem composed_tree : ∀ (m : Markup) (off : Nat), Composed (m.tree off)
  | .single tag as, off => composed_node rfl (List.forall_mem_singleton.2 (composed_tag rfl tag as _))
  | .pair tag as content, off => by
    refine composed_node rfl (List.forall_mem_cons.2 ⟨composed_tag rfl tag as _, List.forall_mem_append.2 ⟨?_, ?_⟩⟩)
    · exact composed_trees content _
    · exact List.forall_mem_singleton.2 (composed_node rfl (List.forall_mem_singleton.2 (composed_leaf rfl _ _)))

theorem composed_trees : ∀ (c : Content) (off : Nat), ∀ t ∈ c.trees off, Composed t
  | .last run, off => composed_run run
  | .more run item rest, off => by
    refine List.forall_mem_append.2 ⟨composed_run run, List.forall_mem_cons.2 ⟨?_, composed_trees rest _⟩⟩
    exact composed_item item _

theorem composed_item : ∀ (item : Item) (off : Nat), Composed (item.tree off)
  | .name x, off => composed_node rfl (List.forall_mem_singleton.2 (composed_name _ _))
  | .braces, off => composed_node rfl (by simp)
  | .comment t, off => composed_leaf rfl off _
  | .element m, off => composed_tree m off

end

/-! ## Documents of written markup -/

open Grammar (asStatement statementTree)

theorem tight_print (m : Markup) : Tight m.print := by
  cases m with
  | single tag as =>
    rw [print, show (['/', '>'] : Text) = ['/'] ++ ['>'] from rfl, ← List.append_assoc]
    exact tight_concat _ (by decide)
  | pair tag as content =>
    rw [print, ← List.append_assoc]
    exact tight_concat _ (by decide)

theorem kind_tree (m : Markup) (off : Nat) : (m.tree off).kind = .element := by
  cases m with
  | single tag as => rfl
  | pair tag as content => rfl

theorem span_tree (m : Markup) (off : Nat) : (m.tree off).span = ⟨off, off + bytes m.print⟩ := by
  cases m with
  | single tag as => rfl
  | pair tag as content => rfl

theorem parse_print (name : String) (m : Markup) : ∃ inner,
    (Document.mk name m.print).parse = .ok (Cst.ofParse m.print (.node .program 0 (bytes m.print) inner)) ∧
      namedAll inner = [statementTree m] ∧ SpreadAll parsedGaps 0 m.print [statementTree m] := by
  obtain ⟨ps, heval, hnamed⟩ := Grammar.reads_document m
  obtain ⟨c, xs, a, hparse, hxs⟩ | ⟨a, -, hxs⟩ := Grammar.Outcome.result?_cases (Grammar.parseDocument_of_eval heval)
  · cases hxs
    cases ps with
    | nil => cases hnamed
    | cons p ps =>
      obtain ⟨inner, rfl, hlaid, hfirm⟩ := parseDocument_matched hparse
      have hinner : namedAll inner = [statementTree m] := by
        rw [namedAll, named] at hnamed
        exact (Tree.node.inj (List.cons.inj hnamed).1).2.2
      refine ⟨inner, ?_, hinner, hinner ▸ spreadAll_top hlaid hfirm⟩
      unfold Document.parse
      rw [hparse]
  · cases hxs

/-- The element keeps its place when the tree of the document is finished. -/
theorem span_finished_tree {m : Markup} (h : SpreadAll parsedGaps 0 m.print [statementTree m]) :
    ((m.tree 0).finished m.print).span = ⟨0, bytes m.print⟩ := by
  have hmem : m.tree 0 ∈ nodesAll [statementTree m] := by
    simp [statementTree, asStatement, nodesAll, nodes, mem_nodes_self]
  obtain ⟨pre, u, post, hsrc, hu⟩ := h.below hmem
  have hspan := hu.span
  rw [span_tree] at hspan
  have hbytes := congrArg bytes hsrc
  simp only [Span.mk.injEq, Text.bytes_append] at hspan hbytes
  obtain rfl : pre = [] := Text.bytes_eq_zero.1 (by omega)
  obtain rfl : post = [] := Text.bytes_eq_zero.1 (by omega)
  obtain ⟨v, w, hvw, hw, hv⟩ := spread_trimmed m.print _ [] u [] hsrc hu
  rw [List.nil_append, List.append_nil] at hsrc
  have hnil : w = [] := by
    rw [← hsrc] at hvw
    cases hr : w.getLast? with
    | none => exact List.getLast?_eq_none_iff.1 hr
    | some x =>
      have hx : m.print.getLast? = some x := by rw [hvw, List.getLast?_append, hr]; rfl
      have := hw x (List.mem_of_getLast? hr)
      rw [tight_print m x hx] at this
      cases this
  rw [span_finished, hv.span, hsrc, hvw, hnil, List.append_nil, Text.bytes_nil, Nat.zero_add]

theorem tree_print {m : Markup} {inner : List (Grammar.Parse Grammar.Rule)}
    (hinner : namedAll inner = [statementTree m]) (hspread : SpreadAll parsedGaps 0 m.print [statementTree m]) :
    (Cst.ofParse m.print (.node .program 0 (bytes m.print) inner)).tree =
      .node .program ⟨0, bytes m.print⟩ [asStatement ⟨0, bytes m.print⟩ ((m.tree 0).finished m.print)] := by
  have hstands : Stands m.print 0 m.print := ⟨[], [], by simp, rfl⟩
  have htight := tight_print m
  have hzero : (⟨0, bytes m.print⟩ : Span) = ⟨0, 0 + bytes m.print⟩ := by rw [Nat.zero_add]
  have hspan := span_finished_tree hspread
  rw [hzero] at hspan
  have hpostfixed := finished_wrap (k := .postfixed) hstands htight rfl (by decide) hspan
  have hunary := finished_wrap (k := .unary) hstands htight rfl (by decide) (by rw [hpostfixed]; rfl)
  have hexpression := finished_wrap (k := .expression) hstands htight rfl (by decide) (by rw [hunary]; rfl)
  have hstatement := finished_wrap (k := .exprStatement) hstands htight rfl (by decide) (by rw [hexpression]; rfl)
  rw [tree_ofParse, Tree.ofParse, hinner]
  show Tree.finished m.print (.node .program _ [statementTree m]) = _
  rw [statementTree, asStatement, asStatement, hzero, finished_root (by rw [hstatement]; rfl), hstatement, hexpression,
    hunary, hpostfixed]

/-- **The tree of written markup.**  The element is the only statement of the document. -/
theorem exists_tree_print (name : String) (m : Markup) : ∃ c, (Document.mk name m.print).parse = .ok c ∧
    c.tree = .node .program ⟨0, bytes m.print⟩ [asStatement ⟨0, bytes m.print⟩ ((m.tree 0).finished m.print)] := by
  obtain ⟨inner, hparse, hinner, hspread⟩ := parse_print name m
  exact ⟨_, hparse, tree_print hinner hspread⟩

theorem hasMarkup_wrap {s : Span} {c : Tree} (hc : c.hasMarkup = true) : (Tree.node k s [c]).hasMarkup = true := by
  simp [hasMarkup, anyMarkup, hc]

theorem hasMarkup_element {t : Tree} (h : t.kind = .element) : t.hasMarkup = true := by
  obtain ⟨k, s, cs⟩ := t
  obtain rfl : k = .element := h
  rfl

theorem hasMarkup_statement {s : Span} {t : Tree} (h : t.kind = .element) : (asStatement s t).hasMarkup = true :=
  hasMarkup_wrap (hasMarkup_wrap (hasMarkup_wrap (hasMarkup_wrap (hasMarkup_element h))))

/-- A node with one child is composed as its child is. -/
theorem compose_wrap {s : Span} {c : Tree} (hc : c.hasMarkup = true) (hk : k ≠ .element) {w : Text}
    (hw : (i.compose room c).result = .ok w) : (i.compose (room + 1) (.node k s [c])).result = .ok w := by
  rw [result_compose, hasMarkup_wrap hc, if_neg nofun, if_neg (by exact hk)]
  show (Logged.each _ [c]).result.bind _ = _
  rw [Logged.result_each_eq_ok.2 (.cons hw .nil)]
  exact congrArg Except.ok (List.append_nil w)

theorem compose_statement (m : Markup) (h : Stands i.source 0 m.print) (s : Span) (hroom : m.depth + 2 ≤ room) :
    (i.compose (room + 5) (asStatement s ((m.tree 0).finished i.source))).result = .ok (m.call i.settings.builders) := by
  have helement : ((m.tree 0).finished i.source).kind = .element := by rw [kind_finished, kind_tree]
  have hmarkup := hasMarkup_element helement
  have hcompose : (i.compose (room + 1) ((m.tree 0).finished i.source)).result = .ok (m.call i.settings.builders) := by
    rw [result_compose, hmarkup, if_neg nofun, if_pos helement]
    exact lowerElement_tree m 0 room h hroom
  have hpostfixed := compose_wrap (k := .postfixed) (s := s) hmarkup (by decide) hcompose
  have hunary := compose_wrap (k := .unary) (s := s) (hasMarkup_wrap hmarkup) (by decide) hpostfixed
  have hexpression := compose_wrap (k := .expression) (s := s) (hasMarkup_wrap (hasMarkup_wrap hmarkup)) (by decide) hunary
  exact compose_wrap (hasMarkup_wrap (hasMarkup_wrap (hasMarkup_wrap hmarkup))) (by decide) hexpression

theorem composed_statement {s : Span} {t : Tree} (h : Composed t) : Composed (asStatement s t) := by
  refine composed_node rfl (List.forall_mem_singleton.2 (composed_node rfl (List.forall_mem_singleton.2 ?_)))
  refine composed_node rfl (List.forall_mem_singleton.2 (composed_node rfl (List.forall_mem_singleton.2 h)))

theorem rejectVerbatim_of_composed {doc : Document} {c : Cst} (hp : doc.parse = .ok c) (h : Composed c.tree) :
    (rejectVerbatim c).result = .ok () := by
  have hnone : c.arena.nodes.toList.findSome? (verbatimMarkup? c.source) = none := by
    refine List.findSome?_eq_none_iff.2 fun n hn => ?_
    obtain ⟨t, ht, hkind, -⟩ := parse_exists_tree hp hn
    rw [verbatimMarkup?, if_neg (by rw [← hkind, h t ht]; exact Bool.false_ne_true)]
  rw [rejectVerbatim, hnone]
  rfl

theorem endLine_call (m : Markup) (b : Builders) : endLine source (m.call b) = m.call b ++ lineBreak source [] := by
  have hlast : (m.call b).getLast? = some ')' := by
    cases m with
    | single tag as => exact List.getLast?_concat
    | pair tag as content => exact List.getLast?_concat
  rw [endLine, hlast, if_neg (by decide)]

theorem assembleFrom_whole {t : Tree} (ht : t.span = ⟨0, bytes source⟩) (w : Text) :
    assembleFrom source 0 [(t, w)] = w := by
  have hafter : Text.after? source (bytes source) = some [] := by simpa using Text.after?_append source []
  have hbefore : Text.slice? source 0 0 = some [] := by simpa using Text.slice?_append [] [] source
  rw [assembleFrom, assembleFrom, ht, hafter, hbefore]
  simp

end Markup

open Lowering Markup in
/-- **Written markup is translated into its builder call**, with a line end behind it. -/
theorem translate_print (name : String) (m : Markup) (settings : Settings) (h : m.depth + 7 ≤ settings.maxDepth) :
    ((Document.mk name m.print).translate settings).result =
      .ok (m.call settings.builders ++ lineBreak m.print []) := by
  obtain ⟨c, hparse, htree⟩ := exists_tree_print name m
  have hsource : c.source = m.print := parse_source hparse
  have helement : ((m.tree 0).finished m.print).kind = .element := by rw [Tree.kind_finished, kind_tree]
  have hcomposed : Composed c.tree := by
    rw [htree]
    exact composed_node rfl (List.forall_mem_singleton.2 (composed_statement (composed_finished (composed_tree m 0))))
  obtain ⟨room, hroom⟩ := Nat.exists_eq_add_of_le' (show 5 ≤ settings.maxDepth by omega)
  have hwritten := compose_statement (i := ⟨m.print, settings⟩) m ⟨[], [], by simp, rfl⟩ ⟨0, bytes m.print⟩
    (show m.depth + 2 ≤ room by omega)
  rw [result_translate hparse, result_assemble (rejectVerbatim_of_composed hparse hcomposed), hsource, htree,
    hasMarkup_wrap (hasMarkup_statement helement), if_neg nofun, hroom, Tree.children,
    Logged.result_each_eq_ok.2 (.cons hwritten .nil)]
  show Except.ok (endLine m.print (assembleFrom m.print 0 [(_, _)])) = _
  rw [assembleFrom_whole rfl, endLine_call]

/-- Attributes of every form, and content with text, braces, a comment and an element in it. -/
def greeting : Markup :=
  .pair ⟨"p".toList, by decide⟩
    [⟨⟨"class".toList, by decide⟩, .quoted ⟨"a b".toList, by decide⟩⟩,
      ⟨⟨"@on".toList, by decide⟩, .name ⟨"f".toList, by decide⟩⟩, ⟨⟨"x".toList, by decide⟩, .bare⟩,
      ⟨⟨"y".toList, by decide⟩, .missing⟩, ⟨⟨"z".toList, by decide⟩, .braces⟩]
    (.more (some ⟨"Hi ".toList, by decide⟩) (.name ⟨"who".toList, by decide⟩)
      (.more none .braces (.more (some ⟨" ".toList, by decide⟩) (.comment ⟨"c".toList, by decide⟩)
        (.more none (.element (.single ⟨"br".toList, by decide⟩ []))
          (.last (some ⟨"\"!".toList, by decide⟩))))))

theorem translate_print_greeting :
    greeting.depth + 7 ≤ Settings.maxDepth {} ∧
    greeting.print = "<p class=\"a b\" @on=\x7bf\x7d x y= z=\x7b\x7d>Hi \x7bwho\x7d\x7b\x7d <!--c--><br/>\"!</p>".toList ∧
    ((Document.mk "a.mbx" greeting.print).translate {}).result =
      .ok ("h(\"p\", [attr(\"class\", \"a b\"), attr(\"@on\", f), attr(\"x\", true), attr(\"y\", \"\"), " ++
        "attr(\"z\", \"\")], [text(\"Hi \"), text(who), h(\"br\", [], []), text(\"\\\"!\")])\n").toList :=
  ⟨by decide, by decide, (translate_print "a.mbx" greeting {} (by decide)).trans (by decide +kernel)⟩

end InlineMarkup
