import InlineMarkup.Proofs.Lossless
import InlineMarkup.Proofs.MarkupReading
import InlineMarkup.Proofs.Masking
import InlineMarkup.Proofs.Steps
/-!
# Proofs.VerbatimMarkup — markup in code that is copied as it stands

Two readers meet in a piece of host code that is copied as it stands: the grammar, which knows elements, and the scan for
tags.  They agree on the tags that are `Legible` (`Covers.plain`), so an element that begins with such a tag fails the
document (`translate_rejects_markup`).  An element with a comparison in an attribute is copied
(`translate_copies_comparison`).
-/
namespace InlineMarkup

namespace Grammar

variable {l : Layout} {k : Look} {c c' : Cursor} {xs : List (Parse Rule)}

/-! ## Tags as the grammar reads them -/

theorem Eval.seq_ends {p q : DocExpr} (h : Eval document (.seq p q) l k c (some (c', xs))) :
    ∃ u c₁ ys, c.Past u c₁ ∧ Eval document q l k c₁ (some (c', ys)) := by
  obtain ⟨c₁, _, c₂, _, zs, hp, hs, hq, -⟩ := h.seq_parts
  obtain ⟨u, hu, -⟩ := hp.past document_bounded.empty _ rfl
  obtain ⟨v, hv, -⟩ := hs.past document_bounded.empty _ rfl
  exact ⟨u ++ v, c₂, zs, hu.trans hv, hq⟩

/-- What a tag holds behind its name. -/
def tagTail (close : Text) : DocExpr :=
  .seq (.many (.seq DocExpr.newlines (.rule .attribute))) (.seq DocExpr.newlines (.word close))

/-- The ends of tags, each with its rule. -/
def tagEnds : List (Rule × Text) := [(.selfClosingTag, ['/', '>']), (.openingTag, ['>'])]

theorem getLast?_tagEnds {r : Rule} {close : Text} (hr : (r, close) ∈ tagEnds) : close.getLast? = some '>' :=
  (by decide : ∀ p ∈ tagEnds, p.2.getLast? = some '>') _ hr

theorem Covers.tag_parts {r : Rule} {close : Text} (hr : (r, close) ∈ tagEnds) {tag : Text} (h : Covers (.rule r) tag) :
    ∃ c c' xs, c.Past tag c' ∧
      Eval document (.seq (.word ['<']) (.seq (.opt (.rule .tagName)) (tagTail close))) .spaced .here c (some (c', xs)) := by
  obtain ⟨l, c, c', xs, -, h, htag⟩ := h
  simp only [tagEnds, List.mem_cons, List.not_mem_nil, or_false, Prod.mk.injEq] at hr
  generalize ho : some (c', xs) = o at h
  cases h with
  | silent hs => rcases hr with ⟨rfl, -⟩ | ⟨rfl, -⟩ <;> cases hs
  | node _ hbody =>
    obtain ⟨m, rfl, hm⟩ := Option.map_eq_some_iff.1 ho.symm
    cases hm
    rcases hr with ⟨rfl, rfl⟩ | ⟨rfl, rfl⟩
    · exact ⟨c, m.1, m.2, htag, hbody⟩
    · exact ⟨c, m.1, m.2, htag, hbody⟩

theorem tagTail_past {close : Text} (h : Eval document (tagTail close) l k c (some (c', xs))) :
    ∃ u, c.Past (u ++ close) c' := by
  obtain ⟨u, _, _, hu, h⟩ := h.seq_ends
  obtain ⟨v, _, _, hv, h⟩ := h.seq_ends
  exact ⟨u ++ v, (hu.trans hv).trans h.word_past⟩

/-- Right before its end, a tag holds nothing more. -/
theorem tagTail_at_end {close : Text} {off : Nat} {x : Char} {rest : Text} (hx : x = '/' ∨ x = '>')
    (hc : Settled ⟨off, x :: rest⟩) (h : Eval document (tagTail close) .spaced k ⟨off, x :: rest⟩ (some (c', xs))) :
    Cursor.Past ⟨off, x :: rest⟩ close c' := by
  have hnone : ∀ {e : DocExpr} {c'} {xs}, tagEndBarrier.refuses e = true →
      Eval document (.many e) .spaced k ⟨off, x :: rest⟩ (some (c', xs)) → c' = ⟨off, x :: rest⟩ := by
    intro e c' xs he hmany
    cases hmany.unique (.manyNone (tagEndBarrier.fails he (tagEnd_has hx) hc _ _))
    rfl
  obtain ⟨_, _, _, _, _, hattributes, hs, h, -⟩ := h.seq_parts
  obtain rfl := hnone (by decide +kernel) hattributes
  cases Ready.skip_eq (fun _ => hc) hs
  obtain ⟨_, _, _, _, _, hlines, hs, hword, -⟩ := h.seq_parts
  obtain rfl := hnone (by decide +kernel) hlines
  cases Ready.skip_eq (fun _ => hc) hs
  exact hword.word_past

open Markup

/-- Before a character that no tag goes on with behind its name. -/
def tagTailBarrier : Barrier where
  chars := ⟨fun c => decide (c ∉ ['\n', '\r', '/', '>', '@']) && !isTagChar c, (· == .any)⟩
  rules := [.attribute, .attributeName]
  closed := by decide +kernel

theorem tagTail_head {r : Rule} {close : Text} (hr : (r, close) ∈ tagEnds) {off : Nat} {y : Char} {rest : Text}
    (hy : isTagChar y = false) (hc : Settled ⟨off, y :: rest⟩)
    (h : Eval document (tagTail close) l k ⟨off, y :: rest⟩ (some (c', xs))) : y ∈ ['\n', '\r', '/', '>', '@'] := by
  by_contra hnot
  have hrefused : ∀ p ∈ tagEnds, tagTailBarrier.refuses (tagTail p.2) = true := by decide +kernel
  have hname : y.isAlphanum = false := by
    simp only [isTagChar, isNameChar, Bool.or_eq_false_iff] at hy
    exact hy.1.1.1.1
  have hhas : tagTailBarrier.chars.Has y := by
    refine ⟨by simpa [tagTailBarrier, hy] using hnot, fun s hs => ?_⟩
    simp only [Char.isAlphanum, Bool.or_eq_false_iff] at hname
    cases s with
    | any => rfl
    | letter => simp [CharSet.holds, hname.1] at hs
    | digit => simp [CharSet.holds, hname.2] at hs
    | alphanumeric => simp [CharSet.holds, Char.isAlphanum, hname.1, hname.2] at hs
  cases h.unique (tagTailBarrier.fails (hrefused _ hr) hhas hc l k)

theorem Covers.getLast?_tag {r : Rule} {close : Text} (hr : (r, close) ∈ tagEnds) {tag : Text}
    (h : Covers (.rule r) tag) : tag.getLast? = some '>' := by
  obtain ⟨c, c', xs, htag, h⟩ := h.tag_parts hr
  obtain ⟨u, _, _, hu, h⟩ := h.seq_ends
  obtain ⟨v, _, _, hv, h⟩ := h.seq_ends
  obtain ⟨w, hw⟩ := tagTail_past h
  rw [htag.eq ((hu.trans hv).trans hw), List.getLast?_append, List.getLast?_append, getLast?_tagEnds hr]
  rfl

theorem tagName_past {off : Nat} {x : Char} {tail : Text} (hx : isNameStart x = true)
    (h : Eval document (.opt (.rule .tagName)) .spaced .here ⟨off, x :: tail⟩ (some (c', xs))) :
    Cursor.Past ⟨off, x :: tail⟩ (x :: tail.takeWhile isTagChar) c' ∧ ∀ y ∈ c'.rest.head?, isTagChar y = false := by
  have hword : isWord isNameStart isTagChar (x :: tail.takeWhile isTagChar) = true := by
    rw [isWord, hx, Bool.true_and]
    exact List.all_takeWhile
  have hstop : ∀ y, (tail.dropWhile isTagChar).head? = some y → isTagChar y = false := by
    intro y hy
    have hnot := List.head?_dropWhile_not isTagChar tail
    rw [hy] at hnot
    exact hnot
  obtain ⟨ps, hname, -⟩ := (reads_tagName ⟨_, hword⟩ off hstop).opt
  have hsplit : x :: tail = (x :: tail.takeWhile isTagChar) ++ tail.dropWhile isTagChar := by
    rw [List.cons_append, List.takeWhile_append_dropWhile]
  rw [hsplit] at h
  cases h.unique hname
  exact ⟨⟨hsplit, rfl⟩, hstop⟩

/-- A tag goes on behind its name with its end, layout, a comment, or an attribute whose name begins with an at sign. -/
def GoesOn (u : Text) : Prop :=
  u = ['>'] ∨ u = ['/', '>'] ∨ ∃ y rest, u = y :: rest ∧
    (Text.isLayout y = true ∨ y = '@' ∨ y = '/' ∧ rest.head? = some '/')

theorem tagTail_goesOn {r : Rule} {close : Text} (hr : (r, close) ∈ tagEnds) {ys : List (Parse Rule)} {c₁ : Cursor}
    (hs : Eval document (document.skip .spaced) .compact k c (some (c₁, ys)))
    (h : Eval document (tagTail close) .spaced k c₁ (some (c', xs))) {u : Text} (hu : c.Past u c')
    (hname : ∀ y ∈ c.rest.head?, isTagChar y = false) : GoesOn u := by
  have hlast : u.getLast? = some '>' := by
    obtain ⟨g, hg, -⟩ := hs.past document_bounded.empty _ rfl
    obtain ⟨v, hv⟩ := tagTail_past h
    rw [hu.eq (hg.trans hv), List.getLast?_append, List.getLast?_append, getLast?_tagEnds hr]
    rfl
  obtain ⟨off, tail⟩ := c
  obtain rfl : tail = u ++ c'.rest := hu.rest
  cases u with
  | nil => cases hlast
  | cons y rest =>
    by_cases hlayout : Text.isLayout y = true
    · exact .inr (.inr ⟨y, rest, rfl, .inl hlayout⟩)
    by_cases hcomment : y = '/' ∧ rest.head? = some '/'
    · exact .inr (.inr ⟨y, rest, rfl, .inr (.inr hcomment)⟩)
    have hsettled : Settled ⟨off, y :: rest ++ c'.rest⟩ := by
      by_cases hslash : y = '/'
      · subst hslash
        cases rest with
        | nil => cases hlast
        | cons z rest => exact .of_slash fun hz => hcomment ⟨rfl, by rw [hz]; rfl⟩
      · refine .of_char fun hmem => ?_
        simp only [List.mem_cons, List.not_mem_nil, or_false] at hmem
        rcases hmem with rfl | rfl | rfl
        · exact hlayout rfl
        · exact hlayout rfl
        · exact hslash rfl
    cases Ready.skip_eq (fun _ => hsettled) hs
    have hhead := tagTail_head hr (hname y rfl) hsettled h
    simp only [List.mem_cons, List.not_mem_nil, or_false] at hhead
    have hend : y = '/' ∨ y = '>' → GoesOn (y :: rest) := by
      intro hy
      rw [hu.eq (tagTail_at_end hy hsettled h)]
      simp only [tagEnds, List.mem_cons, List.not_mem_nil, or_false, Prod.mk.injEq] at hr
      rcases hr with ⟨-, rfl⟩ | ⟨-, rfl⟩
      · exact .inr (.inl rfl)
      · exact .inl rfl
    rcases hhead with rfl | rfl | rfl | rfl | rfl
    · exact absurd rfl hlayout
    · exact absurd rfl hlayout
    · exact hend (.inl rfl)
    · exact hend (.inr rfl)
    · exact .inr (.inr ⟨'@', rest, rfl, .inr (.inl rfl)⟩)

theorem Covers.tag_named {r : Rule} {close : Text} (hr : (r, close) ∈ tagEnds) {x : Char} {m : Text}
    (h : Covers (.rule r) ('<' :: x :: m)) (hx : isNameStart x = true) :
    ∃ name u, m = name ++ u ∧ (∀ z ∈ name, isTagChar z = true) ∧ GoesOn u := by
  obtain ⟨c, c', xs, htag, h⟩ := h.tag_parts hr
  obtain ⟨⟨off, tail⟩, _, c₂, _, _, hopen, hs, h, -⟩ := h.seq_parts
  have hopen := hopen.word_past
  obtain rfl : tail = x :: (m ++ c'.rest) := (List.cons.inj (hopen.rest.symm.trans htag.rest)).2
  have hsettled : Settled ⟨off, x :: (m ++ c'.rest)⟩ :=
    .of_char (not_layout_of_start (isAttributeStart_of_isNameStart hx))
  cases Ready.skip_eq (fun _ => hsettled) hs
  obtain ⟨c₃, _, c₄, _, _, hname, hs, h, -⟩ := h.seq_parts
  obtain ⟨hname, hstop⟩ := tagName_past hx hname
  obtain ⟨g, hg, -⟩ := hs.past document_bounded.empty _ rfl
  obtain ⟨v, hv, -⟩ := h.past document_bounded.empty _ rfl
  have hm : m = (m ++ c'.rest).takeWhile isTagChar ++ (g ++ v) :=
    (List.cons.inj (List.cons.inj (htag.eq (hopen.trans (hname.trans (hg.trans hv))))).2).2
  refine ⟨_, g ++ v, hm, fun z hz => List.all_eq_true.1 List.all_takeWhile z hz, ?_⟩
  exact tagTail_goesOn hr hs h (hg.trans hv) hstop

theorem Covers.element_tag {v : Text} (h : Covers (.rule .element) v) :
    ∃ r close tag rest, (r, close) ∈ tagEnds ∧ v = tag ++ rest ∧ Covers (.rule r) tag := by
  obtain ⟨l, c, c', xs, -, h, hv⟩ := h
  generalize ho : some (c', xs) = o at h
  cases h with
  | silent hs => cases hs
  | node _ hbody =>
    obtain ⟨m, rfl, hm⟩ := Option.map_eq_some_iff.1 ho.symm
    cases hm
    have hl : (document.style .element).inside l ≠ .spaced := nofun
    cases hbody with
    | altLeft htag =>
      exact ⟨.selfClosingTag, _, v, [], List.mem_cons_self, (List.append_nil v).symm, _, _, _, _, hl, htag, hv⟩
    | altRight _ hparts =>
      obtain ⟨c₁, _, _, htag, hmore⟩ := hparts.seq_tight hl
      obtain ⟨tag, htag', -⟩ := htag.past document_bounded.empty _ rfl
      obtain ⟨rest, hrest, -⟩ := hmore.past document_bounded.empty _ rfl
      exact ⟨.openingTag, _, tag, rest, List.mem_cons_of_mem _ List.mem_cons_self, hv.eq (htag'.trans hrest), _, _, _, _, hl,
        htag, htag'⟩

end Grammar

open Lowering Grammar

/-! ## Where the scan agrees with the grammar -/

/-- What the scan needs of a tag besides what the grammar does, where `previous` stands before it. -/
structure Legible (previous : Char) (tag : Text) : Prop where
  /-- Its name stands right behind its bracket. -/
  named : ∃ x m, tag = '<' :: x :: m ∧ isTagStart x = true
  /-- Neither a comment nor an attribute with an at sign stands right behind its name. -/
  apart : ∀ rest, tag.tail.dropWhile isTagPart ≠ '@' :: rest ∧ tag.tail.dropWhile isTagPart ≠ '/' :: '/' :: rest
  /-- Outside of what the scan takes for literals and comments, no other bracket opens. -/
  single : '<' ∉ (maskFrom .code previous tag).tail
  /-- Its end is not in a literal or comment. -/
  closed : (maskFrom .code previous tag).getLast? = some '>'

theorem toNat_lt_of_isAlphanum {z : Char} (hz : z.isAlphanum = true) : z.toNat < 128 := by
  have hranges : (z.isUpper || z.isLower || z.isDigit) = true := hz
  simp only [Bool.or_eq_true] at hranges
  rcases hranges with (hz | hz) | hz
  · exact Nat.lt_of_le_of_lt (of_decide_eq_true hz).2 (by decide)
  · exact Nat.lt_of_le_of_lt (of_decide_eq_true (Bool.and_eq_true_iff.1 hz).2) (by decide)
  · exact Nat.lt_of_le_of_lt (of_decide_eq_true (Bool.and_eq_true_iff.1 hz).2) (by decide)

theorem isTagPart_of_isTagChar {z : Char} (hz : Markup.isTagChar z = true) : isTagPart z = true := by
  have hword : Markup.isNameChar z = true → Text.isWordChar z = true := by
    intro hname
    have hsmall : z.toNat < 128 := by
      simp only [Markup.isNameChar, Bool.or_eq_true, beq_iff_eq] at hname
      rcases hname with hname | rfl
      · exact toNat_lt_of_isAlphanum hname
      · decide
    rwa [Text.isWordChar, if_pos hsmall]
  simp only [Markup.isTagChar, Bool.or_eq_true] at hz
  rcases hz with ((hz | hz) | hz) | hz
  · simp [isTagPart, hword hz]
  · simp [isTagPart, hz]
  · simp [isTagPart, hz]
  · simp [isTagPart, hz]

theorem plain_of_isTagChar {z : Char} (hz : Markup.isTagChar z = true) : z ∉ ['"', '\'', '/', '|'] := by
  intro hmem
  simp only [List.mem_cons, List.not_mem_nil, or_false] at hmem
  rcases hmem with rfl | rfl | rfl | rfl <;> cases hz

theorem isTagChar_of_isTagStart {x : Char} (hx : isTagStart x = true) : Markup.isTagChar x = true := by
  simp only [isTagStart, Bool.or_eq_true] at hx
  rcases hx with hx | hx
  · simp [Markup.isTagChar, Markup.isNameChar, Char.isAlphanum, hx]
  · simp [Markup.isTagChar, Markup.isNameChar, hx]

/-- **A legible tag is plain** once its literals are blanked out. -/
theorem Legible.plain {previous : Char} {r : Rule} {close : Text} (hr : (r, close) ∈ tagEnds) {tag : Text}
    (htag : Covers (.rule r) tag) (h : Legible previous tag) : PlainTag (maskFrom .code previous tag) := by
  obtain ⟨x, m, rfl, hx⟩ := h.named
  obtain ⟨name, u, rfl, hname, hu⟩ := htag.tag_named hr hx
  have hchars : ∀ z ∈ '<' :: x :: name, z ∉ ['"', '\'', '/', '|'] := by
    intro z hz
    rcases List.mem_cons.1 hz with rfl | hz
    · decide
    rcases List.mem_cons.1 hz with rfl | hz
    · exact plain_of_isTagChar (isTagChar_of_isTagStart hx)
    · exact plain_of_isTagChar (hname z hz)
  have hparts : ∀ z ∈ name, isTagPart z = true := fun z hz => isTagPart_of_isTagChar (hname z hz)
  have hmask := maskFrom_plain hchars previous u
  generalize hlast : ('<' :: x :: name).getLast?.getD previous = last at hmask
  have hslash : last ≠ '/' := by
    have hne : '<' :: x :: name ≠ [] := List.cons_ne_nil _ _
    rw [List.getLast?_eq_some_getLast hne, Option.getD_some] at hlast
    have hmem := List.getLast_mem hne
    rw [hlast] at hmem
    rintro rfl
    exact hchars '/' hmem (by decide)
  have hsingle := h.single
  have hclosed := h.closed
  simp only [List.cons_append] at hmask
  rw [hmask] at hsingle hclosed ⊢
  have hdrop : ∀ {y : Char} (rest : Text), isTagPart y = false →
      (x :: (name ++ y :: rest)).dropWhile isTagPart = y :: rest := by
    intro y rest hy
    have hstart := isTagPart_of_isTagChar (isTagChar_of_isTagStart hx)
    exact dropWhile_name (List.forall_mem_cons.2 ⟨hstart, hparts⟩) hy rest
  rcases hu with rfl | rfl | ⟨y, rest, rfl, hlayout | rfl | ⟨rfl, hcomment⟩⟩
  · exact .bare hx hparts
  · have hend : maskFrom .code last ['/', '>'] = ['/', '>'] := by simp [maskFrom, Scan.step, hslash]
    rw [hend]
    exact .closed hx hparts
  · have hkeeps : maskFrom .code last (y :: rest) = y :: maskFrom (Scan.code.step last y).1 y rest := by
      rw [maskFrom, Scan.step_code_keeps]
      rfl
    rw [hkeeps] at hsingle hclosed ⊢
    rcases List.eq_nil_or_concat' (maskFrom (Scan.code.step last y).1 y rest) with hnil | ⟨more, z, hmore⟩
    · rw [hnil] at hclosed
      obtain rfl : y = '>' := by
        rw [← List.cons_append, ← List.cons_append, List.getLast?_append_cons] at hclosed
        exact Option.some.inj hclosed
      cases hlayout
    · rw [hmore] at hsingle hclosed ⊢
      obtain rfl : z = '>' := by
        rw [← List.cons_append, ← List.cons_append, ← List.cons_append, ← List.append_assoc,
          List.getLast?_append_cons] at hclosed
        exact Option.some.inj hclosed
      refine .filled hx hparts hlayout fun hmem => hsingle ?_
      simp [hmem]
  · exact absurd (hdrop rest (by decide)) (h.apart rest).1
  · cases rest with
    | nil => cases hcomment
    | cons z rest =>
      obtain rfl : z = '/' := Option.some.inj hcomment
      exact absurd (hdrop _ (by decide)) (h.apart rest).2

/-! ## Documents -/

variable {doc : Document} {c : Cst}

theorem rejectVerbatim_error {n : Node} (hn : n ∈ c.arena.nodes.toList) (hfound : (verbatimMarkup? c.source n).isSome = true) :
    ∃ kind found leaf, (rejectVerbatim c).result = .error (.verbatimMarkup kind found leaf) := by
  rw [rejectVerbatim]
  cases hfirst : c.arena.nodes.toList.findSome? (verbatimMarkup? c.source) with
  | none =>
    rw [List.findSome?_eq_none_iff.1 hfirst n hn] at hfound
    cases hfound
  | some m => exact ⟨m.1.kind, m.2, m.1.span, rfl⟩

/-- A tag in the masked text of a node that is copied as it stands fails the document. -/
theorem translate_fails_of_found (hp : doc.parse = .ok c) {t : Tree} (ht : t ∈ c.tree.nodes)
    (hk : t.kind.isVerbatim = true) {a b : Text} (hmask : maskLiterals (t.text doc.text) = a ++ b)
    (hb : (afterTag? b).isSome = true) (settings : Settings) :
    ∃ d, (doc.translate settings).result = .error d ∧ d.kind = .unsupportedForm := by
  obtain ⟨n, hn, hkind, hspan⟩ := parse_exists_node hp ht
  have hfound : (verbatimMarkup? c.source n).isSome = true := by
    rw [verbatimMarkup?, hkind, if_pos hk, Option.isSome_map, findTag?_isSome_iff, hspan, parse_source hp]
    exact ⟨a, b, hmask, hb⟩
  obtain ⟨kind, found, leaf, herror⟩ := rejectVerbatim_error hn hfound
  refine ⟨Fault.report doc (.verbatimMarkup kind found leaf), ?_, rfl⟩
  rw [result_translate hp, assemble, Logged.result_bind, herror]
  rfl

/-- **No markup leaks from legible tags.**  Where an element stands in code that is copied as it stands, outside of the
literals and comments there, the document is rejected if the tag that the element begins with is legible. -/
theorem translate_rejects_markup (hp : doc.parse = .ok c) {t : Tree} (ht : t ∈ c.tree.nodes)
    (hk : t.kind.isVerbatim = true) {before v after : Text} (htext : t.text doc.text = before ++ (v ++ after))
    (hbefore : Clean before) (helement : Covers (.rule .element) v) :
    ∃ r close tag rest, (r, close) ∈ tagEnds ∧ v = tag ++ rest ∧ Covers (.rule r) tag ∧
      (Legible (before.getLast?.getD '\x00') tag →
        ∀ settings, ∃ d, (doc.translate settings).result = .error d ∧ d.kind = .unsupportedForm) := by
  obtain ⟨r, close, tag, rest, hr, rfl, htag⟩ := helement.element_tag
  refine ⟨r, close, tag, rest, hr, rfl, htag, fun hlegible settings => ?_⟩
  have hmask : maskLiterals (t.text doc.text) =
      maskFrom .code '\x00' before ++ maskFrom .code (before.getLast?.getD '\x00') (tag ++ (rest ++ after)) := by
    rw [htext, maskLiterals, maskFrom_append, hbefore.through_eq, Scan.through_snd, List.append_assoc]
  refine translate_fails_of_found hp ht hk hmask ?_ settings
  rw [maskFrom_append]
  exact (hlegible.plain hr htag).found _

/-- A tag in a string, and one in an argument. -/
def deferred : Document := ⟨"a.mbx", "defer f(\"<i>\", <b c='1'/>)".toList⟩

theorem translate_rejects_markup_deferred : ∃ c d, deferred.parse = .ok c ∧ Clean "defer f(\"<i>\", ".toList ∧
    Covers (.rule .element) "<b c='1'/>".toList ∧ Legible ' ' "<b c='1'/>".toList ∧
    (deferred.translate {}).result = .error d ∧ d.kind = .unsupportedForm := by
  have hparse : (deferred.parse.toOption.any fun c => c.tree.nodes.any fun t => t.kind.isVerbatim &&
      t.text deferred.text == deferred.text) = true := by decide +kernel
  have hstring : Covers DocExpr.stringLiteral "\"<i>\"".toList := .of_run (n := 100) (by decide +kernel)
  have hclean : Clean ("defer f(".toList ++ "\"<i>\"".toList ++ ", ".toList) :=
    Clean.chars (by decide) (.string (Clean.chars (by decide) .nil) hstring)
  have helement : Covers (.rule .element) "<b c='1'/>".toList := .of_run (n := 400) (by decide +kernel)
  have hlegible : Legible ' ' "<b c='1'/>".toList := by
    refine ⟨⟨'b', " c='1'/>".toList, rfl, rfl⟩, fun rest => ?_, by decide, by decide⟩
    exact ⟨fun h => absurd (List.cons.inj h).1 (by decide), fun h => absurd (List.cons.inj h).1 (by decide)⟩
  cases hp : deferred.parse with
  | error d => rw [hp] at hparse; cases hparse
  | ok c =>
    rw [hp] at hparse
    obtain ⟨t, ht, htext⟩ := List.any_eq_true.1 (show (c.tree.nodes.any _) = true from hparse)
    simp only [Bool.and_eq_true, beq_iff_eq] at htext
    have hsplit : t.text deferred.text = ("defer f(".toList ++ "\"<i>\"".toList ++ ", ".toList) ++
        ("<b c='1'/>".toList ++ ")".toList) := htext.2
    obtain ⟨r, close, tag, rest, hr, hv, htag, hrejects⟩ :=
      translate_rejects_markup hp ht htext.1 hsplit hclean helement
    -- the tag ends with the only bracket that closes one
    have hwhole : ∀ n ≤ 10, ("<b c='1'/>".toList.take n).getLast? = some '>' →
        "<b c='1'/>".toList.take n = "<b c='1'/>".toList := by decide
    have htake : "<b c='1'/>".toList.take tag.length = tag := by rw [hv, List.take_left]
    have hlength : tag.length ≤ 10 := by
      have := congrArg List.length hv
      simp at this
      omega
    have hwholeTag := hwhole tag.length hlength (by rw [htake, htag.getLast?_tag hr])
    rw [htake] at hwholeTag
    rw [hwholeTag] at hrejects
    obtain ⟨d, hd, hkind⟩ := hrejects hlegible {}
    exact ⟨c, d, rfl, hclean, helement, hlegible, hd, hkind⟩

/-- A tag with a comparison in an attribute. -/
def comparing : Document := ⟨"a.mbx", "defer f(<a b=\x7bx < y\x7d/>)".toList⟩

theorem translate_copies_comparison : ∃ c t, comparing.parse = .ok c ∧ t ∈ c.tree.nodes ∧ t.kind.isVerbatim = true ∧
    t.text comparing.text = "defer f(".toList ++ ("<a b=\x7bx < y\x7d/>".toList ++ ")".toList) ∧
    Clean "defer f(".toList ∧ Covers (.rule .element) "<a b=\x7bx < y\x7d/>".toList ∧
    (comparing.translate {}).result = .ok comparing.text := by
  have hparse : (comparing.parse.toOption.any fun c => c.tree.nodes.any fun t => t.kind.isVerbatim &&
      t.text comparing.text == "defer f(<a b=\x7bx < y\x7d/>)".toList) = true := by decide +kernel
  have houtput : (comparing.translate {}).result.toOption = some comparing.text := by decide +kernel
  have hclean : Clean "defer f(".toList := Clean.nil.chars (by decide)
  have helement : Covers (.rule .element) "<a b=\x7bx < y\x7d/>".toList := .of_run (n := 400) (by decide +kernel)
  cases hp : comparing.parse with
  | error d => rw [hp] at hparse; cases hparse
  | ok c =>
    rw [hp] at hparse
    obtain ⟨t, ht, htext⟩ := List.any_eq_true.1 (show (c.tree.nodes.any _) = true from hparse)
    simp only [Bool.and_eq_true, beq_iff_eq] at htext
    refine ⟨c, t, rfl, ht, htext.1, htext.2, hclean, helement, ?_⟩
    cases hresult : (comparing.translate {}).result with
    | error d => rw [hresult] at houtput; cases houtput
    | ok output => rw [hresult] at houtput; exact congrArg _ (Option.some.inj houtput)

end InlineMarkup
