import InlineMarkup.Proofs.Faults
import InlineMarkup.Proofs.Masking
import InlineMarkup.Proofs.Refusals
/-!
# Proofs.Located — every failed translation points into its document

What a translation fails with is one of five kinds, and the spans that it shows are ranges of the document: the place
where parsing stopped, nodes of the tree, or a tag in the masked copy of a node (`Diagnostic.Located`,
`translate_located`).
-/
namespace InlineMarkup

open Lowering
open Text (bytes IsPlace)

/-! ## Ranges -/

/-- The span is in order, within the text, and cuts no character. -/
structure Span.IsRange (t : Text) (s : Span) : Prop where
  ordered : s.start ≤ s.stop
  within : s.stop ≤ bytes t
  start : IsPlace t s.start
  stop : IsPlace t s.stop

theorem Span.isRange_of_cuts {t pre u post : Text} {s : Span} (ht : t = pre ++ (u ++ post)) (hstart : s.start = bytes pre)
    (hstop : s.stop = bytes pre + bytes u) : s.IsRange t := by
  have hstops : IsPlace t s.stop := ⟨pre ++ u, post, by rw [ht, List.append_assoc], by rw [Text.bytes_append, hstop]⟩
  exact ⟨by omega, hstops.le, ⟨pre, u ++ post, ht, hstart.symm⟩, hstops⟩

theorem parse_cuts {doc : Document} {c : Cst} (hp : doc.parse = .ok c) {t : Tree} (ht : t ∈ c.tree.nodes) :
    ∃ pre u post, doc.text = pre ++ (u ++ post) ∧ t.span = ⟨bytes pre, bytes pre + bytes u⟩ := by
  obtain ⟨pre, u, post, hsource, hu⟩ := (parse_loose hp).below ht
  exact ⟨pre, u, post, hsource, by rw [hu.span, Nat.zero_add]⟩

theorem parse_isRange {doc : Document} {c : Cst} (hp : doc.parse = .ok c) {t : Tree} (ht : t ∈ c.tree.nodes) :
    t.span.IsRange doc.text := by
  obtain ⟨pre, u, post, hsource, hspan⟩ := parse_cuts hp ht
  exact Span.isRange_of_cuts hsource (by rw [hspan]) (by rw [hspan])

theorem Text.upTo_append (u v : Text) : upTo (u ++ v) (bytes u) = u := by
  induction u with
  | nil =>
    cases v with
    | nil => rfl
    | cons x v =>
      have := Char.utf8Size_pos x
      rw [List.nil_append, upTo, if_neg (by simp only [bytes_nil]; omega)]
  | cons x u ih =>
    rw [List.cons_append, upTo, bytes_cons, if_pos (Nat.le_add_right _ _), Nat.add_sub_cancel_left, ih]

/-! ## Markup that is found in a masked copy -/

/-- **A tag that is found lies in the node** whose masked copy it is found in, and is a tag in the document too. -/
theorem isRange_of_found {doc : Document} {c : Cst} (hp : doc.parse = .ok c) {t : Tree} (ht : t ∈ c.tree.nodes)
    {found : Span} (h : findTag? (maskLiterals (t.text doc.text)) t.span.start = some found) :
    found.IsRange doc.text ∧ t.span.start ≤ found.start ∧ found.stop ≤ t.span.stop ∧
      ∃ inner, found.text doc.text = '<' :: (inner ++ ['>']) := by
  obtain ⟨pre, u, post, hsource, hspan⟩ := parse_cuts hp ht
  have htext : t.text doc.text = u := Span.text_append hsource (by rw [hspan]) (by rw [hspan])
  rw [htext] at h
  obtain ⟨a, inner, b, hmask, hstart, hstop⟩ := findTag?_eq_some h
  have hmasked : Masked u (maskLiterals u) := masked_maskFrom _ _ u
  obtain ⟨u₁, v₁, hu₁, hopens⟩ := hmasked.place hmask (by decide)
  have hmask' : maskLiterals u = (a ++ '<' :: inner) ++ '>' :: b := by rw [hmask]; simp
  obtain ⟨u₂, v₂, hu₂, hcloses⟩ := hmasked.place hmask' (by decide)
  rw [Text.bytes_append] at hcloses
  -- the closing bracket stands behind the opening one in the document as it does in the copy
  obtain ⟨w, rfl, hw⟩ := Text.append_eq_of_bytes_le (hu₁.symm.trans hu₂) (by omega)
  cases w with
  | nil => exact absurd (List.cons.inj hw).1 (by decide)
  | cons x w =>
    obtain ⟨rfl, -⟩ := List.cons.inj hw
    have hcut : doc.text = (pre ++ u₁) ++ (('<' :: (w ++ ['>'])) ++ (v₂ ++ post)) := by
      rw [hsource, hu₂]
      simp
    have hlength : bytes ('<' :: (w ++ ['>'])) = bytes ('<' :: (inner ++ ['>'])) := by
      simp only [Text.bytes_append, Text.bytes_cons, Text.bytes_nil] at hcloses ⊢
      omega
    have hfrom : found.start = bytes (pre ++ u₁) := by rw [hstart, hspan, Text.bytes_append, hopens]
    have hto : found.stop = bytes (pre ++ u₁) + bytes ('<' :: (w ++ ['>'])) := by rw [hstop, hfrom, hlength]
    refine ⟨Span.isRange_of_cuts hcut hfrom hto, ?_, ?_, w, Span.text_append hcut hfrom hto⟩
    · rw [hfrom, hspan, Text.bytes_append]
      exact Nat.le_add_right _ _
    · rw [hto, hspan, hu₂]
      simp only [Text.bytes_append, Text.bytes_cons, Text.bytes_nil]
      omega

/-! ## Diagnostics -/

/-- The diagnostic shows a range of the document and where it begins.  Markup in code that is copied as it stands is shown
inside the leaf that it was found in. -/
structure Diagnostic.Located (doc : Document) (d : Diagnostic) : Prop where
  kind : d.kind ∈ [.parse, .unmatchedElement, .malformedElement, .nestingLimit, .unsupportedForm]
  malformed : d.kind = .malformedElement → d.message = "element has no tag name"
  document : d.document = some doc
  span : ∃ s, d.span = some s ∧ s.IsRange doc.text ∧
    ∃ before after, doc.text = before ++ after ∧ bytes before = s.start ∧ d.location = some (Position.ofBefore before)
  related : ∀ l ∈ d.related, l.span.IsRange doc.text
  verbatim : d.kind = .unsupportedForm → ∃ c, doc.parse = .ok c ∧ ∃ leaf ∈ c.tree.nodes, leaf.kind.isVerbatim = true ∧
    d.related = [⟨leaf.span, "copied as plain text"⟩] ∧ ∃ s, d.span = some s ∧ leaf.span.start ≤ s.start ∧
      s.stop ≤ leaf.span.stop ∧ ∃ inner, s.text doc.text = '<' :: (inner ++ ['>'])

theorem exists_location {doc : Document} {d : Diagnostic} {s : Span} (hdoc : d.document = some doc) (hspan : d.span = some s)
    (hs : s.IsRange doc.text) : ∃ s, d.span = some s ∧ s.IsRange doc.text ∧
      ∃ before after, doc.text = before ++ after ∧ bytes before = s.start ∧
        d.location = some (Position.ofBefore before) := by
  obtain ⟨before, after, hcut, hbefore⟩ := hs.start
  refine ⟨s, hspan, hs, before, after, hcut, hbefore, ?_⟩
  unfold Diagnostic.location Position.ofOffset
  rw [hspan, hdoc]
  dsimp only
  rw [← hbefore, hcut, Text.upTo_append]

section Faults

variable {doc : Document} {c : Cst} {f : Fault}

theorem located_refusal {a : Grammar.Attempts Grammar.Rule} (h : IsPlace doc.text a.furthest) :
    (refusal doc a).Located doc where
  kind := by simp [refusal]
  malformed := nofun
  document := rfl
  span := exists_location rfl rfl ⟨Nat.le_refl _, h.le, h, h⟩
  related := nofun
  verbatim := nofun

theorem located_leak (hp : doc.parse = .ok c) (h : Leaked c f) : (f.report doc).Located doc := by
  obtain @⟨n, found, hn, hleak⟩ := h
  obtain ⟨t, ht, hkind, hspan⟩ := parse_exists_tree hp hn
  unfold verbatimMarkup? at hleak
  split at hleak
  · next hverbatim =>
    obtain ⟨s, hs, hfound⟩ := Option.map_eq_some_iff.1 hleak
    obtain rfl : s = found := (Prod.mk.inj hfound).2
    rw [parse_source hp, ← hspan] at hs
    obtain ⟨hrange, hstart, hstop, htag⟩ := isRange_of_found hp ht hs
    have hleaf : n.span.IsRange doc.text := hspan ▸ parse_isRange hp ht
    refine ⟨by simp [Fault.report], nofun, rfl, exists_location rfl rfl hrange, ?_, fun _ => ?_⟩
    · simpa [Fault.report] using hleaf
    · refine ⟨c, hp, t, ht, by rw [hkind]; exact hverbatim, by rw [hspan]; rfl, s, rfl, hstart, hstop, htag⟩
  · cases hleak

theorem located_nodes (hp : doc.parse = .ok c) {d : Diagnostic} {t : Tree} (ht : t ∈ c.tree.nodes)
    (hkind : d.kind ∈ [.unmatchedElement, .malformedElement, .nestingLimit])
    (hmessage : d.kind = .malformedElement → d.message = "element has no tag name") (hdoc : d.document = some doc)
    (hspan : d.span = some t.span) (hrelated : ∀ l ∈ d.related, ∃ u ∈ c.tree.nodes, l.span = u.span) : d.Located doc where
  kind := by
    simp only [List.mem_cons, List.not_mem_nil, or_false] at hkind ⊢
    rcases hkind with hkind | hkind | hkind <;> simp [hkind]
  malformed := hmessage
  document := hdoc
  span := exists_location hdoc hspan (parse_isRange hp ht)
  related l hl := by
    obtain ⟨u, hu, hspan⟩ := hrelated l hl
    exact hspan ▸ parse_isRange hp hu
  verbatim h := by rw [h] at hkind; simp at hkind

theorem located_raised (hp : doc.parse = .ok c) {i : Input} (h : Raised i c.tree f) : (f.report doc).Located doc := by
  cases h with
  | tooDeep hu => exact located_nodes hp hu (by simp [Fault.report]) nofun rfl rfl nofun
  | @badTags u f hu hk hbad =>
    cases hbad with
    | noOpeningTag hnone =>
      obtain ⟨tag, inner, closing, hparts⟩ := (parse_shaped hp u hu).element hk
      rw [hparts.openingTag?] at hnone
      cases hnone
    | noTagName htag =>
      have hmem := Tree.nodes_trans (openingTag?_mem htag) hu
      exact located_nodes hp hmem (by simp [Fault.report]) (fun _ => rfl) rfl rfl nofun
    | neverClosed htag name =>
      have hmem := Tree.nodes_trans (openingTag?_mem htag) hu
      exact located_nodes hp hmem (by simp [Fault.report]) nofun rfl rfl nofun
    | mismatch htag hclose name closingName at_ =>
      have hmem := Tree.nodes_trans (closingTag?_mem hclose) hu
      refine located_nodes hp hmem (by simp [Fault.report]) nofun rfl rfl fun l hl => ?_
      obtain rfl := List.mem_singleton.1 hl
      exact ⟨_, Tree.nodes_trans (openingTag?_mem htag) hu, rfl⟩

end Faults

/-- **Every failed translation points into its document.** -/
theorem translate_located {doc : Document} {settings : Settings} {d : Diagnostic}
    (h : (doc.translate settings).result = .error d) : d.Located doc := by
  cases hp : doc.parse with
  | error e =>
    unfold Document.translate at h
    rw [hp] at h
    cases h
    obtain ⟨a, rfl, hplace⟩ := parse_refused hp
    exact located_refusal hplace
  | ok c =>
    obtain ⟨f, hf, rfl⟩ := exists_fault_of_translate hp h
    rcases fails_assemble settings c f hf with hleak | hraised
    · exact located_leak hp hleak
    · exact located_raised hp hraised

/-- A tag in an argument behind a character of two bytes. -/
def accented : Document := ⟨"a.mbx", "let é = 1\ndefer f(\"é\", <b/>)".toList⟩

theorem translate_located_accented : ∃ d, (accented.translate {}).result = .error d ∧ d.Located accented ∧
    d.span = some ⟨25, 29⟩ ∧ d.location = some ⟨2, 14⟩ := by
  have hfail : (match (accented.translate {}).result with
    | .ok _ => none
    | .error d => some (d.span, d.location)) = some (some ⟨25, 29⟩, some ⟨2, 14⟩) := by decide +kernel
  cases hd : (accented.translate {}).result with
  | ok output => rw [hd] at hfail; cases hfail
  | error d =>
    rw [hd] at hfail
    obtain ⟨hspan, hlocation⟩ := Prod.mk.inj (Option.some.inj hfail)
    exact ⟨d, rfl, translate_located hd, hspan, hlocation⟩

end InlineMarkup
