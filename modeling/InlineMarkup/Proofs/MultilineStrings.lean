import InlineMarkup.Proofs.LineBreaks
import InlineMarkup.Proofs.LineTails
/-!
# Proofs.MultilineStrings — which strings take up what is written behind them

The lines of a multiline string go to their ends (`parse_multiline`), as comments do, but nothing closes such a string
where it ends an argument of a builder call: the parenthesis behind it becomes part of the string.  The same happens
where composed code goes on behind it after a carriage return alone, which counts for a space.  Everywhere else the line
ends behind the string in the output as it does in the source (`translate_multiline_strings`).
-/
namespace InlineMarkup

open Lowering Logged Patch
open Text (bytes isBlank isLayout trimEnd)

/-! ## Multiline strings -/

/-- A string of one or more lines that each begin with a mark and go to their ends. -/
def Tree.isMultiline (source : Text) (t : Tree) : Bool :=
  t.kind == .literal && (['#', '|'].isPrefixOf (t.text source) || ['$', '|'].isPrefixOf (t.text source))

namespace Grammar

variable {l : Layout} {k : Look}

theorem stringLine_ends (hl : l ≠ .spaced) {c c' : Cursor} {xs : List (Parse Rule)}
    (h : Eval document DocExpr.stringLine l k c (some (c', xs))) : c'.rest.EndsLine := by
  obtain ⟨_, _, _, _, _, -, -, hline, -⟩ := h.seq_parts
  exact hline.restOfLine_ends hl

theorem multilineString_ends (hl : l ≠ .spaced) {c c' : Cursor} {xs : List (Parse Rule)}
    (h : Eval document DocExpr.multilineString l k c (some (c', xs))) : c'.rest.EndsLine := by
  obtain ⟨_, _, _, _, _, hfirst, hskip, hmore, -⟩ := h.seq_parts
  cases hskip.skip_eq hl
  refine hmore.many_last (P := fun c => c.rest.EndsLine) (fun c c' xs h => ?_) (stringLine_ends hl hfirst)
  obtain ⟨_, _, _, _, _, -, -, hline, -⟩ := h.seq_parts
  exact stringLine_ends hl hline

/-- Where the mark of a line stands, a multiline string is read. -/
theorem multilineString_none (hl : l ≠ .spaced) {x : Char} (hx : x = '#' ∨ x = '$') {off : Nat} {rest : Text} :
    ¬ Eval document DocExpr.multilineString l k ⟨off, x :: '|' :: rest⟩ none := by
  intro h
  have hmarks := ((h.seq_many_none hl).seq_many_none hl).alts_none
  have hhash := (hmarks (Expr.word ['#', '|']) List.mem_cons_self).word_none
  have hdollar := (hmarks (Expr.word ['$', '|']) (List.mem_cons_of_mem _ List.mem_cons_self)).word_none
  rcases hx with rfl | rfl
  · simp [Cursor.word?, Text.strip?] at hhash
  · simp [Cursor.word?, Text.strip?] at hdollar

/-- **A literal that begins with the mark of a line** goes to the end of a line. -/
theorem Matched.literal_ends {source : Text} {start stop : Nat} {inner : List (Parse Rule)}
    (h : Matched source (.node .literal start stop inner)) : ∃ pre u rest, source = pre ++ (u ++ rest) ∧ bytes pre = start ∧
      bytes pre + bytes u = stop ∧ ∀ x v, u = x :: '|' :: v → x = '#' ∨ x = '$' → rest.EndsLine := by
  cases h with
  | @node _ l c c' _ place named left body below =>
    obtain ⟨pre, hsrc, hpre⟩ := place
    obtain ⟨u, hu, -⟩ := body.past document_bounded.empty _ rfl
    refine ⟨pre, u, c'.rest, by rw [hsrc, hu.rest], hpre, by rw [hpre, hu.offset], fun x v huv hx => ?_⟩
    have hl : (document.style .literal).inside l ≠ .spaced := nofun
    obtain ⟨off, rest⟩ := c
    obtain rfl : rest = x :: '|' :: (v ++ c'.rest) := by
      have := hu.rest
      rwa [huv] at this
    cases body with
    | altLeft h => exact multilineString_ends hl h
    | altRight hnone _ => exact absurd hnone (multilineString_none hl hx)

end Grammar

open Grammar InlineMarkup.Tree

variable {doc : Document} {c : Cst}

theorem parse_multiline (hp : doc.parse = .ok c) {t : Tree} (ht : t ∈ c.tree.nodes) (hm : t.isMultiline doc.text = true) :
    t.TakesLine doc.text := by
  simp only [isMultiline, Bool.and_eq_true, beq_iff_eq, Bool.or_eq_true, List.isPrefixOf_iff_prefix] at hm
  obtain ⟨hk, hmark⟩ := hm
  refine ⟨.inr hk, ?_⟩
  rcases parse_origin hp ht with htoken | ⟨r, start, stop, inner, k, hmatched, hr, rfl⟩
  · rw [htoken.kind] at hk
    cases hk
  · obtain rfl : k = .literal := (kind_finished _).symm.trans hk
    have hrule : ∀ r ∈ Rule.all, Kind.ofRule? r = some .literal → r = .literal := by decide
    obtain rfl := hrule r r.mem_all hr
    obtain ⟨pre, u, rest, hsrc, rfl, rfl, hrest⟩ := hmatched.literal_ends
    rw [Tree.text, span_finished_of_keeps rfl, Span.text_append hsrc rfl rfl] at hmark
    rw [span_finished_of_keeps rfl]
    obtain ⟨x, v, hx, rfl⟩ : ∃ x v, (x = '#' ∨ x = '$') ∧ u = x :: '|' :: v := by
      rcases hmark with ⟨v, rfl⟩ | ⟨v, rfl⟩
      · exact ⟨'#', v, .inl rfl, rfl⟩
      · exact ⟨'$', v, .inr rfl, rfl⟩
    refine ⟨pre, x, '|' :: v, rest, hsrc, rfl, ?_, hrest x v rfl hx⟩
    rcases hx with rfl | rfl <;> decide

/-! ## Braces end behind their expression -/

namespace Tree

/-- The trees of a row end where their pieces do, at the latest. -/
theorem stop_of_pieces {source : Text} {off : Nat} {ps : List (Piece Rule)}
    (h : ∀ before p u after, ps = before ++ .tree p u :: after → ∀ t ∈ named p,
      (t.trimmed source).span.stop ≤ off + bytes (textOf before) + bytes u) :
    ∀ t ∈ namedAll (treesIn ps), (t.trimmed source).span.stop ≤ off + bytes (textOf ps) := by
  intro t ht
  obtain ⟨p, hp, htp⟩ := mem_namedAll.1 ht
  obtain ⟨u, hu⟩ := mem_treesIn.1 hp
  obtain ⟨before, after, rfl⟩ := List.append_of_mem hu
  have hle := h before p u after rfl t htp
  simp only [textOf_append, textOf_cons, Piece.text, Text.bytes_append]
  omega

/-- Moving its end back leaves a tree within its text. -/
theorem stop_trimmed_le {source : Text} {off : Nat} {u : Text} {p : Parse Rule} (h : Laid document off u p) :
    ∀ pre post, source = pre ++ (u ++ post) → bytes pre = off → ∀ t ∈ named p,
      (t.trimmed source).span.stop ≤ off + bytes u := by
  induction h with
  | @node r l off ps left yields below ih =>
    rintro pre post hsrc rfl t ht
    obtain ⟨k, hk, rfl⟩ := mem_named.1 ht
    rw [trimmed]
    show (trimSpan source k _ _).stop ≤ _
    cases hkeep : k.keepsTrailingBlanks with
    | true => rw [trimSpan, if_pos hkeep]
    | false =>
      have htrim : bytes (trimEnd isLayout (textOf ps)) ≤ bytes (textOf ps) := by
        obtain ⟨w, hw, -⟩ := trimEnd_append isLayout (textOf ps)
        conv => rhs; rw [hw]
        rw [Text.bytes_append]
        exact Nat.le_add_right _ _
      have hpieces : ∀ d ∈ namedAll (treesIn ps), (d.trimmed source).span.stop ≤ bytes pre + bytes (textOf ps) := by
        refine stop_of_pieces fun before q w after hps d hd => ?_
        refine ih before q w after hps (pre ++ textOf before) (textOf after ++ post) ?_ (Text.bytes_append _ _) d hd
        rw [hsrc, hps]
        simp [Piece.text]
      rw [trimSpan_append hsrc hkeep]
      refine Nat.max_le.2 ⟨Nat.add_le_add_left htrim _, ?_⟩
      rw [lastStop, trimmedAll_eq_map, List.getLast?_map]
      generalize hcs : (if k.isLeaf = true then [] else namedAll (treesIn ps)) = cs
      cases hlast : cs.getLast? with
      | none => exact Nat.le_add_right _ _
      | some d =>
        have hd := List.mem_of_getLast? hlast
        rw [← hcs] at hd
        split at hd
        · cases hd
        · exact hpieces d hd

theorem exists_last_char {ps : List (Piece Rule)} {b : List (Char ⊕ Rule)} {x : Char}
    (h : ps.map Piece.letter = b ++ [.inl x]) : ∃ qs, ps = qs ++ [.char x] := by
  obtain ⟨qs, more, rfl, -, hmore⟩ := List.map_eq_append_iff.1 h
  obtain ⟨y, rfl, hy⟩ := List.map_eq_singleton_iff.1 hmore
  exact ⟨qs, by rw [Piece.eq_char hy]⟩

theorem row_interpolation {l : Layout} {a : List (Char ⊕ Rule)} (h : Yields document (document.body .interpolation) l a) :
    ∃ b, a = b ++ [.inl '\x7d'] := by
  cases h with
  | @seq _ _ _ a₁ b₁ _ _ _ h =>
    cases h with
    | @seq _ _ _ a₂ b₂ _ _ _ h =>
      cases h with
      | @seq _ _ _ a₃ b₃ _ _ _ h =>
        cases h with
        | @seq _ _ _ a₄ b₄ _ _ _ h =>
          cases h
          exact ⟨a₁ ++ (b₁ ++ (a₂ ++ (b₂ ++ (a₃ ++ (b₃ ++ (a₄ ++ b₄)))))), by simp⟩

/-- **Braces are closed behind the expression in them.** -/
theorem stop_lt_braces {source pre u post : Text} (hsrc : source = pre ++ (u ++ post)) {p : Parse Rule}
    (h : Laid document (bytes pre) u p) {t : Tree} (ht : t ∈ named p) (hk : t.kind = .interpolation) {e : Tree}
    (he : e ∈ (t.finished source).children) (hek : e.kind ≠ .token) : e.span.stop < (t.finished source).span.stop := by
  generalize hoff : bytes pre = off at h
  cases h with
  | @node r l _ ps left yields below =>
    subst hoff
    obtain ⟨k, hrk, rfl⟩ := mem_named.1 ht
    obtain rfl : k = .interpolation := hk
    obtain rfl : r = .interpolation := rule_of_kind (by decide) hrk
    obtain ⟨b, hb⟩ := row_interpolation yields
    obtain ⟨qs, rfl⟩ := exists_last_char hb
    rcases mem_children_finished he with htoken | hmem
    · exact absurd htoken.kind hek
    obtain ⟨d, hd, rfl⟩ := List.mem_map.1 hmem
    have hle : (d.finished source).span.stop ≤ bytes pre + bytes (textOf qs) := by
      rw [span_finished]
      refine stop_of_pieces (fun before q w after hqs d hd => ?_) d (by simpa [Tree.children, Kind.isLeaf] using hd)
      refine stop_trimmed_le (below before q w (after ++ [.char '\x7d']) (by simp [hqs])) (pre ++ textOf before)
        (textOf after ++ '\x7d' :: post) ?_ (Text.bytes_append _ _) d hd
      simp [hsrc, hqs, Piece.text]
    -- the brace is not layout, so the end of the braces stays behind it
    have htrim : trimEnd isLayout (textOf (qs ++ [.char '\x7d'])) = textOf (qs ++ [.char '\x7d']) := by
      have hlast : ∀ x, (textOf (qs ++ [.char '\x7d'])).getLast? = some x → isLayout x = false := by
        intro x hx
        rw [textOf_append, show textOf [Piece.char '\x7d'] = ['\x7d'] from rfl, List.getLast?_append] at hx
        cases hx
        decide
      have := Text.trimEnd_of_last (w := []) hlast fun x hx => by cases hx
      rwa [List.append_nil] at this
    rw [span_finished ⟨_, _, _⟩, trimmed]
    show _ < (trimSpan source _ _ _).stop
    rw [trimSpan_append hsrc rfl, htrim, textOf_append, Text.bytes_append]
    refine Nat.lt_of_lt_of_le ?_ (Nat.le_max_left _ _)
    have : 0 < bytes (textOf [Piece.char (R := Rule) '\x7d']) := by decide
    omega

end Tree

theorem parse_braces (hp : doc.parse = .ok c) {t : Tree} (ht : t ∈ c.tree.nodes) (hk : t.kind = .interpolation) {e : Tree}
    (he : e ∈ t.children) (hek : e.kind ≠ .token) : e.span.stop < t.span.stop := by
  rcases parse_laid hp ht with htoken | ⟨pre, u, post, p, v, hsrc, hlaid, -, hv, rfl⟩
  · rw [htoken.kind] at hk
    cases hk
  · rw [kind_finished] at hk
    exact stop_lt_braces hsrc hlaid hv hk he hek

/-! ## Places where nothing ends the line -/

namespace Cst

/-- The node ends an argument: it stands at the end of the expression in braces. -/
def EndsArgument (c : Cst) (u : Tree) : Prop :=
  ∃ t ∈ c.tree.nodes, t.kind = .interpolation ∧ ∃ e ∈ t.children, e.kind = .expression ∧ u.Ends e

/-- The node stands before another in code with markup, with no line feed between them, and no closing brace follows. -/
def EndsBeforeReturn (c : Cst) (u : Tree) : Prop :=
  ∃ t ∈ c.tree.nodes, t.kind ≠ .program ∧ t.hasMarkup = true ∧ ∃ before p n after,
    t.children = before ++ p :: n :: after ∧ u.Ends p ∧ n.isToken c.source ['\x7d'] = false ∧
      '\n' ∉ (Span.mk p.span.stop n.span.start).text c.source

/-- What is written behind the node does not end its line. -/
def Exposes (c : Cst) (u : Tree) : Prop := c.EndsArgument u ∨ c.EndsBeforeReturn u

end Cst

theorem mem_below_of_ne {t : Tree} (hp : doc.parse = .ok c) (ht : t ∈ c.tree.nodes) (hk : t.kind ≠ .program) :
    t ∈ nodesAll c.tree.children := by
  rcases mem_nodes_iff.1 ht with rfl | hbelow
  · exact absurd (parse_program hp) hk
  · exact mem_nodesAll.2 hbelow

section Places

variable {t s p n u : Tree}

/-- Code without markup that is no part of markup holds no part of markup. -/
theorem nodes_outside (hp : doc.parse = .ok c) (hs : s ∈ c.tree.nodes) (hk : s.kind.inMarkup = false)
    (hmarkup : s.hasMarkup = false) (ht : t ∈ s.nodes) : t.kind.inMarkup = false ∧ t.hasMarkup = false := by
  have hbare : ∀ d ∈ s.nodes, d.kind ≠ .element := fun d hd hdk => by
    rw [hasMarkup_iff.2 ⟨d, hd, hdk⟩] at hmarkup
    cases hmarkup
  refine ⟨?_, Bool.eq_false_iff.2 fun hm => ?_⟩
  · obtain ⟨m, hm⟩ : ∃ m, s.height = m := ⟨_, rfl⟩
    clear hmarkup
    induction m using Nat.strongRecOn generalizing s with
    | ind m ih =>
      subst hm
      rcases mem_nodes_iff.1 ht with rfl | ⟨d, hd, htd⟩
      · exact hk
      · have hdk := parse_outside hp hs hk (hbare s (mem_nodes_self s)) hd
        exact ih d.height (height_lt hd) (nodes_trans (mem_of_child hd (mem_nodes_self d)) hs) hdk htd
          (fun e he => hbare e (mem_of_child hd he)) rfl
  · obtain ⟨d, hd, hdk⟩ := hasMarkup_iff.1 hm
    exact hbare d (nodes_trans hd ht) hdk

/-- A node before another one ends before their parent does. -/
theorem stop_lt_of_next (hp : doc.parse = .ok c) (ht : t ∈ nodesAll c.tree.children) {before after : List Tree}
    (hcs : t.children = before ++ p :: n :: after) (hline : u.TakesLine doc.text) (hends : u.Ends p) :
    u.span.stop < t.span.stop := by
  have hpmem : p ∈ t.children := by simp [hcs]
  obtain ⟨-, _, x, _, -, hx⟩ := parse_below hp ht
  have hle := (span_below hx (mem_of_child hpmem hends.1)).2
  refine Nat.lt_of_le_of_ne hle fun hstop => ?_
  obtain ⟨d, hd, hud⟩ := ends_last hp ht (mem_nodesAll.2 ⟨p, hpmem, hends.1⟩) hline hstop
  have hdmem : d ∈ n :: after := by
    rw [hcs, List.getLast?_append_cons, List.getLast?_cons_cons] at hd
    exact List.mem_of_getLast? hd
  have hordered := hx.ordered
  rw [hcs, List.pairwise_append, List.pairwise_cons] at hordered
  have hle := hordered.2.1.1 d hdmem
  obtain ⟨-, _, y, _, -, hy⟩ := parse_below hp (child_below ht (List.mem_of_getLast? hd))
  have hstart := (span_below hy hud.1).1
  have := hline.solid
  have := hends.2
  omega

/-- **Where the line may not end**, the node ends a child of another node that goes on behind it. -/
theorem Cst.Exposes.place (hp : doc.parse = .ok c) (hline : u.TakesLine doc.text) (h : c.Exposes u) :
    ∃ t ∈ nodesAll c.tree.children, (t.kind.inMarkup = true ∨ t.hasMarkup = true) ∧ u.span.stop < t.span.stop ∧
      ∃ p ∈ t.children, u.Ends p := by
  rcases h with ⟨t, ht, hk, e, he, hek, hends⟩ | ⟨t, ht, hk, hmarkup, before, p, n, after, hcs, hends, -⟩
  · have hlt := parse_braces hp ht hk he (by rw [hek]; decide)
    exact ⟨t, mem_below_of_ne hp ht (by rw [hk]; decide), .inl (by rw [hk]; rfl), by rw [hends.2]; exact hlt, e, he, hends⟩
  · have hbelow := mem_below_of_ne hp ht hk
    exact ⟨t, hbelow, .inr hmarkup, stop_lt_of_next hp hbelow hcs hline hends, p, by simp [hcs], hends⟩

/-- Nodes that hold the same leaf stand one below the other; the lower one below the child that holds the leaf. -/
theorem below_place (hp : doc.parse = .ok c) (hline : u.TakesLine doc.text) (hs : s ∈ c.tree.nodes) (hus : u ∈ s.nodes)
    (ht : t ∈ nodesAll c.tree.children) (hpt : p ∈ t.children) (hup : u ∈ p.nodes) : t ∈ s.nodes ∨ s ∈ p.nodes := by
  obtain ⟨htnode, _, x, _, -, hx⟩ := parse_below hp ht
  obtain ⟨_, y, _, -, hy⟩ := (parse_loose hp).below hs
  have hsolid := hline.solid
  have hut := span_below hx (mem_of_child hpt hup)
  have hus' := span_below hy hus
  rcases (parse_loose hp).comparable (t := s) (u := t) (by omega) (by omega) hs htnode with hts | hst
  · exact .inl hts
  · rcases mem_nodes_iff.1 hst with rfl | ⟨q, hq, hsq⟩
    · exact .inl (mem_nodes_self s)
    · obtain rfl := hx.child_unique hsolid hq hpt (nodes_trans hus hsq) hup
      exact .inr hsq

theorem place_unique (hp : doc.parse = .ok c) (hline : u.TakesLine doc.text) (hs : s ∈ nodesAll c.tree.children)
    (ht : t ∈ nodesAll c.tree.children) (hns : n ∈ s.children) (hpt : p ∈ t.children) (hun : u.Ends n) (hup : u.Ends p)
    (hustop : u.span.stop < s.span.stop) (hutop : u.span.stop < t.span.stop) : s = t ∧ n = p := by
  obtain ⟨hsnode, _, x, _, -, hx⟩ := parse_below hp hs
  obtain ⟨-, _, y, _, -, hy⟩ := parse_below hp (child_below hs hns)
  obtain ⟨-, _, z, _, -, hz⟩ := parse_below hp (child_below ht hpt)
  have hut := mem_of_child hpt hup.1
  have hst : s = t := by
    rcases below_place hp hline hsnode (mem_of_child hns hun.1) ht hpt hup.1 with hts | hsp
    · rcases mem_nodes_iff.1 hts with rfl | ⟨q, hq, htq⟩
      · rfl
      · obtain rfl := hx.child_unique hline.solid hq hns (nodes_trans hut htq) hun.1
        have := (span_below hy htq).2
        have := hun.2
        omega
    · have := (span_below hz hsp).2
      have := hup.2
      omega
  subst hst
  exact ⟨rfl, hx.child_unique hline.solid hns hpt hun.1 hup.1⟩

theorem not_exposes_inside (hp : doc.parse = .ok c) (hline : u.TakesLine doc.text) (hs : s ∈ c.tree.nodes)
    (hk : s.kind.inMarkup = false) (hmarkup : s.hasMarkup = false) (hus : u ∈ s.nodes)
    (hstop : s.kind = .program ∨ u.span.stop ≠ s.span.stop) : ¬ c.Exposes u := by
  intro h
  obtain ⟨t, ht, hkind, -, p, hpt, hends⟩ := h.place hp hline
  rcases below_place hp hline hs hus ht hpt hends.1 with hts | hsp
  · obtain ⟨houtside, hbare⟩ := nodes_outside hp hs hk hmarkup hts
    simp [houtside, hbare] at hkind
  · obtain ⟨-, _, y, _, -, hy⟩ := parse_below hp (child_below ht hpt)
    obtain ⟨-, _, x, _, -, hx⟩ := parse_below hp (mem_below (child_below ht hpt) hsp)
    refine hstop.elim (kind_ne_program_of_spread hx) fun hne => hne ?_
    have := (span_below hy hsp).2
    have := (span_below hx hus).2
    have := hends.2
    omega

theorem not_exposes_top (hp : doc.parse = .ok c) (hline : u.TakesLine doc.text) (hs : s ∈ c.tree.children)
    (hends : u.Ends s) : ¬ c.Exposes u := by
  intro h
  obtain ⟨t, ht, -, hlt, p, hpt, hup⟩ := h.place hp hline
  obtain ⟨d, hd, htd⟩ := mem_nodesAll.1 ht
  obtain rfl := (parse_loose hp).child_unique hline.solid hd hs (nodes_trans (mem_of_child hpt hup.1) htd) hends.1
  obtain ⟨-, _, x, _, -, hx⟩ := parse_below hp (top_below hs)
  have := (span_below hx htd).2
  have := hends.2
  omega

/-- The neighbour behind a node that is not empty. -/
theorem next_unique {G : Gaps} {off : Nat} {x : Text} (h : Spread G off x t) (hsolid : p.span.start < p.span.stop)
    {before after before' after' : List Tree} {n' : Tree} (hcs : t.children = before ++ p :: n :: after)
    (hcs' : t.children = before' ++ p :: n' :: after') : n = n' := by
  have hordered := h.ordered
  rw [hcs, List.pairwise_append, List.pairwise_cons] at hordered
  have hbefore : p ∉ before := fun hmem => by
    have := hordered.2.2 p hmem p List.mem_cons_self
    omega
  have hafter : p ∉ n :: after := fun hmem => by
    have := hordered.2.1.1 p hmem
    omega
  have heq := (List.append_cons_inj_of_notMem hbefore hafter).1 (hcs.symm.trans hcs')
  exact (List.cons.inj heq.2.2).1

/-- What composing puts behind the node tells which place it is. -/
theorem exposes_iff_of_next (hp : doc.parse = .ok c) (hline : u.TakesLine doc.text) (ht : t ∈ nodesAll c.tree.children)
    (hk : t.kind.inMarkup = false) (hmarkup : t.hasMarkup = true) {before after : List Tree}
    (hcs : t.children = before ++ p :: n :: after) (hends : u.Ends p) :
    ¬ c.EndsArgument u ∧ (c.Exposes u ↔ n.isToken c.source ['\x7d'] = false ∧
      '\n' ∉ (Span.mk p.span.stop n.span.start).text c.source) := by
  obtain ⟨htnode, _, x, _, -, hx⟩ := parse_below hp ht
  have hpmem : p ∈ t.children := by simp [hcs]
  have hlt := stop_lt_of_next hp ht hcs hline hends
  have hargument : ¬ c.EndsArgument u := by
    rintro ⟨s, hs, hsk, e, he, hek, hue⟩
    have hlt' := parse_braces hp hs hsk he (by rw [hek]; decide)
    obtain ⟨rfl, -⟩ := place_unique hp hline (mem_below_of_ne hp hs (by rw [hsk]; decide)) ht he hpmem hue hends
      (by rw [hue.2]; exact hlt') hlt
    rw [hsk] at hk
    cases hk
  refine ⟨hargument, fun h => ?_, fun h => .inr ?_⟩
  · obtain ⟨s, hs, hsk, -, before', p', n', after', hcs', hup', hbrace, hfeed⟩ := h.resolve_left hargument
    have hbelow := mem_below_of_ne hp hs hsk
    obtain ⟨rfl, rfl⟩ := place_unique hp hline hbelow ht (by simp [hcs']) hpmem hup' hends
      (stop_lt_of_next hp hbelow hcs' hline hup') hlt
    obtain ⟨_, _, hp', -⟩ := spread_child hx hpmem
    have hspan := span_below hp' hends.1
    have := hline.solid
    obtain rfl := next_unique hx (by omega) hcs hcs'
    exact ⟨hbrace, hfeed⟩
  · exact ⟨t, htnode, kind_ne_program_of_spread hx, hmarkup, before, p, n, after, hcs, hends, h⟩

end Places

/-! ## What is written behind multiline strings -/

/-- Behind a multiline string the line ends, unless the string is exposed; behind an argument a parenthesis stands. -/
def multilineWatch (c : Cst) : Watch where
  sees u := u.isMultiline c.source = true
  allows u x := ((x = '\n' ∨ x = '\r') ↔ ¬ c.Exposes u) ∧ (c.EndsArgument u → x = ')')

theorem multilineWatch_allowsBreak {u : Tree} : (multilineWatch c).AllowsBreak u ↔ ¬ c.Exposes u := by
  refine ⟨fun h => h.1.1.1 (.inl rfl), fun h => ?_⟩
  have hargument : ∀ x, c.EndsArgument u → x = ')' := fun x ha => absurd (.inl ha) h
  exact ⟨⟨iff_of_true (.inl rfl) h, hargument _⟩, iff_of_true (.inr rfl) h, hargument _⟩

theorem takesLine_of_ends (hp : doc.parse = .ok c) {t u : Tree} (ht : t ∈ nodesAll c.tree.children)
    (hm : u.isMultiline c.source = true) (hends : u.Ends t) : u.TakesLine doc.text :=
  parse_multiline hp (parse_below hp (mem_below ht hends.1)).1 (by rw [← parse_source hp]; exact hm)

theorem endsWithComment_of_multiline (hp : doc.parse = .ok c) {t u : Tree} (ht : t ∈ nodesAll c.tree.children)
    (hm : u.isMultiline c.source = true) (hends : u.Ends t) : t.endsWithComment c.source = false := by
  have hk : u.kind = .literal := by
    simp only [isMultiline, Bool.and_eq_true, beq_iff_eq] at hm
    exact hm.1
  rw [endsWithComment, lastLeaf_of_ends hp (takesLine_of_ends hp ht hm hends) ht hends, hk]

theorem isToken_of_multiline (hp : doc.parse = .ok c) {t u : Tree} (ht : t ∈ nodesAll c.tree.children)
    (hm : u.isMultiline c.source = true) (hends : u.Ends t) (w : Text) : t.isToken c.source w = false := by
  refine Bool.eq_false_iff.2 fun htoken => ?_
  simp only [isToken, Bool.and_eq_true, beq_iff_eq] at htoken
  refine not_takesLine_of_leaf hp ht ?_ ?_ ?_ hends.1 (takesLine_of_ends hp ht hm hends) <;> rw [htoken.1] <;> decide

/-- **Composed code behind a multiline string** begins with a line end, or with a space. -/
theorem joint_of_multiline (hp : doc.parse = .ok c) {t p n u : Tree} (ht : t ∈ nodesAll c.tree.children)
    (hk : t.kind.inMarkup = false) (he : t.kind ≠ .element) {before after : List Tree}
    (hcs : t.children = before ++ p :: n :: after) (hm : u.isMultiline c.source = true) (hends : u.Ends p) :
    (∃ gap rest, joint c.source p n = lineBreak c.source gap ++ rest ∧ ¬ (n.isToken c.source ['\x7d'] = false ∧
        '\n' ∉ (Span.mk p.span.stop n.span.start).text c.source)) ∨
      joint c.source p n = [' '] ∧ n.isToken c.source ['\x7d'] = false ∧
        '\n' ∉ (Span.mk p.span.stop n.span.start).text c.source := by
  have hpmem : p ∈ t.children := by simp [hcs]
  have hnmem : n ∈ t.children := by simp [hcs]
  obtain ⟨htnode, -⟩ := parse_below hp ht
  obtain ⟨hnnode, _, x, _, -, hx⟩ := parse_below hp (child_below ht hnmem)
  obtain ⟨a, g, b, hsrc, -, hpstop, hnstart⟩ := exists_gap_of_parse hp htnode hcs
  have hgap : (Span.mk p.span.stop n.span.start).text c.source = g := by
    rw [parse_source hp]
    exact Span.text_append hsrc hpstop hnstart
  -- the line ends behind the string, and nothing outside of markup begins there
  have hg : g ≠ [] := by
    rintro rfl
    obtain ⟨pre, y, v, rest, hsrc', hspan, -, hrest⟩ := (takesLine_of_ends hp (child_below ht hpmem) hm hends).place
    have hbytes : bytes (pre ++ y :: v) = n.span.start := by
      rw [hnstart, Text.bytes_nil, Nat.add_zero, ← hpstop, ← hends.2, hspan, Text.bytes_append]
    exact parse_begins hp hnnode (parse_outside hp htnode hk he hnmem) (kind_ne_program_of_spread hx)
      (by rw [hsrc', List.append_assoc]) hbytes hrest
  have hbreaks : breaksLine c.source g p n = (n.isToken c.source ['\x7d'] || g.contains '\n') := by
    rw [breaksLine, isToken_of_multiline hp (child_below ht hpmem) hm hends,
      isToken_of_multiline hp (child_below ht hpmem) hm hends,
      endsWithComment_of_multiline hp (child_below ht hpmem) hm hends]
    simp
  rw [hgap, joint_eq (by rw [parse_source hp]; exact hsrc) hpstop hnstart, hbreaks]
  split
  · next h =>
    refine .inl ⟨g, _, rfl, fun hjoined => ?_⟩
    simp [hjoined.1, hjoined.2] at h
  · next h =>
    rw [if_neg (by simpa using hg)]
    refine .inr ⟨rfl, ?_⟩
    simpa using h

theorem multilineWatch_lawful (hp : doc.parse = .ok c) : (multilineWatch c).Lawful doc c where
  takesLine u hu hm := parse_multiline hp hu (by rw [← parse_source hp]; exact hm)
  inside t ht hk hmarkup u hu hm hstop := by
    have hline := parse_multiline hp (nodes_trans hu ht) (by rw [← parse_source hp]; exact hm)
    exact multilineWatch_allowsBreak.2 (not_exposes_inside hp hline ht hk hmarkup hu hstop)
  top t ht u hm hends :=
    multilineWatch_allowsBreak.2 (not_exposes_top hp (takesLine_of_ends hp (top_below ht) hm hends) ht hends)
  between t ht hk he hmarkup before p n after hcs u hm hends := by
    have hpmem : p ∈ t.children := by simp [hcs]
    obtain ⟨hargument, hiff⟩ := exposes_iff_of_next hp (takesLine_of_ends hp (child_below ht hpmem) hm hends) ht hk hmarkup
      hcs hends
    rcases joint_of_multiline hp ht hk he hcs hm hends with ⟨gap, rest, hjoint, hnot⟩ | ⟨hjoint, hexposed⟩
    · have hallows := multilineWatch_allowsBreak.2 (mt hiff.1 hnot)
      rw [hjoint]
      rcases lineBreak_cases c.source gap with h | h <;> rw [h]
      · exact ⟨_, _, rfl, hallows.2⟩
      · exact ⟨_, _, rfl, hallows.1⟩
    · refine ⟨' ', [], hjoint, iff_of_false (by decide) ?_, fun ha => absurd ha hargument⟩
      exact not_not.2 (hiff.2 hexposed)
  argument t ht hk e he hek u hm hends := by
    have ha : c.EndsArgument u := ⟨t, (parse_below hp ht).1, hk, e, he, hek, hends⟩
    rw [endsWithComment_of_multiline hp (child_below ht he) hm hends, if_neg Bool.false_ne_true]
    exact ⟨iff_of_false (by decide) (not_not.2 (.inl ha)), fun _ => rfl⟩

/-- **Which multiline strings take up output.**  Wherever a multiline string of a document is copied to its translation,
its line ends right behind it there, or the output does, exactly if the string is not exposed.  Behind one that ends an
argument stands the parenthesis that closes the call. -/
theorem translate_multiline_strings {settings : Settings} {output : Text}
    (h : (doc.translate settings).result = .ok output) :
    ∃ c, doc.parse = .ok c ∧ texts doc.text (c.patches settings) = output ∧
      ∀ before s after, c.patches settings = before ++ .copied s :: after → ∀ u ∈ c.tree.nodes,
        u.isMultiline doc.text = true → s.start ≤ u.span.start → u.span.stop ≤ s.stop →
          ∃ a rest, output = texts doc.text before ++ (a ++ (u.text doc.text ++ rest)) ∧
            bytes a = u.span.start - s.start ∧ ((∀ x ∈ rest.head?, x = '\n' ∨ x = '\r') ↔ ¬ c.Exposes u) ∧
            (c.EndsArgument u → rest.head? = some ')') := by
  obtain ⟨c, hp, rfl⟩ := translate_patches h
  rw [← parse_source hp]
  refine ⟨c, hp, rfl, fun before s after hpatches u hu hm hstart hstop => ?_⟩
  obtain ⟨a, rest, houtput, ha, hnext, hempty⟩ :=
    (multilineWatch_lawful hp).exists_behind hp hpatches hu hm hstart hstop
  refine ⟨a, rest, houtput, ha, ?_⟩
  cases rest with
  | nil =>
    have hsafe := multilineWatch_allowsBreak.1 (hempty rfl)
    exact ⟨iff_of_true (by simp) hsafe, fun hargument => absurd (.inl hargument) hsafe⟩
  | cons x rest =>
    obtain ⟨hiff, hargument⟩ := hnext x rfl
    refine ⟨Iff.trans ⟨fun hall => hall x rfl, fun hx y hy => ?_⟩ hiff, fun hends => ?_⟩
    · cases hy
      exact hx
    · rw [hargument hends]
      rfl

/-- A multiline string in composed code. -/
def listedString : Document := ⟨"a.mbx", "[<br/>, #|x\n]".toList⟩

theorem translate_multiline_strings_listed : ∃ c output, listedString.parse = .ok c ∧
    (listedString.translate {}).result = .ok output ∧ output = "[h(\"br\", [], []), #|x\n]\n".toList ∧
    ∃ before s after, c.patches {} = before ++ .copied s :: after ∧ ∃ u ∈ c.tree.nodes,
      u.isMultiline listedString.text = true ∧ u.text listedString.text = "#|x".toList ∧
      ∃ a rest, output = texts listedString.text before ++ (a ++ (u.text listedString.text ++ rest)) ∧
        bytes a = u.span.start - s.start ∧ ((∀ x ∈ rest.head?, x = '\n' ∨ x = '\r') ↔ ¬ c.Exposes u) ∧
        (c.EndsArgument u → rest.head? = some ')') := by
  have houtput : (listedString.translate {}).result.toOption = some "[h(\"br\", [], []), #|x\n]\n".toList := by
    decide +kernel
  cases hresult : (listedString.translate {}).result with
  | error d =>
    rw [hresult] at houtput
    cases houtput
  | ok output =>
    rw [hresult] at houtput
    obtain ⟨c, hparse, -, hall⟩ := translate_multiline_strings hresult
    have hfound : (listedString.parse.toOption.any fun c => c.copies {} fun u =>
        u.isMultiline listedString.text && u.text listedString.text == "#|x".toList) = true := by decide +kernel
    rw [hparse] at hfound
    obtain ⟨before, s, after, hpatches, u, hu, hq, hstart, hstop⟩ := exists_copied hfound
    simp only [Bool.and_eq_true, beq_iff_eq] at hq
    exact ⟨c, output, hparse, rfl, Option.some.inj houtput, before, s, after, hpatches, u, hu, hq.1, hq.2,
      hall before s after hpatches u hu hq.1 hstart hstop⟩

/-- A multiline string as the value of an attribute. -/
def givenString : Document := ⟨"a.mbx", "<a b=\x7b#|x\n\x7d/>".toList⟩

/-- **A multiline string at the end of an argument** takes up the rest of the call. -/
theorem translate_string_takes_call : ∃ c u, givenString.parse = .ok c ∧ u ∈ c.tree.nodes ∧
    u.isMultiline givenString.text = true ∧ u.text givenString.text = "#|x".toList ∧ c.EndsArgument u ∧
    (givenString.translate {}).result.toOption =
      some ("h(\"a\", [attr(\"b\", ".toList ++ ("#|x".toList ++ ")], [])\n".toList)) := by
  have hfound : (givenString.parse.toOption.any fun c => c.tree.nodes.any fun t => t.kind == .interpolation &&
      t.children.any fun e => e.kind == .expression && e.nodes.any fun u => u.isMultiline givenString.text &&
        u.text givenString.text == "#|x".toList && u.span.stop == e.span.stop) = true := by decide +kernel
  cases hparse : givenString.parse with
  | error d =>
    rw [hparse] at hfound
    cases hfound
  | ok c =>
    rw [hparse] at hfound
    obtain ⟨t, ht, hfound⟩ := List.any_eq_true.1 (show (c.tree.nodes.any _) = true from hfound)
    obtain ⟨htk, hfound⟩ := Bool.and_eq_true_iff.1 hfound
    obtain ⟨e, he, hfound⟩ := List.any_eq_true.1 hfound
    obtain ⟨hek, hfound⟩ := Bool.and_eq_true_iff.1 hfound
    obtain ⟨u, hu, hfound⟩ := List.any_eq_true.1 hfound
    simp only [Bool.and_eq_true, beq_iff_eq] at htk hek hfound
    exact ⟨c, u, rfl, nodes_trans (mem_of_child he hu) ht, hfound.1.1, hfound.1.2,
      ⟨t, ht, htk, e, he, hek, hu, hfound.2⟩, by decide +kernel⟩

-- a carriage return alone behind the string
example : (Document.translate ⟨"a.mbx", "[<br/>, #|x\r]".toList⟩ {}).result.toOption =
    some "[h(\"br\", [], []), #|x ]\n".toList := by decide +kernel

end InlineMarkup
