import InlineMarkup.Proofs.Copies
import InlineMarkup.Proofs.HostCode
import InlineMarkup.Proofs.LineEnds
import InlineMarkup.Proofs.TagCheck
/-!
# Proofs.LineTails — what is written behind leaves that take the rest of their line

A leaf that takes the rest of its line takes whatever is written behind it, up to the next line end.  Which character
may stand there is a matter of the leaf (`Watch`).  Each step of lowering has a place where a leaf can end what is copied:
between composed siblings, at the end of an argument, and at the end of an item.  Where the watch allows what is written
there (`Watch.Lawful`), it allows what stands behind its leaves in the whole output (`Watch.Lawful.patches`).
-/
namespace InlineMarkup

open Lowering Patch
open Text (bytes isBlank)

namespace Tree

/-! ## Nodes in the span of others -/

variable {G : Gaps} {t u : Tree}

theorem mem_of_child {p : Tree} (hp : p ∈ t.children) (hu : u ∈ p.nodes) : u ∈ t.nodes :=
  mem_nodes_iff.2 (.inr ⟨p, hp, hu⟩)

mutual

/-- **Nodes that overlap** stand one below the other. -/
theorem Spread.comparable (hstart : t.span.start < u.span.stop) (hstop : u.span.start < t.span.stop) :
    ∀ {r : Tree} {off : Nat} {x : Text}, Spread G off x r → t ∈ r.nodes → u ∈ r.nodes → u ∈ t.nodes ∨ t ∈ u.nodes
  | .node k s cs, off, x, h, ht, hur => by
    rcases mem_nodes_iff.1 ht with rfl | htcs
    · exact .inl hur
    rcases mem_nodes_iff.1 hur with rfl | hucs
    · exact .inr ht
    rcases h.children with ⟨-, hnil⟩ | ⟨-, hcs⟩
    · obtain ⟨d, hd, -⟩ := htcs
      rw [hnil] at hd
      cases hd
    · exact SpreadAll.comparable hstart hstop hcs (mem_nodesAll.2 htcs) (mem_nodesAll.2 hucs)

theorem SpreadAll.comparable (hstart : t.span.start < u.span.stop) (hstop : u.span.start < t.span.stop) :
    ∀ {rs : List Tree} {off : Nat} {x : Text}, SpreadAll G off x rs → t ∈ nodesAll rs → u ∈ nodesAll rs →
    u ∈ t.nodes ∨ t ∈ u.nodes
  | r :: rs, off, _, h, ht, hur => by
    rw [SpreadAll] at h
    obtain ⟨g, v, w, rfl, -, hr, hrs⟩ := h
    -- a node among the later trees begins where the first one has ended
    have hlater : ∀ d ∈ nodesAll rs, r.span.stop ≤ d.span.start := by
      intro d hd
      obtain ⟨pre, y, post, -, hy⟩ := hrs.below hd
      rw [hr.span, hy.span]
      exact Nat.le_add_right _ _
    rw [nodesAll, List.mem_append] at ht hur
    rcases ht with ht | ht <;> rcases hur with hur | hur
    · exact Spread.comparable hstart hstop hr ht hur
    · have := hlater u hur
      have := (span_below hr ht).2
      omega
    · have := hlater t ht
      have := (span_below hr hur).2
      omega
    · exact SpreadAll.comparable hstart hstop hrs ht hur

end

theorem Spread.ordered {off : Nat} {x : Text} (h : Spread G off x t) :
    t.children.Pairwise fun p q => p.span.stop ≤ q.span.start := by
  rcases h.children with ⟨-, hnil⟩ | ⟨-, hcs⟩
  · rw [hnil]
    exact .nil
  · exact hcs.ordered

theorem Spread.child_unique {off : Nat} {x : Text} (h : Spread G off x t) (hu : u.span.start < u.span.stop) {p q : Tree}
    (hp : p ∈ t.children) (hq : q ∈ t.children) (hup : u ∈ p.nodes) (huq : u ∈ q.nodes) : p = q := by
  obtain ⟨_, _, hp', -⟩ := spread_child h hp
  obtain ⟨_, _, hq', -⟩ := spread_child h hq
  have hup := span_below hp' hup
  have huq := span_below hq' huq
  obtain ⟨before, after, hsplit⟩ := List.append_of_mem hp
  have hordered := h.ordered
  rw [hsplit, List.pairwise_append, List.pairwise_cons] at hordered
  rw [hsplit, List.mem_append, List.mem_cons] at hq
  rcases hq with hq | rfl | hq
  · have := hordered.2.2 q hq p List.mem_cons_self
    omega
  · rfl
  · have := hordered.2.1.1 q hq
    omega

theorem lastLeafOf?_eq (ts : List Tree) : lastLeafOf? ts = ts.getLast?.map lastLeaf := by
  induction ts with
  | nil => rfl
  | cons t ts ih =>
    rw [lastLeafOf?, ih, List.getLast?_cons]
    cases ts.getLast? <;> rfl

theorem lastLeaf_of_getLast? {d : Tree} (h : t.children.getLast? = some d) : t.lastLeaf = d.lastLeaf := by
  obtain ⟨k, s, cs⟩ := t
  have h : cs.getLast? = some d := h
  rw [lastLeaf, lastLeafOf?_eq, h]
  rfl

theorem lastLeaf_of_leaf (h : t.children = []) : t.lastLeaf = t := by
  obtain ⟨k, s, cs⟩ := t
  obtain rfl : cs = [] := h
  rfl

theorem Spread.last_stop {off : Nat} {x : Text} (h : Spread blankGaps off x t) {d : Tree}
    (hd : t.children.getLast? = some d) : d.span.stop = t.span.stop := by
  obtain ⟨k, s, cs⟩ := t
  have hlast : cs.getLast? = some d := hd
  rw [Spread] at h
  obtain ⟨rfl, hleaf, hinner⟩ := h
  cases hl : k.isLeaf with
  | true =>
    rw [hleaf hl] at hlast
    cases hlast
  | false =>
    obtain ⟨⟨-, -, hcloses⟩, hcs⟩ := hinner hl
    have hstop := hcs.last hcloses
    rwa [lastStop, hlast] at hstop

/-- The node `u` stands at the end of the tree. -/
def Ends (u t : Tree) : Prop := u ∈ t.nodes ∧ u.span.stop = t.span.stop

end Tree

open InlineMarkup.Tree

variable {doc : Document} {c : Cst}

theorem parse_below (hp : doc.parse = .ok c) {t : Tree} (ht : t ∈ nodesAll c.tree.children) :
    t ∈ c.tree.nodes ∧ ∃ pre x post, doc.text = pre ++ (x ++ post) ∧ Spread blankGaps (bytes pre) x t := by
  refine ⟨mem_nodes_iff.2 (.inr (mem_nodesAll.1 ht)), ?_⟩
  obtain ⟨cs, htree, hcs⟩ := parse_spread hp
  rw [htree] at ht
  obtain ⟨pre, x, post, hsrc, hx⟩ := hcs.below ht
  exact ⟨pre, x, post, hsrc, by rwa [Nat.zero_add] at hx⟩

theorem mem_below {t d : Tree} (ht : t ∈ nodesAll c.tree.children) (hd : d ∈ t.nodes) : d ∈ nodesAll c.tree.children := by
  obtain ⟨e, he, hte⟩ := mem_nodesAll.1 ht
  exact mem_nodesAll.2 ⟨e, he, nodes_trans hd hte⟩

theorem child_below {t d : Tree} (ht : t ∈ nodesAll c.tree.children) (hd : d ∈ t.children) :
    d ∈ nodesAll c.tree.children :=
  mem_below ht (mem_of_child hd (mem_nodes_self d))

theorem child?_below {t d : Tree} {k : Kind} (ht : t ∈ nodesAll c.tree.children) (hd : t.child? k = some d) :
    d ∈ t.children ∧ d ∈ nodesAll c.tree.children ∧ d.kind = k :=
  ⟨List.mem_of_find?_eq_some hd, child_below ht (List.mem_of_find?_eq_some hd),
    beq_iff_eq.1 (List.find?_some (p := fun c : Tree => c.kind == k) hd)⟩

theorem top_below {t : Tree} (ht : t ∈ c.tree.children) : t ∈ nodesAll c.tree.children :=
  mem_nodesAll.2 ⟨t, ht, mem_nodes_self t⟩

theorem kind_ne_program_of_spread {off : Nat} {x : Text} {t : Tree} (h : Spread blankGaps off x t) : t.kind ≠ .program := by
  obtain ⟨k, s, cs⟩ := t
  rw [Spread] at h
  rintro hk
  have hk : k = .program := hk
  subst hk
  exact (h.2.2 rfl).1.1 rfl

theorem parse_program (hp : doc.parse = .ok c) : c.tree.kind = .program := by
  obtain ⟨cs, htree, -⟩ := parse_spread hp
  rw [htree]
  rfl

theorem parse_item (hp : doc.parse = .ok c) {t : Tree} (ht : t ∈ c.tree.children) : t.kind.inMarkup = false := by
  have hk := parse_program hp
  exact parse_outside hp (mem_nodes_self _) (by rw [hk]; rfl) (by rw [hk]; decide) ht

/-- **At the end of a line nothing begins** at the top of a document. -/
theorem parse_top (hp : doc.parse = .ok c) {t : Tree} (ht : t ∈ c.tree.children) {pre rest : Text}
    (hsrc : doc.text = pre ++ rest) (hpre : bytes pre = t.span.start) : ¬ rest.EndsLine := by
  obtain ⟨htnode, _, x, _, -, hx⟩ := parse_below hp (top_below ht)
  exact parse_begins hp htnode (parse_item hp ht) (kind_ne_program_of_spread hx) hsrc hpre

/-! ## The end of a node -/

section TakesLine

variable {t u : Tree}

theorem leaf_of_takesLine (hp : doc.parse = .ok c) (hu : u ∈ c.tree.nodes) (hline : u.TakesLine doc.text) :
    u.children = [] := by
  refine (parse_shaped hp u hu).leaf ?_
  rcases hline.kind with hk | hk <;> rw [hk] <;> rfl

/-- Other leaves hold none of those that take their line. -/
theorem not_takesLine_of_leaf (hp : doc.parse = .ok c) (ht : t ∈ nodesAll c.tree.children) (hl : t.kind.isLeaf = true)
    (hcomment : t.kind ≠ .comment) (hliteral : t.kind ≠ .literal) (hu : u ∈ t.nodes) : ¬ u.TakesLine doc.text := by
  intro hline
  rcases mem_nodes_iff.1 hu with rfl | ⟨d, hd, -⟩
  · exact hline.kind.elim hcomment hliteral
  · rw [(parse_shaped hp t (parse_below hp ht).1).leaf hl] at hd
    cases hd

theorem not_takesLine_of_quoted (hp : doc.parse = .ok c) (ht : t ∈ nodesAll c.tree.children) (hk : t.kind = .attributeValue)
    (hu : u ∈ t.nodes) : ¬ u.TakesLine doc.text := by
  intro hline
  rcases mem_nodes_iff.1 hu with rfl | ⟨d, hd, hud⟩
  · rcases hline.kind with huk | huk <;> rw [hk] at huk <;> cases huk
  · refine not_takesLine_of_leaf hp (child_below ht hd) ?_ ?_ ?_ hud hline <;>
      rcases parse_quoted hp (parse_below hp ht).1 hk d hd with hdk | hdk <;> rw [hdk] <;> decide

/-- The last child of a node holds the leaf at its end. -/
theorem ends_last (hp : doc.parse = .ok c) (ht : t ∈ nodesAll c.tree.children) (hu : u ∈ nodesAll t.children)
    (hline : u.TakesLine doc.text) (hstop : u.span.stop = t.span.stop) :
    ∃ d, t.children.getLast? = some d ∧ u.Ends d := by
  obtain ⟨e, he, hue⟩ := mem_nodesAll.1 hu
  obtain ⟨d, hd⟩ := Option.ne_none_iff_exists'.1 fun hnone : t.children.getLast? = none => by
    rw [List.getLast?_eq_none_iff.1 hnone] at he
    cases he
  obtain ⟨init, hinit⟩ := List.getLast?_eq_some_iff.1 hd
  have hdmem : d ∈ t.children := List.mem_of_getLast? hd
  obtain ⟨htnode, _, x, _, -, hx⟩ := parse_below hp ht
  obtain ⟨-, _, y, _, -, hy⟩ := parse_below hp (child_below ht he)
  obtain ⟨hdnode, _, z, _, -, hz⟩ := parse_below hp (child_below ht hdmem)
  obtain ⟨_, _, -, -, hdstop⟩ := spread_child hx hdmem
  have hustop := (span_below hy hue).2
  have hdspan : d.span.start ≤ d.span.stop := by
    rw [hz.span]
    exact Nat.le_add_right _ _
  rcases List.mem_append.1 (hinit ▸ he) with hbefore | hlast
  · exfalso
    have horder : e.span.stop ≤ d.span.start := by
      have hpairs := hx.ordered
      rw [hinit, List.pairwise_append] at hpairs
      exact hpairs.2.2 e hbefore d (List.mem_singleton_self d)
    -- behind the leaf its line ends, and there only the content of a value can be empty
    obtain ⟨pre, y, v, rest, hsrc, hspan, -, hrest⟩ := hline.place
    have hustart : u.span.stop = bytes pre + bytes (y :: v) := by rw [hspan]
    have hsrc : doc.text = (pre ++ y :: v) ++ rest := by rw [hsrc, List.append_assoc]
    have hempty := parse_empty hp hdnode (by omega) hsrc (by rw [Text.bytes_append]; omega) hrest
    rcases hempty with hcontent | hprogram
    · have hvalue := parse_content hp htnode hdmem hcontent
      exact not_takesLine_of_quoted hp ht hvalue (mem_of_child he hue) hline
    · exact kind_ne_program_of_spread hz hprogram
  · obtain rfl := List.mem_singleton.1 hlast
    exact ⟨e, hd, hue, by omega⟩

/-- **The leaf at the end is the last one.** -/
theorem lastLeaf_of_ends (hp : doc.parse = .ok c) (hline : u.TakesLine doc.text) (ht : t ∈ nodesAll c.tree.children)
    (h : u.Ends t) : t.lastLeaf = u := by
  obtain ⟨n, hn⟩ : ∃ n, t.height = n := ⟨_, rfl⟩
  induction n using Nat.strongRecOn generalizing t with
  | ind n ih =>
    subst hn
    rcases mem_nodes_iff.1 h.1 with rfl | hucs
    · exact lastLeaf_of_leaf (leaf_of_takesLine hp (parse_below hp ht).1 hline)
    · obtain ⟨d, hd, hends⟩ := ends_last hp ht (mem_nodesAll.2 hucs) hline h.2
      have hmem := List.mem_of_getLast? hd
      rw [lastLeaf_of_getLast? hd]
      exact ih d.height (height_lt hmem) (child_below ht hmem) hends rfl

theorem mem_of_covers (hp : doc.parse = .ok c) (hu : u ∈ c.tree.nodes) (hline : u.TakesLine doc.text)
    (ht : t ∈ nodesAll c.tree.children) (hstart : t.span.start ≤ u.span.start) (hstop : u.span.stop ≤ t.span.stop) :
    u ∈ t.nodes := by
  have hsolid := hline.solid
  rcases (parse_loose hp).comparable (t := t) (u := u) (by omega) (by omega) (parse_below hp ht).1 hu with hut | htu
  · exact hut
  · rcases mem_nodes_iff.1 htu with rfl | ⟨d, hd, -⟩
    · exact mem_nodes_self t
    · rw [leaf_of_takesLine hp hu hline] at hd
      cases hd

end TakesLine

/-! ## Watched leaves -/

/-- Which leaves are watched, and which characters may be written right behind each of them. -/
structure Watch where
  sees : Tree → Prop
  allows : Tree → Char → Prop

namespace Watch

/-- A line may end behind the leaf. -/
def AllowsBreak (W : Watch) (u : Tree) : Prop := W.allows u '\n' ∧ W.allows u '\r'

/-- In what is copied and what follows, the leaf `u` of the copied span has an allowed character behind it, or nothing
and `B` holds. -/
def Closed (W : Watch) (source : Text) (s : Span) (u : Tree) (after : Text) (B : Tree → Prop) : Prop :=
  ∃ a b, s.text source = a ++ (u.span.text source ++ b) ∧ bytes a = u.span.start - s.start ∧
    (∀ x ∈ (b ++ after).head?, W.allows u x) ∧ (b ++ after = [] → B u)

/-- Every watched leaf that the patches copy has an allowed character behind it; if it ends them, `B` holds of it. -/
def Held (W : Watch) (c : Cst) (B : Tree → Prop) (ps : List Patch) : Prop :=
  ∀ before s after, ps = before ++ .copied s :: after → ∀ u ∈ c.tree.nodes, W.sees u →
    s.start ≤ u.span.start → u.span.stop ≤ s.stop → W.Closed c.source s u (texts c.source after) B

/-- The watch allows what lowering writes: line ends behind leaves that the source has before them, the joints between
composed siblings, and what closes an argument. -/
structure Lawful (W : Watch) (doc : Document) (c : Cst) : Prop where
  takesLine : ∀ u ∈ c.tree.nodes, W.sees u → u.TakesLine doc.text
  inside : ∀ t ∈ c.tree.nodes, t.kind.inMarkup = false → t.hasMarkup = false → ∀ u ∈ t.nodes, W.sees u →
    t.kind = .program ∨ u.span.stop ≠ t.span.stop → W.AllowsBreak u
  top : ∀ t ∈ c.tree.children, ∀ u, W.sees u → u.Ends t → W.AllowsBreak u
  between : ∀ t ∈ nodesAll c.tree.children, t.kind.inMarkup = false → t.kind ≠ .element → t.hasMarkup = true →
    ∀ before p n after, t.children = before ++ p :: n :: after → ∀ u, W.sees u → u.Ends p →
      ∃ x rest, joint c.source p n = x :: rest ∧ W.allows u x
  argument : ∀ t ∈ nodesAll c.tree.children, t.kind = .interpolation → ∀ e ∈ t.children, e.kind = .expression →
    ∀ u, W.sees u → u.Ends e →
      if e.endsWithComment c.source then W.AllowsBreak u else W.allows u ')'

end Watch

variable {W : Watch}

theorem allows_of_endsLine {u : Tree} (h : W.AllowsBreak u) {t : Text} (ht : t.EndsLine) :
    ∀ x ∈ t.head?, W.allows u x := by
  intro x hx
  rcases ht x hx with rfl | rfl
  · exact h.1
  · exact h.2

theorem Text.EndsLine.left {t u : Text} (h : (t ++ u).EndsLine) : t.EndsLine := by
  cases t with
  | nil => simp [EndsLine]
  | cons x t => exact h

theorem endsLine_lineBreak (source gap rest : Text) : (lineBreak source gap ++ rest).EndsLine := by
  rcases lineBreak_cases source gap with h | h <;> rw [h] <;> simp [Text.EndsLine]

namespace Watch.Held

variable {B B' : Tree → Prop} {ps qs : List Patch}

theorem nil : W.Held c B [] := by
  intro before s after h
  simp at h

theorem made (t : Text) : W.Held c B [.made t] := by
  intro before s after h
  cases before with
  | nil => cases h
  | cons p before => simp at h

theorem append (h : W.Held c B ps) (h' : W.Held c B' qs) (hB : ∀ u, W.sees u → B u →
    (∀ x ∈ (texts c.source qs).head?, W.allows u x) ∧ (texts c.source qs = [] → B' u)) : W.Held c B' (ps ++ qs) := by
  intro before s after heq u hu hk hstart hstop
  rcases List.append_eq_append_iff.1 heq with ⟨more, rfl, hqs⟩ | ⟨more, hps, hafter⟩
  · exact h' more s after hqs u hu hk hstart hstop
  · cases more with
    | nil => exact h' [] s after hafter.symm u hu hk hstart hstop
    | cons p more =>
      rw [List.cons_append] at hafter
      obtain ⟨rfl, rfl⟩ := List.cons.inj hafter
      obtain ⟨a, b, htext, ha, hnext, hempty⟩ := h before s more hps u hu hk hstart hstop
      refine ⟨a, b, htext, ha, ?_⟩
      rw [texts_append, ← List.append_assoc]
      cases hb : b ++ texts c.source more with
      | nil => exact hB u hk (hempty hb)
      | cons y rest =>
        rw [hb] at hnext
        exact ⟨hnext, fun hnil => by cases hnil⟩

theorem mono (h : W.Held c B ps) (hB : ∀ u, W.sees u → B u → B' u) : W.Held c B' ps := by
  intro before s after heq u hu hk hstart hstop
  obtain ⟨a, b, htext, ha, hnext, hempty⟩ := h before s after heq u hu hk hstart hstop
  exact ⟨a, b, htext, ha, hnext, fun hnil => hB u hk (hempty hnil)⟩

/-- Patches that no watched leaf ends can be followed by anything. -/
theorem andThen (h : W.Held c (fun _ => False) ps) (h' : W.Held c B qs) : W.Held c B (ps ++ qs) :=
  h.append h' fun _ _ hfalse => hfalse.elim

theorem joined : ∀ {pss : List (List Patch)} {ps : List Patch}, (∀ ps ∈ pss, W.Held c (fun _ => False) ps) →
    W.Held c B ps → W.Held c B (Patch.joined (pss ++ [ps]))
  | [], ps, _, hlast => hlast
  | [qs], ps, h, hlast => (h qs List.mem_cons_self).andThen ((made _).andThen hlast)
  | qs :: rs :: rest, ps, h, hlast => by
    have hrest : W.Held c B (Patch.joined (rs :: rest ++ [ps])) :=
      joined (fun ps hps => h ps (List.mem_cons_of_mem _ hps)) hlast
    exact (h qs List.mem_cons_self).andThen ((made _).andThen hrest)

theorem quoted (h : W.Held c (fun _ => False) ps) : W.Held c (fun _ => False) (Patch.quoted ps) :=
  (made _).andThen (h.andThen (made _))

/-- A closing parenthesis comes behind the last argument of a call. -/
theorem called (builder : Text) (args : List (List Patch)) {arg : List Patch}
    (h : ∀ ps ∈ args, W.Held c (fun _ => False) ps) (hlast : W.Held c (W.allows · ')') arg) :
    W.Held c (fun _ => False) (Patch.called builder (args ++ [arg])) := by
  refine (made _).andThen ((joined h hlast).append (made _) fun u _ hallows => ⟨fun x hx => ?_, fun hnil => ?_⟩)
  · cases hx
    exact hallows
  · cases hnil

theorem listed {items : List (List Patch)} (h : ∀ ps ∈ items, W.Held c (fun _ => False) ps) :
    W.Held c (fun _ => False) (Patch.listed items) := by
  refine (made _).andThen (andThen ?_ (made _))
  rcases List.eq_nil_or_concat' items with rfl | ⟨init, last, rfl⟩
  · exact nil
  · exact joined (fun ps hps => h ps (List.mem_append_left _ hps)) (h last (by simp))

/-- **A part of the source** that is copied: the line of a leaf inside it ends behind the leaf. -/
theorem copied (hp : doc.parse = .ok c) (hW : W.Lawful doc c) {s : Span} {p x q : Text} (hsrc : doc.text = p ++ (x ++ q))
    (hs : s = ⟨bytes p, bytes p + bytes x⟩)
    (hB : ∀ u ∈ c.tree.nodes, W.sees u → s.start ≤ u.span.start → u.span.stop ≤ s.stop →
      (u.span.stop = s.stop → B u) ∧ (u.span.stop ≠ s.stop → W.AllowsBreak u)) :
    W.Held c B [.copied s] := by
  intro before s' after heq u hu hk hstart hstop
  obtain ⟨rfl, rfl, rfl⟩ : before = [] ∧ s' = s ∧ after = [] := by
    cases before with
    | nil => simpa using heq.symm
    | cons y before => simp at heq
  obtain ⟨hend, hinside⟩ := hB u hu hk hstart hstop
  obtain ⟨pre, y, v, rest, hsrc', hspan, -, hrest⟩ := (hW.takesLine u hu hk).place
  rw [parse_source hp]
  rw [hspan, hs] at hstart hstop
  obtain ⟨a, rfl, hx⟩ := Text.append_eq_of_bytes_le (hsrc.symm.trans hsrc') hstart
  have hle : bytes (a ++ y :: v) ≤ bytes x := by
    simp only [Text.bytes_append] at hstop ⊢
    omega
  rw [← List.append_assoc] at hx
  obtain ⟨b, rfl, rfl⟩ := Text.append_eq_of_bytes_le hx.symm hle
  have hstops : u.span.stop = s'.stop ↔ b = [] := by
    rw [hspan, hs, ← Text.bytes_eq_zero]
    simp only [Text.bytes_append]
    omega
  refine ⟨a, b, ?_, ?_, ?_, fun hnil => hend (hstops.2 (by simpa using hnil))⟩
  · rw [Span.text_append hsrc (by rw [hs]) (by rw [hs]), Span.text_append hsrc' (by rw [hspan]) (by rw [hspan]),
      List.append_assoc]
  · rw [hspan, hs]
    simp
  · rw [texts_nil, List.append_nil]
    cases b with
    | nil => simp
    | cons z b => exact allows_of_endsLine (hinside fun hstop => by cases hstops.1 hstop) hrest.left

end Watch.Held

open Watch

/-! ## The steps of lowering -/

section Steps

variable (hp : doc.parse = .ok c) (hW : W.Lawful doc c)

include hp hW

theorem held_node {t : Tree} (ht : t ∈ nodesAll c.tree.children) (hk : t.kind.inMarkup = false)
    (hmarkup : t.hasMarkup = false) : W.Held c (·.Ends t) [.copied t.span] := by
  obtain ⟨htnode, pre, x, post, hsrc, hx⟩ := parse_below hp ht
  refine Held.copied hp hW hsrc hx.span fun u hu hsees hstart hstop => ?_
  have hmem := mem_of_covers hp hu (hW.takesLine u hu hsees) ht hstart hstop
  exact ⟨fun hend => ⟨hmem, hend⟩, fun hne => hW.inside t htnode hk hmarkup u hmem hsees (.inr hne)⟩

/-- Nodes without watched leaves are copied as they are. -/
theorem held_bare {t : Tree} (ht : t ∈ nodesAll c.tree.children) (hbare : ∀ u ∈ t.nodes, ¬ u.TakesLine doc.text) :
    W.Held c (fun _ => False) [.copied t.span] := by
  obtain ⟨-, pre, x, post, hsrc, hx⟩ := parse_below hp ht
  refine Held.copied hp hW hsrc hx.span fun u hu hsees hstart hstop => ?_
  have hline := hW.takesLine u hu hsees
  exact absurd hline (hbare u (mem_of_covers hp hu hline ht hstart hstop))

theorem held_copiedChild {t : Tree} (ht : t ∈ nodesAll c.tree.children) {k : Kind} (hl : k.isLeaf = true)
    (hcomment : k ≠ .comment) (hliteral : k ≠ .literal) : W.Held c (fun _ => False) (Writers.copiedChild t k) := by
  rw [Writers.copiedChild]
  cases hd : t.child? k with
  | none => exact Held.nil
  | some d =>
    obtain ⟨-, hmem, rfl⟩ := child?_below ht hd
    exact held_bare hp hW hmem fun u => not_takesLine_of_leaf hp hmem hl hcomment hliteral

omit hp in
/-- **Composed siblings**, the last of which may end in a watched leaf. -/
theorem held_woven {f : Tree → List Patch} {t : Tree} (ht : t ∈ nodesAll c.tree.children) (hk : t.kind.inMarkup = false)
    (he : t.kind ≠ .element) (hmarkup : t.hasMarkup = true) (hf : ∀ d ∈ t.children, W.Held c (·.Ends d) (f d)) :
    ∀ (before ts : List Tree), t.children = before ++ ts →
      W.Held c (fun u => ∃ d, ts.getLast? = some d ∧ u.Ends d) (woven c.source (ts.map fun d => (d, f d)))
  | _, [], _ => Held.nil
  | _, [d], hcs => by
    show W.Held c _ (f d ++ [])
    refine Held.append (hf d (by simp [hcs])) Held.nil fun u _ hends => ?_
    exact ⟨by simp, fun _ => ⟨d, rfl, hends⟩⟩
  | before, d :: n :: ts, hcs => by
    have hrest := held_woven ht hk he hmarkup hf (before ++ [d]) (n :: ts) (by simp [hcs])
    show W.Held c _ (f d ++ ([.made (joint c.source d n)] ++ woven c.source ((n :: ts).map fun d => (d, f d))))
    refine Held.append (hf d (by simp [hcs])) ((Held.made _).andThen hrest) fun u hsees hends => ?_
    obtain ⟨x, rest, hjoint, hallows⟩ := hW.between t ht hk he hmarkup before d n ts hcs u hsees hends
    simp only [texts_append, texts_cons, texts_nil, Patch.text, hjoint]
    refine ⟨fun y hy => ?_, fun hnil => by cases hnil⟩
    cases hy
    exact hallows

end Steps

/-- What the steps write for the nodes of the document holds its watched leaves. -/
structure Lowering.Writers.Holds (W : Watch) (c : Cst) (w : Writers) : Prop where
  compose : ∀ t ∈ nodesAll c.tree.children, t.kind.inMarkup = false → W.Held c (·.Ends t) (w.compose t)
  expression : ∀ t ∈ nodesAll c.tree.children, t.kind = .interpolation → ∀ e ∈ t.children, e.kind = .expression →
    W.Held c (W.allows · ')') (w.expression e)
  attr : ∀ t ∈ nodesAll c.tree.children, W.Held c (fun _ => False) (w.attr t)
  element : ∀ t ∈ nodesAll c.tree.children, W.Held c (fun _ => False) (w.element t)

namespace Lowering.Writers.Holds

variable {settings : Settings} {w below : Writers} {t : Tree}

theorem silent : Holds W c Writers.silent :=
  ⟨fun _ _ _ => .nil, fun _ _ _ _ _ _ => .nil, fun _ _ => .nil, fun _ _ => .nil⟩

section

variable (hp : doc.parse = .ok c) (hW : W.Lawful doc c)

include hp hW

theorem core (hw : Holds W c w) (settings : Settings) (ht : t ∈ nodesAll c.tree.children) (hk : t.kind.inMarkup = false) :
    W.Held c (·.Ends t) (w.core ⟨c.source, settings⟩ t) := by
  have hcore : unwrap c.source t ∈ nodesAll c.tree.children := mem_below ht (unwrapUpTo_mem _ _ t)
  rw [Writers.core]
  split
  · next hname =>
    refine (held_bare hp hW hcore fun u => not_takesLine_of_leaf hp hcore ?_ ?_ ?_).mono fun _ _ hfalse => hfalse.elim <;>
      rcases hname with hk | hk <;> rw [hk] <;> decide
  · split
    · exact (hw.element _ hcore).mono fun _ _ hfalse => hfalse.elim
    · split
      · exact hw.compose t ht hk
      · next hmarkup => exact held_node hp hW ht hk (Bool.eq_false_iff.2 hmarkup)

/-- An argument is closed by a parenthesis, and before it by a line end if it ends in a comment. -/
theorem argument (hw : Holds W c w) (ht : t ∈ nodesAll c.tree.children) (hk : t.kind = .interpolation) {e : Tree}
    (he : e ∈ t.children) (hek : e.kind = .expression) :
    W.Held c (W.allows · ')') (w.core ⟨c.source, settings⟩ e ++ closing ⟨c.source, settings⟩ e) := by
  have hallows := hW.argument t ht hk e he hek
  have hcore := hw.core hp hW settings (child_below ht he) (by rw [hek]; rfl)
  rw [Writers.closing]
  by_cases hends : e.endsWithComment c.source = true
  · simp only [hends, if_true] at hallows ⊢
    refine hcore.append (Held.made _) fun u hsees hend => ?_
    simp only [texts_cons, texts_nil, Patch.text, List.append_nil]
    refine ⟨allows_of_endsLine (hallows u hsees hend) (endsLine_lineBreak _ _ _), fun hnil => ?_⟩
    exact absurd (List.append_eq_nil_iff.1 hnil).1 (lineBreak_ne_nil _ _)
  · simp only [hends, if_false, List.append_nil, Bool.false_eq_true] at hallows ⊢
    exact hcore.mono hallows

theorem value (hw : Holds W c w) (ht : t ∈ nodesAll c.tree.children) :
    W.Held c (W.allows · ')') (w.value ⟨c.source, settings⟩ t) := by
  rw [Writers.value]
  split
  · next v hv =>
    obtain ⟨-, hmem, hk⟩ := child?_below ht hv
    rw [Writers.string]
    split
    · exact Held.made _
    · exact (held_bare hp hW hmem fun u => not_takesLine_of_quoted hp hmem hk).mono fun _ _ hfalse => hfalse.elim
  · next braces _ hbraces =>
    obtain ⟨-, hmem, hk⟩ := child?_below ht hbraces
    split
    · next e he =>
      obtain ⟨hchild, -, hek⟩ := child?_below hmem he
      exact hw.expression braces hmem hk e hchild hek
    · exact Held.made _
  · exact Held.made _

omit hp hW in
theorem child (hw : Holds W c w) (hbelow : Holds W c below) (ht : t ∈ nodesAll c.tree.children) :
    ∀ ps ∈ w.child ⟨c.source, settings⟩ below t, W.Held c (fun _ => False) ps := by
  intro ps hps
  unfold Writers.child at hps
  split at hps
  · obtain ⟨_, -, rfl⟩ := Option.map_eq_some_iff.1 hps
    exact Held.made _
  · cases hps
    exact hw.element t ht
  · next hk =>
    obtain ⟨e, he, rfl⟩ := Option.map_eq_some_iff.1 hps
    obtain ⟨hchild, hmem, hek⟩ := child?_below ht he
    split
    · exact hbelow.element _ (mem_below hmem (unwrapUpTo_mem _ _ e))
    · exact Held.called _ [] (fun ps hps => by cases hps) (hbelow.expression t ht hk e hchild hek)
  · cases hps

/-- **One more level.** -/
theorem next (hw : Holds W c w) (hbelow : Holds W c below) : Holds W c (w.next ⟨c.source, settings⟩ below) where
  compose t ht hk := by
    simp only [Writers.next]
    split
    · next hmarkup => exact held_node hp hW ht hk hmarkup
    · next hmarkup =>
      split
      · exact (hw.element t ht).mono fun _ _ hfalse => hfalse.elim
      · next he =>
        obtain ⟨htnode, _, x, _, -, hx⟩ := parse_below hp ht
        have hcs : ∀ d ∈ t.children, W.Held c (·.Ends d) (w.compose d) := fun d hd =>
          hw.compose d (child_below ht hd) (parse_outside hp htnode hk he hd)
        refine (held_woven hW ht hk he (by simpa using hmarkup) hcs [] t.children rfl).mono ?_
        rintro u - ⟨d, hd, hu, hstop⟩
        exact ⟨mem_of_child (List.mem_of_getLast? hd) hu, by rw [hstop, hx.last_stop hd]⟩
  expression t ht hk e he hek := hw.argument hp hW ht hk he hek
  attr t ht := by
    refine Held.called _ [_] (fun ps hps => ?_) (hw.value hp hW ht)
    rw [List.mem_singleton.1 hps]
    exact (held_copiedChild hp hW ht rfl (by decide) (by decide)).quoted
  element t ht := by
    simp only [Writers.next]
    split
    · exact Held.nil
    · next tag htag =>
      have hmem : tag ∈ nodesAll c.tree.children :=
        child_below ht (List.mem_reverse.1 (List.mem_of_find?_eq_some htag))
      refine Held.called _ [_, _] (fun ps hps => ?_) ((Held.listed fun ps hps => ?_).mono fun _ _ hfalse => hfalse.elim)
      · simp only [List.mem_cons, List.not_mem_nil, or_false] at hps
        rcases hps with rfl | rfl
        · exact (held_copiedChild hp hW hmem rfl (by decide) (by decide)).quoted
        · refine Held.listed fun ps hps => ?_
          obtain ⟨a, ha, rfl⟩ := List.mem_map.1 hps
          exact hw.attr a (child_below hmem (List.mem_filter.1 ha).1)
      · obtain ⟨d, hd, hps⟩ := List.mem_filterMap.1 hps
        exact hw.child hbelow (child_below ht (List.mem_filter.1 hd).1) ps hps

/-- **All levels.** -/
theorem levels : ∀ room, Holds W c (Writers.levels ⟨c.source, settings⟩ room).1 ∧
    Holds W c (Writers.levels ⟨c.source, settings⟩ room).2
  | 0 => ⟨silent, silent⟩
  | room + 1 => by
    obtain ⟨hw, hbelow⟩ := levels room
    exact ⟨hw.next hp hW hbelow, hw⟩

end

end Lowering.Writers.Holds

/-! ## Documents -/

section Documents

variable (hp : doc.parse = .ok c) (hW : W.Lawful doc c)

include hp hW

/-- Between the items of a document there is no leaf. -/
theorem held_gap {pre g post : Text} (hsrc : doc.text = pre ++ (g ++ post)) (hg : ∀ x ∈ g, isBlank x = true)
    {B : Tree → Prop} : W.Held c B [.copied ⟨bytes pre, bytes pre + bytes g⟩] := by
  refine Held.copied hp hW hsrc rfl fun u hu hsees hstart hstop => ?_
  obtain ⟨p, x, v, rest, hsrc', hspan, hx, -⟩ := (hW.takesLine u hu hsees).place
  rw [hspan] at hstart hstop
  obtain ⟨a, rfl, hcut⟩ := Text.append_eq_of_bytes_le (hsrc.symm.trans hsrc') hstart
  have hle : bytes (a ++ x :: v) ≤ bytes g := by
    simp only [Text.bytes_append] at hstop ⊢
    omega
  rw [← List.append_assoc] at hcut
  obtain ⟨b, rfl, -⟩ := Text.append_eq_of_bytes_le hcut.symm hle
  rw [hg x (by simp)] at hx
  cases hx

/-- The source from a place on, with what the items there write. -/
theorem held_assembled {f : Tree → List Patch} : ∀ (ts : List Tree) (pre x : Text),
    doc.text = pre ++ x → SpreadAll blankGaps (bytes pre) x ts →
    (∀ t ∈ ts, t ∈ c.tree.children ∧ W.Held c (·.Ends t) (f t)) →
    W.Held c W.AllowsBreak (assembled c.source (bytes pre) (ts.map fun t => (t, f t))) ∧
      (x.EndsLine → (texts c.source (assembled c.source (bytes pre) (ts.map fun t => (t, f t)))).EndsLine)
  | [], pre, x, hsrc, hspread, _ => by
    have hsrc' : doc.text = pre ++ (x ++ []) := by rw [hsrc, List.append_nil]
    have hspan : (⟨bytes pre, bytes c.source⟩ : Span) = ⟨bytes pre, bytes pre + bytes x⟩ := by
      rw [parse_source hp, hsrc, Text.bytes_append]
    rw [SpreadAll] at hspread
    simp only [List.map_nil, assembled, hspan]
    refine ⟨held_gap hp hW hsrc' hspread, fun hx => ?_⟩
    have htext : (⟨bytes pre, bytes pre + bytes x⟩ : Span).text c.source = x := by
      rw [parse_source hp]
      exact Span.text_append hsrc' rfl rfl
    simpa [Patch.text, htext] using hx
  | t :: ts, pre, _, hsrc, hspread, h => by
    rw [SpreadAll] at hspread
    obtain ⟨g, v, w, rfl, hg, ht, hts⟩ := hspread
    obtain ⟨htop, hf⟩ := h t List.mem_cons_self
    have hstart : t.span.start = bytes pre + bytes g := by rw [ht.span]
    have hstop : t.span.stop = bytes (pre ++ (g ++ v)) := by
      rw [ht.span]
      simp [Nat.add_assoc]
    have hsrc' : doc.text = (pre ++ (g ++ v)) ++ w := by rw [hsrc]; simp
    obtain ⟨hrest, hline⟩ := held_assembled ts (pre ++ (g ++ v)) w hsrc' (by simpa [Nat.add_assoc] using hts)
      fun d hd => h d (List.mem_cons_of_mem _ hd)
    simp only [List.map_cons, assembled, hstop]
    refine ⟨?_, fun hx => ?_⟩
    · rw [hstart]
      refine (held_gap hp hW hsrc hg).andThen (hf.append hrest fun u hsees hends => ?_)
      have hallows := hW.top t htop u hsees hends
      obtain ⟨p, y, z, rest, hsrc'', huspan, -, hrest⟩ :=
        (hW.takesLine u (mem_of_child htop hends.1) hsees).place
      have hcut : (p ++ y :: z) ++ rest = (pre ++ (g ++ v)) ++ w := by rw [← hsrc', hsrc'', List.append_assoc]
      have hbytes : bytes (p ++ y :: z) = bytes (pre ++ (g ++ v)) := by
        rw [← hstop, ← hends.2, huspan, Text.bytes_append]
      rw [(Text.append_inj_bytes hcut hbytes).2] at hrest
      exact ⟨allows_of_endsLine hallows (hline hrest), fun _ => hallows⟩
    · have htext : (⟨bytes pre, t.span.start⟩ : Span).text c.source = g := by
        rw [parse_source hp]
        exact Span.text_append hsrc rfl hstart
      rw [texts_cons, Patch.text, htext]
      cases g with
      | nil => exact absurd hx (parse_top hp htop hsrc (by rw [hstart]; simp))
      | cons y g => exact hx

/-- **A lawful watch holds of the whole output**, and allows a line end behind its leaf at the end. -/
theorem Watch.Lawful.patches (settings : Settings) : W.Held c W.AllowsBreak (c.patches settings) := by
  obtain ⟨cs, htree, hcs⟩ := parse_spread hp
  rw [Cst.patches]
  split
  · next hmarkup =>
    have hsrc : doc.text = [] ++ (doc.text ++ []) := by simp
    have hkind := parse_program hp
    have hinside : ∀ u ∈ c.tree.nodes, W.sees u → W.AllowsBreak u := fun u hu hsees =>
      hW.inside c.tree (mem_nodes_self _) (by rw [hkind]; rfl) hmarkup u hu hsees (.inl hkind)
    rw [parse_source hp]
    refine Held.copied hp hW hsrc (by rw [Text.bytes_nil, Nat.zero_add]) fun u hu hsees _ _ => ?_
    exact ⟨fun _ => hinside u hu hsees, fun _ => hinside u hu hsees⟩
  · have hchildren : c.tree.children = cs := by
      rw [htree]
      rfl
    have hitems := (held_assembled hp hW cs [] doc.text rfl hcs (f := (Writers.levels ⟨c.source, settings⟩
      settings.maxDepth).1.compose) fun t ht => ?_).1
    · rw [hchildren]
      dsimp only
      split
      · exact hitems
      · refine hitems.append (Held.made _) fun u hsees hallows => ⟨?_, fun _ => hallows⟩
        exact allows_of_endsLine hallows (by simpa [Patch.text] using endsLine_lineBreak c.source [] [])
    · rw [← hchildren] at ht
      exact ⟨ht, (Writers.Holds.levels hp hW _).1.compose t (top_below ht) (parse_item hp ht)⟩

/-- Where a watched leaf stands in the output, and what stands behind it. -/
theorem Watch.Lawful.exists_behind {settings : Settings} {before after : List Patch} {s : Span}
    (hpatches : c.patches settings = before ++ .copied s :: after) {u : Tree} (hu : u ∈ c.tree.nodes) (hsees : W.sees u)
    (hstart : s.start ≤ u.span.start) (hstop : u.span.stop ≤ s.stop) :
    ∃ a rest, texts c.source (c.patches settings) = texts c.source before ++ (a ++ (u.text c.source ++ rest)) ∧
      bytes a = u.span.start - s.start ∧ (∀ x ∈ rest.head?, W.allows u x) ∧ (rest = [] → W.AllowsBreak u) := by
  obtain ⟨a, b, htext, ha, hnext, hempty⟩ := hW.patches hp settings before s after hpatches u hu hsees hstart hstop
  refine ⟨a, b ++ texts c.source after, ?_, ha, hnext, hempty⟩
  rw [hpatches, texts_append, texts_cons, Patch.text, htext]
  simp [Tree.text]

end Documents

/-- Whether a node for which `f` holds stands in a piece that is copied. -/
def Cst.copies (c : Cst) (settings : Settings) (f : Tree → Bool) : Bool :=
  (c.patches settings).any fun p => p.span?.any fun s => c.tree.nodes.any fun u =>
    f u && (decide (s.start ≤ u.span.start) && decide (u.span.stop ≤ s.stop))

theorem exists_copied {c : Cst} {settings : Settings} {f : Tree → Bool} (h : c.copies settings f = true) :
    ∃ before s after, c.patches settings = before ++ .copied s :: after ∧
      ∃ u ∈ c.tree.nodes, f u = true ∧ s.start ≤ u.span.start ∧ u.span.stop ≤ s.stop := by
  obtain ⟨p, hp, hnode⟩ := List.any_eq_true.1 h
  cases p with
  | made t => cases hnode
  | copied s =>
    obtain ⟨u, hu, hq⟩ := List.any_eq_true.1 hnode
    simp only [Bool.and_eq_true, decide_eq_true_eq] at hq
    obtain ⟨before, after, hpatches⟩ := List.append_of_mem hp
    exact ⟨before, s, after, hpatches, u, hu, hq⟩

end InlineMarkup
