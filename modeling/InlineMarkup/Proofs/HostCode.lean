import InlineMarkup.Lowering.Translate
import InlineMarkup.Proofs.Lossless
import InlineMarkup.Proofs.Steps
/-!
# Proofs.HostCode — what becomes of host code

A translated document is the source with its elements replaced: the frontier of its tree, the nodes that are elements or
hold none, stands in the source with blank gaps between (`Segment`), and the output has the same nodes in the same order,
host code as it is and elements lowered, with blank text between them that is empty only where the gap is
(`translate_faithful`).
-/
namespace InlineMarkup

open Text (bytes isBlank)

mutual

/-- The topmost nodes of a tree that are elements or hold none. -/
def Tree.frontier : Tree → List Tree
  | .node k s cs => if (Tree.node k s cs).hasMarkup && !k.isMarkup then frontierAll cs else [.node k s cs]

def Tree.frontierAll : List Tree → List Tree
  | [] => []
  | t :: ts => t.frontier ++ frontierAll ts

end

namespace Lowering

/-- A node of the frontier, with the text before it in the source and in the output, and what is written for it. -/
structure Segment where
  gap : Text
  node : Tree
  joint : Text
  written : Text

namespace Segment

def inSource (source : Text) (s : Segment) : Text := s.gap ++ s.node.text source

def inOutput (s : Segment) : Text := s.joint ++ s.written

/-- Nothing but layout changes around the node, and it is an element that was lowered or copied as it is. -/
structure Faithful (i : Input) (s : Segment) : Prop where
  gap_blank : ∀ c ∈ s.gap, isBlank c = true
  joint_blank : ∀ c ∈ s.joint, isBlank c = true
  gap_of_joint : s.joint = [] → s.gap = []
  written : (s.node.hasMarkup = false ∧ s.written = s.node.text i.source) ∨
    (s.node.kind = .element ∧ ∃ room, room < i.settings.maxDepth ∧ (i.lowerElement room s.node).result = .ok s.written)

end Segment

/-- The trees stand in the source as `u` and in the output as `w`. -/
structure Renders (i : Input) (ts : List Tree) (u w : Text) (ss : List Segment) : Prop where
  nodes : ss.map Segment.node = Tree.frontierAll ts
  faithful : ∀ s ∈ ss, s.Faithful i
  source : u = ss.flatMap (Segment.inSource i.source)
  output : w = ss.flatMap Segment.inOutput

/-! ## Layout between siblings is blank -/

theorem isBlank_of_isIndent {c : Char} (h : Text.isIndent c = true) : isBlank c = true := by
  simp only [Text.isIndent, Bool.or_eq_true, beq_iff_eq] at h
  rcases h with rfl | rfl
  · rfl
  · rfl

theorem lineBreak_cases (source gap : Text) : lineBreak source gap = ['\r', '\n'] ∨ lineBreak source gap = ['\n'] := by
  unfold lineBreak
  generalize Text.hasCrLf _ = crLf
  cases crLf with
  | true => exact .inl rfl
  | false => exact .inr rfl

theorem lineBreak_blank (source gap : Text) : ∀ c ∈ lineBreak source gap, isBlank c = true := by
  rcases lineBreak_cases source gap with h | h
  · rw [h]; decide
  · rw [h]; decide

theorem lineBreak_ne_nil (source gap : Text) : lineBreak source gap ≠ [] := by
  rcases lineBreak_cases source gap with h | h
  · rw [h]; decide
  · rw [h]; decide

theorem lineIndent_blank (source : Text) (offset : Nat) : ∀ c ∈ lineIndent source offset, isBlank c = true :=
  fun _ hc => isBlank_of_isIndent (List.mem_takeWhile_imp hc)

theorem joint_blank (source : Text) (previous next : Tree) : ∀ c ∈ joint source previous next, isBlank c = true := by
  unfold joint
  simp only
  split
  · intro c hc
    exact (List.mem_append.1 hc).elim (lineBreak_blank _ _ c) (lineIndent_blank _ _ c)
  · split
    · intro c hc
      cases hc
    · decide

/-- Nothing is written between siblings only where nothing stands between them. -/
theorem gap_of_joint {pre g rest : Text} {previous next : Tree} (hp : previous.span.stop = bytes pre)
    (hn : next.span.start = bytes pre + bytes g) (h : joint (pre ++ (g ++ rest)) previous next = []) : g = [] := by
  unfold joint at h
  simp only [hp, hn, Text.slice?_append, Option.getD_some] at h
  split at h
  · exact absurd (List.append_eq_nil_iff.1 h).1 (lineBreak_ne_nil _ _)
  · split at h
    · next he => exact List.isEmpty_iff.1 he
    · cases h

end Lowering

/-! ## Nodes begin and end with their children -/

namespace Tree

theorem SpreadAll.first {off : Nat} {u : Text} {t : Tree} {ts : List Tree} (h : SpreadAll blankGaps off u (t :: ts))
    (ho : Opens off u (t :: ts)) :
    ∃ v w, u = v ++ w ∧ Spread blankGaps off v t ∧ SpreadAll blankGaps (off + bytes v) w ts := by
  rw [SpreadAll] at h
  obtain ⟨g, v, w, rfl, hg, ht, hts⟩ := h
  have hnil : g = [] := by
    rcases ho with ⟨t', ht', hs⟩ | hx
    · obtain rfl : t = t' := by simpa using ht'
      rw [ht.span] at hs
      exact Text.bytes_eq_zero.1 (by simp only at hs; omega)
    · cases g with
      | nil => rfl
      | cons y g =>
        have hb : isBlank y = true := hg y List.mem_cons_self
        rw [hx y rfl] at hb
        cases hb
  subst hnil
  exact ⟨v, w, rfl, by simpa using ht, by simpa using hts⟩

theorem SpreadAll.last {off : Nat} {u : Text} {ts : List Tree} (h : SpreadAll blankGaps off u ts)
    (hc : Closes off u ts) : lastStop off ts = off + bytes u := by
  rcases hc with ⟨t, ht, hs⟩ | hx
  · rw [lastStop, ht, ← hs]
    rfl
  · obtain ⟨v, g, rfl, hv, hg, -⟩ := h.last_gap
    cases hl : g.getLast? with
    | none => rw [← hv, List.getLast?_eq_none_iff.1 hl, List.append_nil]
    | some x =>
      have hb : isBlank x = true := hg x (List.mem_of_getLast? hl)
      rw [hx x (by rw [List.getLast?_append, hl]; rfl)] at hb
      cases hb

theorem children_ne_nil : ∀ {t : Tree}, t.hasMarkup = true → t.kind.isMarkup = false → t.children ≠ []
  | .node k s [], h, hk, _ => by
    have hk : k.isMarkup = false := hk
    rw [hasMarkup, hk, anyMarkup] at h
    cases h

theorem isMarkup_iff {k : Kind} : k.isMarkup = true ↔ k = .element := by
  cases k <;> simp [Kind.isMarkup]

end Tree
namespace Lowering

/-! ## Rows of segments -/

section Renders

variable {i : Input} {u u' w w' : Text} {ts ts' : List Tree}

theorem Renders.nil : Renders i [] [] [] [] := ⟨rfl, fun _ h => (List.not_mem_nil h).elim, rfl, rfl⟩

theorem frontierAll_append : ∀ ts us : List Tree, Tree.frontierAll (ts ++ us) = Tree.frontierAll ts ++ Tree.frontierAll us
  | [], _ => rfl
  | t :: ts, us => by
    rw [List.cons_append, Tree.frontierAll, Tree.frontierAll, frontierAll_append ts us, List.append_assoc]

theorem Renders.append {ss ss' : List Segment} (h : Renders i ts u w ss) (h' : Renders i ts' u' w' ss') :
    Renders i (ts ++ ts') (u ++ u') (w ++ w') (ss ++ ss') where
  nodes := by rw [List.map_append, h.nodes, h'.nodes, frontierAll_append]
  faithful s hs := (List.mem_append.1 hs).elim (h.faithful s) (h'.faithful s)
  source := by rw [List.flatMap_append, ← h.source, ← h'.source]
  output := by rw [List.flatMap_append, ← h.output, ← h'.output]

/-- The trees begin with a node: what stands before it in source and output can still be chosen. -/
def Begun (i : Input) (ts : List Tree) (u w : Text) : Prop :=
  ∃ s ss, Renders i ts u w (s :: ss) ∧ s.gap = [] ∧ s.joint = []

theorem Begun.after (h : Begun i ts u w) {g j : Text} (hg : ∀ c ∈ g, isBlank c = true)
    (hj : ∀ c ∈ j, isBlank c = true) (hgj : j = [] → g = []) :
    ∃ s ss, Renders i ts (g ++ u) (j ++ w) (s :: ss) ∧ s.gap = g ∧ s.joint = j := by
  obtain ⟨s, ss, hr, hgap, hjoint⟩ := h
  refine ⟨{ s with gap := g, joint := j }, ss, ⟨hr.nodes, fun s' hs' => ?_, ?_, ?_⟩, rfl, rfl⟩
  · rcases List.mem_cons.1 hs' with rfl | hs'
    · exact ⟨hg, hj, hgj, (hr.faithful s List.mem_cons_self).written⟩
    · exact hr.faithful s' (List.mem_cons_of_mem _ hs')
  · rw [hr.source]
    simp [Segment.inSource, hgap]
  · rw [hr.output]
    simp [Segment.inOutput, hjoint]

theorem Begun.append {ss' : List Segment} (h : Begun i ts u w) (h' : Renders i ts' u' w' ss') :
    Begun i (ts ++ ts') (u ++ u') (w ++ w') := by
  obtain ⟨s, ss, hr, hgap, hjoint⟩ := h
  exact ⟨s, ss ++ ss', hr.append h', hgap, hjoint⟩

theorem Begun.of_frontier (h : Begun i ts u w) (hf : Tree.frontierAll ts' = Tree.frontierAll ts) : Begun i ts' u w := by
  obtain ⟨s, ss, hr, hb⟩ := h
  exact ⟨s, ss, ⟨hr.nodes.trans hf.symm, hr.faithful, hr.source, hr.output⟩, hb⟩

theorem begun_single {t : Tree} (hf : t.frontier = [t]) (hu : t.text i.source = u)
    (hw : (t.hasMarkup = false ∧ w = t.text i.source) ∨
      (t.kind = .element ∧ ∃ room, room < i.settings.maxDepth ∧ (i.lowerElement room t).result = .ok w)) :
    Begun i [t] u w := by
  refine ⟨⟨[], t, [], w⟩, [], ⟨?_, ?_, ?_, ?_⟩, rfl, rfl⟩
  · simp [Tree.frontierAll, hf]
  · intro s hs
    rw [List.mem_singleton.1 hs]
    exact ⟨by simp, by simp, fun _ => rfl, hw⟩
  · simp [Segment.inSource, hu]
  · simp [Segment.inOutput]

end Renders

/-! ## Composing -/

/-- Siblings after the one before them, up to the end of the last. -/
theorem renders_weaveAfter {i : Input} {room : Nat}
    (ih : ∀ t pre u post w, i.source = pre ++ (u ++ post) → Tree.Spread Tree.blankGaps (bytes pre) u t →
      (i.compose room t).result = .ok w → Begun i [t] u w) :
    ∀ (ts : List Tree) (ws : List Text) (previous : Tree) (pre u post : Text), i.source = pre ++ (u ++ post) →
    previous.span.stop = bytes pre → Tree.SpreadAll Tree.blankGaps (bytes pre) u ts →
    Tree.lastStop (bytes pre) ts = bytes pre + bytes u →
    List.Forall₂ (fun t w => (i.compose room t).result = .ok w) ts ws →
    ∃ ss, Renders i ts u (weaveAfter i.source previous (ts.zip ws)) ss
  | [], _, _, pre, u, post, hsrc, hprev, _, hlast, hws => by
    cases hws
    have hu : u = [] := Text.bytes_eq_zero.1 (by simp only [Tree.lastStop] at hlast; simpa using hlast.symm)
    subst hu
    exact ⟨[], .nil⟩
  | t :: ts, _, previous, pre, _, post, hsrc, hprev, hall, hlast, hws => by
    obtain _ | ⟨hw, hws⟩ := hws
    rw [Tree.SpreadAll] at hall
    obtain ⟨g, v, x, rfl, hg, ht, hts⟩ := hall
    rw [← Text.bytes_append] at ht hts
    rw [← Text.bytes_append] at hts
    have hstop : t.span.stop = bytes (pre ++ g ++ v) := by rw [ht.span, ← Text.bytes_append]
    have hbegun := ih t (pre ++ g) v (x ++ post) _ (by simp [hsrc]) ht hw
    obtain ⟨s, ss, hr, -, -⟩ := hbegun.after hg (joint_blank i.source previous t) fun hj => by
      have hsrc' : i.source = pre ++ (g ++ (v ++ x ++ post)) := by simp [hsrc]
      rw [hsrc'] at hj
      exact gap_of_joint hprev (by rw [ht.span, Text.bytes_append]) hj
    obtain ⟨ss', hr'⟩ := renders_weaveAfter ih ts _ t (pre ++ g ++ v) x post (by simp [hsrc]) hstop hts
      (by
        rw [Tree.lastStop_cons, hstop] at hlast
        rw [hlast]
        simp only [Text.bytes_append]
        omega) hws
    refine ⟨s :: ss ++ ss', ?_⟩
    have := hr.append hr'
    simpa [weaveAfter] using this

theorem renders_weave {i : Input} {room : Nat}
    (ih : ∀ t pre u post w, i.source = pre ++ (u ++ post) → Tree.Spread Tree.blankGaps (bytes pre) u t →
      (i.compose room t).result = .ok w → Begun i [t] u w) {ts : List Tree} {ws : List Text} {pre u post : Text}
    (hsrc : i.source = pre ++ (u ++ post)) (hne : ts ≠ []) (hall : Tree.SpreadAll Tree.blankGaps (bytes pre) u ts)
    (ho : Tree.Opens (bytes pre) u ts) (hc : Tree.Closes (bytes pre) u ts)
    (hws : List.Forall₂ (fun t w => (i.compose room t).result = .ok w) ts ws) :
    Begun i ts u (weave i.source (ts.zip ws)) := by
  cases ts with
  | nil => exact absurd rfl hne
  | cons t ts =>
    have hlast := hall.last hc
    obtain ⟨v, x, rfl, ht, hts⟩ := hall.first ho
    obtain _ | ⟨hw, hws⟩ := hws
    rw [← Text.bytes_append] at hts
    have hstop : t.span.stop = bytes (pre ++ v) := by rw [ht.span, ← Text.bytes_append]
    rw [Tree.lastStop_cons, hstop] at hlast
    obtain ⟨ss, hr⟩ := renders_weaveAfter ih ts _ t (pre ++ v) x post (by simp [hsrc]) hstop hts
      (by rw [hlast]; simp only [Text.bytes_append]; omega) hws
    exact (ih t pre v (x ++ post) _ (by simp [hsrc]) ht hw).append hr

/-- **Composed host code renders its frontier.** -/
theorem begun_compose (i : Input) : ∀ (room : Nat), room ≤ i.settings.maxDepth → ∀ (t : Tree) (pre u post w : Text),
    i.source = pre ++ (u ++ post) → Tree.Spread Tree.blankGaps (bytes pre) u t → (i.compose room t).result = .ok w →
    Begun i [t] u w
  | 0, _, t, _, _, _, _, _, _, h => by
    rw [Input.compose] at h
    cases h
  | room + 1, hroom, t, pre, u, post, w, hsrc, ht, h => by
    have htext : t.text i.source = u := Span.text_append hsrc (by rw [ht.span]) (by rw [ht.span])
    rw [Input.compose] at h
    obtain ⟨k, s, cs⟩ := t
    by_cases hm : (Tree.node k s cs).hasMarkup = true
    · by_cases hk : k = .element
      · subst hk
        simp only [hm, Bool.not_true, Bool.false_eq_true, if_false, Tree.kind, if_true] at h
        exact begun_single (by simp [Tree.frontier, Kind.isMarkup]) htext (.inr ⟨rfl, room, hroom, h⟩)
      · have hmarkup : k.isMarkup = false := Bool.eq_false_iff.2 fun h => hk (Tree.isMarkup_iff.1 h)
        simp only [hm, Bool.not_true, Bool.false_eq_true, if_false, Tree.kind, hk, Logged.result_bind] at h
        obtain ⟨ws, hws, hw⟩ := Logged.bind_eq_ok h
        have hne : cs ≠ [] := Tree.children_ne_nil hm hmarkup
        rw [Tree.Spread] at ht
        obtain ⟨⟨-, ho, hc⟩, hall⟩ := ht.2.2 (Bool.eq_false_iff.2 fun hl => hne (ht.2.1 hl))
        have hbegun := renders_weave (fun t pre u post w => begun_compose i room (by omega) t pre u post w) hsrc hne hall
          ho hc (Logged.result_each_eq_ok.1 hws)
        rw [← Except.ok.inj hw]
        refine hbegun.of_frontier ?_
        simp [Tree.frontierAll, Tree.frontier, hm, hmarkup]
    · rw [Bool.not_eq_true] at hm
      simp only [hm, Bool.not_false, if_true, Logged.result_pure, Except.ok.injEq] at h
      exact begun_single (by simp [Tree.frontier, hm]) htext (.inl ⟨hm, h.symm⟩)

/-! ## Whole documents -/

/-- The output of a document with markup, item by item: the text before an item is copied, and so is the text behind the
last, with a line end if there is none. -/
structure Assembled (i : Input) (root : Tree) (output : Text) (items : List (List Segment)) (tail : Text) : Prop where
  nodes : items.map (·.map Segment.node) = root.children.map Tree.frontier
  faithful : ∀ ss ∈ items, ∀ s ∈ ss, s.Faithful i
  copied : ∀ ss ∈ items, ∀ s, ss.head? = some s → s.joint = s.gap
  tail_blank : ∀ c ∈ tail, isBlank c = true
  source : i.source = items.flatten.flatMap (Segment.inSource i.source) ++ tail
  output : output = items.flatten.flatMap Segment.inOutput ++ (tail ++
    if (items.flatten.flatMap Segment.inOutput ++ tail).getLast? = some '\n' then [] else lineBreak i.source [])

theorem exists_items (i : Input) : ∀ (ts : List Tree) (ws : List Text) (pre u : Text), i.source = pre ++ u →
    Tree.SpreadAll Tree.blankGaps (bytes pre) u ts →
    List.Forall₂ (fun t w => (i.compose i.settings.maxDepth t).result = .ok w) ts ws →
    ∃ (items : List (List Segment)) (tail : Text), items.map (·.map Segment.node) = ts.map Tree.frontier ∧
      (∀ ss ∈ items, ∀ s ∈ ss, s.Faithful i) ∧ (∀ ss ∈ items, ∀ s, ss.head? = some s → s.joint = s.gap) ∧
      (∀ c ∈ tail, isBlank c = true) ∧ u = items.flatten.flatMap (Segment.inSource i.source) ++ tail ∧
      assembleFrom i.source (bytes pre) (ts.zip ws) = items.flatten.flatMap Segment.inOutput ++ tail
  | [], _, pre, u, hsrc, hall, hws => by
    cases hws
    rw [Tree.SpreadAll] at hall
    refine ⟨[], u, rfl, by simp, by simp, hall, by simp, ?_⟩
    rw [List.zip_nil_left, assembleFrom, hsrc, Text.after?_append]
    rfl
  | t :: ts, _, pre, _, hsrc, hall, hws => by
    obtain _ | ⟨hw, hws⟩ := hws
    rw [Tree.SpreadAll] at hall
    obtain ⟨g, v, x, rfl, hg, ht, hts⟩ := hall
    rw [← Text.bytes_append] at ht hts
    rw [← Text.bytes_append] at hts
    have hbegun := begun_compose i _ (Nat.le_refl _) t (pre ++ g) v x _ (by simp [hsrc]) ht hw
    obtain ⟨s, ss, hr, hgap, hjoint⟩ := hbegun.after hg hg id
    obtain ⟨items, tail, hn, hf, hc, ht', hu, ho⟩ := exists_items i ts _ (pre ++ g ++ v) x (by simp [hsrc]) hts hws
    have hslice : Text.slice? i.source (bytes pre) t.span.start = some g := by
      rw [hsrc, ht.span, Text.bytes_append]
      exact Text.slice?_append pre g (v ++ x)
    have hstop : t.span.stop = bytes (pre ++ g ++ v) := by rw [ht.span, ← Text.bytes_append]
    refine ⟨(s :: ss) :: items, tail, ?_, ?_, ?_, ht', ?_, ?_⟩
    · have := hr.nodes
      rw [Tree.frontierAll, Tree.frontierAll, List.append_nil] at this
      show (s :: ss).map Segment.node :: items.map (·.map Segment.node) = _
      rw [hn, this, List.map_cons]
    · exact List.forall_mem_cons.2 ⟨hr.faithful, hf⟩
    · refine List.forall_mem_cons.2 ⟨fun s' hs' => ?_, hc⟩
      obtain rfl : s = s' := by simpa using hs'
      rw [hgap, hjoint]
    · rw [List.flatten_cons, List.flatMap_append, ← hr.source, List.append_assoc, ← hu, List.append_assoc]
    · rw [List.zip_cons_cons, assembleFrom, hslice, hstop, ho, List.flatten_cons, List.flatMap_append, ← hr.output]
      simp

theorem assemble_faithful {settings : Settings} {c : Cst} {output : Text}
    (hc : Tree.SpreadAll Tree.blankGaps 0 c.source c.tree.children) (h : (assemble settings c).result = .ok output) :
    (c.tree.hasMarkup = false → output = c.source) ∧
    (c.tree.hasMarkup = true → ∃ items tail, Assembled ⟨c.source, settings⟩ c.tree output items tail) := by
  unfold assemble at h
  simp only [Logged.result_bind] at h
  obtain ⟨-, -, h⟩ := Logged.bind_eq_ok h
  constructor
  · intro hm
    simp only [hm, Bool.not_false, if_true, Logged.result_pure, Except.ok.injEq] at h
    exact h.symm
  · intro hm
    simp only [hm, Bool.not_true, Bool.false_eq_true, if_false, Logged.result_bind] at h
    obtain ⟨ws, hws, hw⟩ := Logged.bind_eq_ok h
    obtain ⟨items, tail, hn, hf, hcopied, htail, hu, ho⟩ :=
      exists_items ⟨c.source, settings⟩ c.tree.children ws [] c.source rfl hc (Logged.result_each_eq_ok.1 hws)
    refine ⟨items, tail, hn, hf, hcopied, htail, hu, ?_⟩
    rw [← Except.ok.inj hw]
    rw [Text.bytes_nil] at ho
    show endLine c.source (assembleFrom c.source 0 _) = _
    rw [ho, endLine]
    split
    · rw [List.append_nil]
    · rw [List.append_assoc]

end Lowering

namespace Tree

mutual

theorem hasMarkup_iff : ∀ {t : Tree}, t.hasMarkup = true ↔ ∃ u ∈ t.nodes, u.kind = .element
  | .node k s cs => by
    rw [hasMarkup, Bool.or_eq_true, isMarkup_iff, anyMarkup_iff, nodes]
    simp only [List.mem_cons, or_and_right, exists_or, exists_eq_left]
    rfl

theorem anyMarkup_iff : ∀ {ts : List Tree}, anyMarkup ts = true ↔ ∃ u ∈ nodesAll ts, u.kind = .element
  | [] => by simp [anyMarkup, nodesAll]
  | t :: ts => by
    rw [anyMarkup, Bool.or_eq_true, hasMarkup_iff, anyMarkup_iff, nodesAll]
    simp only [List.mem_append, or_and_right, exists_or]

end

end Tree

open Lowering

/-- **Host code survives a translation.**  Without elements the output is the source.  Otherwise it is the frontier of the
tree in order, host code as it is and elements lowered, with only layout changed between. -/
theorem translate_faithful {doc : Document} {settings : Settings} {output : Text}
    (h : (doc.translate settings).result = .ok output) :
    ∃ c, doc.parse = .ok c ∧ ((∀ t ∈ c.tree.nodes, t.kind ≠ .element) → output = doc.text) ∧
      ((∃ t ∈ c.tree.nodes, t.kind = .element) →
        ∃ items tail, Assembled ⟨doc.text, settings⟩ c.tree output items tail) := by
  unfold Document.translate at h
  cases hp : doc.parse with
  | error d =>
    rw [hp] at h
    cases h
  | ok c =>
    obtain ⟨cs, htree, hcs⟩ := parse_spread hp
    rw [hp] at h
    simp only [Logged.result_bind, Logged.result_note, Logged.result_mapError, Logged.result_pure] at h
    obtain ⟨-, -, h⟩ := Logged.bind_eq_ok h
    obtain ⟨out, hout, h⟩ := Logged.bind_eq_ok h
    obtain ⟨-, -, h⟩ := Logged.bind_eq_ok h
    obtain rfl : out = output := Except.ok.inj h
    have hsource := parse_source hp
    have hspread : Tree.SpreadAll Tree.blankGaps 0 c.source c.tree.children := by
      rw [hsource, htree]
      exact hcs
    obtain ⟨hnone, hsome⟩ := assemble_faithful hspread (Logged.mapError_eq_ok hout)
    rw [hsource] at hnone hsome
    refine ⟨c, rfl, fun hno => hnone ?_, fun hex => hsome (Tree.hasMarkup_iff.2 hex)⟩
    refine Bool.eq_false_iff.2 fun hm => ?_
    obtain ⟨t, ht, hk⟩ := Tree.hasMarkup_iff.1 hm
    exact hno t ht hk

/-- An element between two pieces of host code. -/
theorem translate_faithful_call :
    ((Document.mk "a.mbx" "f( <b/> ,x)".toList).translate {}).result = .ok "f( h(\"b\", [], []) ,x)\n".toList ∧
    ∃ c items tail, (Document.mk "a.mbx" "f( <b/> ,x)".toList).parse = .ok c ∧
      Assembled ⟨"f( <b/> ,x)".toList, {}⟩ c.tree "f( h(\"b\", [], []) ,x)\n".toList items tail := by
  have h : ((Document.mk "a.mbx" "f( <b/> ,x)".toList).translate {}).result =
      .ok "f( h(\"b\", [], []) ,x)\n".toList := by decide +kernel
  obtain ⟨c, hp, hnone, hsome⟩ := translate_faithful h
  by_cases hex : ∃ t ∈ c.tree.nodes, t.kind = .element
  · obtain ⟨items, tail, ha⟩ := hsome hex
    exact ⟨h, c, items, tail, hp, ha⟩
  · have hsame := hnone fun t ht hk => hex ⟨t, ht, hk⟩
    exact absurd hsame (by decide)

end InlineMarkup
