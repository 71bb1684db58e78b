import InlineMarkup.Proofs.DocumentTree
import Mathlib.Data.List.Nodup
/-!
# Proofs.Lossless — nothing of a document is lost in its tree

The nodes of a parsed document form a tree whose spans are nested and ordered, and whatever no leaf covers is blank
(`Cst.Lossless`, `parse_lossless`).
-/
namespace InlineMarkup

open Text (bytes isBlank IsPlace)

/-- The text is the words one after the other, with blank characters before, between and behind them. -/
def Text.BlankJoined : List Text → Text → Prop
  | [], t => ∀ c ∈ t, isBlank c = true
  | w :: ws, t => ∃ g r, t = g ++ (w ++ r) ∧ (∀ c ∈ g, isBlank c = true) ∧ BlankJoined ws r

/-- The leaves of a tree in the order of the text. -/
def Tree.leaves (t : Tree) : List Tree := t.nodes.filter (·.kind.isLeaf)

/-- The nodes of a document are a tree that is nested in the text and covers it. -/
structure Cst.Lossless (c : Cst) : Prop where
  /-- The root spans the whole text. -/
  root_span : (c.arena.get? c.root).map Node.span = some ⟨0, bytes c.source⟩
  /-- A span is in order, within the text, and does not cut a character. -/
  span : ∀ id n, c.arena.get? id = some n → n.span.start ≤ n.span.stop ∧ n.span.stop ≤ bytes c.source ∧
    IsPlace c.source n.span.start ∧ IsPlace c.source n.span.stop
  /-- Every node but the root is the child of one node, and occurs once among its children. -/
  parent : ∀ id, id < c.arena.size → id ≠ c.root → ∃! parent, id ∈ c.arena.children parent
  root_no_child : ∀ id, c.root ∉ c.arena.children id
  child_once : ∀ id, (c.arena.children id).Nodup
  /-- Children have greater numbers than their parents. -/
  ascending : c.arena.Ascending
  /-- Children lie inside their parent. -/
  inside : ∀ id n, c.arena.get? id = some n → ∀ i ∈ n.children, ∀ m, c.arena.get? i = some m →
    n.span.start ≤ m.span.start ∧ m.span.stop ≤ n.span.stop
  /-- Children are in order and do not overlap. -/
  ordered : ∀ id n, c.arena.get? id = some n → n.children.Pairwise fun i j =>
    ∀ m m', c.arena.get? i = some m → c.arena.get? j = some m' → m.span.stop ≤ m'.span.start
  leaf : ∀ id n, c.arena.get? id = some n → n.kind.isLeaf = true → n.children = []
  /-- A character that lies in no leaf is blank. -/
  covered : ∀ before x after, c.source = before ++ x :: after →
    (∃ id n, c.arena.get? id = some n ∧ n.kind.isLeaf = true ∧ n.span.start ≤ bytes before ∧
      bytes before + x.utf8Size ≤ n.span.stop) ∨ isBlank x = true
  /-- The leaves with blanks between them are the text. -/
  joined : Text.BlankJoined (c.tree.leaves.map (·.text c.source)) c.source

namespace Tree

/-! ## What is spread over a text lies in it -/

section Spread

variable {G : Gaps}

theorem Spread.children {off : Nat} {u : Text} {t : Tree} (h : Spread G off u t) :
    (t.kind.isLeaf = true ∧ t.children = []) ∨ (t.kind.isLeaf = false ∧ SpreadAll G off u t.children) := by
  obtain ⟨k, s, cs⟩ := t
  rw [Spread] at h
  cases hl : k.isLeaf with
  | true => exact .inl ⟨hl, h.2.1 hl⟩
  | false => exact .inr ⟨hl, (h.2.2 hl).2⟩

theorem SpreadAll.mem : ∀ {ts : List Tree} {off : Nat} {u : Text}, SpreadAll G off u ts → ∀ {t : Tree}, t ∈ ts →
    ∃ pre v post, u = pre ++ (v ++ post) ∧ Spread G (off + bytes pre) v t
  | t' :: ts, off, _, h, t, ht => by
    rw [SpreadAll] at h
    obtain ⟨g, v, w, rfl, -, ht', hts⟩ := h
    rcases List.mem_cons.1 ht with rfl | ht
    · exact ⟨g, v, w, rfl, ht'⟩
    · obtain ⟨pre, v', post, rfl, hv'⟩ := hts.mem ht
      exact ⟨g ++ (v ++ pre), v', post, by simp, by simpa [Nat.add_assoc] using hv'⟩

mutual

theorem Spread.below {t : Tree} : ∀ {u : Tree} {off : Nat} {x : Text}, Spread G off x u → t ∈ u.nodes →
    ∃ pre v post, x = pre ++ (v ++ post) ∧ Spread G (off + bytes pre) v t
  | .node k s cs, off, x, h, ht => by
    rw [nodes, List.mem_cons] at ht
    rcases ht with rfl | ht
    · exact ⟨[], x, [], by simp, h⟩
    · rcases h.children with ⟨-, hcs⟩ | ⟨-, hcs⟩
      · have hnil : cs = [] := hcs
        rw [hnil, nodesAll] at ht
        cases ht
      · exact SpreadAll.below hcs ht

theorem SpreadAll.below {t : Tree} : ∀ {us : List Tree} {off : Nat} {x : Text}, SpreadAll G off x us → t ∈ nodesAll us →
    ∃ pre v post, x = pre ++ (v ++ post) ∧ Spread G (off + bytes pre) v t
  | u :: us, off, _, h, ht => by
    rw [SpreadAll] at h
    obtain ⟨g, v, w, rfl, -, hu, hus⟩ := h
    rw [nodesAll, List.mem_append] at ht
    rcases ht with ht | ht
    · obtain ⟨pre, v', post, rfl, hv'⟩ := Spread.below hu ht
      exact ⟨g ++ pre, v', post ++ w, by simp, by simpa [Nat.add_assoc] using hv'⟩
    · obtain ⟨pre, v', post, rfl, hv'⟩ := SpreadAll.below hus ht
      exact ⟨g ++ (v ++ pre), v', post, by simp, by simpa [Nat.add_assoc] using hv'⟩

end

theorem SpreadAll.inside {ts : List Tree} {off : Nat} {u : Text} (h : SpreadAll G off u ts) {t : Tree} (ht : t ∈ ts) :
    off ≤ t.span.start ∧ t.span.stop ≤ off + bytes u := by
  obtain ⟨pre, v, post, rfl, hv⟩ := h.mem ht
  rw [hv.span]
  simp only [Text.bytes_append]
  omega

theorem SpreadAll.ordered {ts : List Tree} {off : Nat} {u : Text} (h : SpreadAll G off u ts) :
    ts.Pairwise fun t t' => t.span.stop ≤ t'.span.start := by
  induction ts generalizing off u with
  | nil => exact .nil
  | cons t ts ih =>
    rw [SpreadAll] at h
    obtain ⟨g, v, w, rfl, -, ht, hts⟩ := h
    refine .cons (fun t' ht' => ?_) (ih hts)
    rw [ht.span]
    exact (hts.inside ht').1

end Spread

section Blank

variable {G : Gaps}

mutual

/-- **A character of the text lies in a leaf or is blank.** -/
theorem Spread.covered (hG : ∀ c, G.char c → isBlank c = true) : ∀ {t : Tree} {off : Nat} {u : Text}, Spread G off u t →
    ∀ {pre post : Text} {x : Char}, u = pre ++ x :: post →
    (∃ leaf ∈ t.nodes, leaf.kind.isLeaf = true ∧ leaf.span.start ≤ off + bytes pre ∧
      off + bytes pre + x.utf8Size ≤ leaf.span.stop) ∨ isBlank x = true
  | .node k s cs, off, u, h, pre, post, x, hu => by
    rcases h.children with ⟨hl, -⟩ | ⟨hl, hcs⟩
    · refine .inl ⟨_, mem_nodes_self _, hl, ?_⟩
      rw [h.span, hu]
      simp only [Text.bytes_append, Text.bytes_cons]
      omega
    · refine (SpreadAll.covered hG hcs hu).imp_left fun ⟨leaf, hmem, hleaf⟩ => ⟨leaf, ?_, hleaf⟩
      rw [nodes]
      exact List.mem_cons_of_mem _ hmem

theorem SpreadAll.covered (hG : ∀ c, G.char c → isBlank c = true) : ∀ {ts : List Tree} {off : Nat} {u : Text},
    SpreadAll G off u ts → ∀ {pre post : Text} {x : Char}, u = pre ++ x :: post →
    (∃ leaf ∈ nodesAll ts, leaf.kind.isLeaf = true ∧ leaf.span.start ≤ off + bytes pre ∧
      off + bytes pre + x.utf8Size ≤ leaf.span.stop) ∨ isBlank x = true
  | [], _, _, h, pre, post, x, hu => by
    rw [SpreadAll] at h
    exact .inr (hG x (h x (by simp [hu])))
  | t :: ts, off, _, h, pre, post, x, hu => by
    rw [SpreadAll] at h
    obtain ⟨g, v, w, rfl, hg, ht, hts⟩ := h
    rcases Text.append_cons_cases hu with ⟨rest, hgx⟩ | ⟨pre', rfl, hvw⟩
    · exact .inr (hG x (hg x (by simp [hgx])))
    · rcases Text.append_cons_cases hvw with ⟨rest, hvx⟩ | ⟨pre'', rfl, hwx⟩
      · refine (Spread.covered hG ht hvx).imp_left fun ⟨leaf, hmem, hl, hs, he⟩ => ⟨leaf, ?_, hl, ?_⟩
        · exact List.mem_append_left _ hmem
        · simp only [Text.bytes_append]
          omega
      · refine (SpreadAll.covered hG hts hwx).imp_left fun ⟨leaf, hmem, hl, hs, he⟩ => ⟨leaf, ?_, hl, ?_⟩
        · exact List.mem_append_right _ hmem
        · simp only [Text.bytes_append]
          omega

end

end Blank

end Tree

namespace Text.BlankJoined

theorem gap_append {g : Text} (hg : ∀ c ∈ g, isBlank c = true) : ∀ {ws : List Text} {t : Text}, BlankJoined ws t →
    BlankJoined ws (g ++ t)
  | [], _, h => fun c hc => (List.mem_append.1 hc).elim (hg c) (h c)
  | _ :: _, _, h => by
    obtain ⟨g', r, rfl, hg', hr⟩ := h
    exact ⟨g ++ g', r, by simp, fun c hc => (List.mem_append.1 hc).elim (hg c) (hg' c), hr⟩

theorem append : ∀ {ws ws' : List Text} {t t' : Text}, BlankJoined ws t → BlankJoined ws' t' →
    BlankJoined (ws ++ ws') (t ++ t')
  | [], _, _, _, h, h' => gap_append h h'
  | _ :: _, _, _, t', h, h' => by
    obtain ⟨g, r, rfl, hg, hr⟩ := h
    exact ⟨g, r ++ t', by simp, hg, hr.append h'⟩

end Text.BlankJoined

namespace Tree

mutual

/-- **The leaves with blanks between them are the text.** -/
theorem Spread.joined {G : Gaps} (hG : ∀ c, G.char c → isBlank c = true) (source : Text) :
    ∀ {t : Tree} {pre u post : Text}, source = pre ++ (u ++ post) → Spread G (bytes pre) u t →
    Text.BlankJoined (t.leaves.map (·.text source)) u
  | .node k s cs, pre, u, post, hsrc, h => by
    rcases h.children with ⟨hl, hnil⟩ | ⟨hl, hcs⟩
    · have hspan := h.span
      obtain rfl : cs = [] := hnil
      have hleaves : leaves (.node k s []) = [.node k s []] := List.filter_cons_of_pos hl
      have htext : (Tree.node k s []).text source = u := Span.text_append hsrc (by rw [hspan]) (by rw [hspan])
      rw [hleaves, List.map_singleton, htext]
      exact ⟨[], [], by simp, by simp, by simp [Text.BlankJoined]⟩
    · have hleaves : leaves (.node k s cs) = (nodesAll cs).filter (·.kind.isLeaf) :=
        List.filter_cons_of_neg (by rw [hl]; exact Bool.false_ne_true)
      rw [hleaves]
      exact SpreadAll.joined hG source hsrc hcs

theorem SpreadAll.joined {G : Gaps} (hG : ∀ c, G.char c → isBlank c = true) (source : Text) :
    ∀ {ts : List Tree} {pre u post : Text}, source = pre ++ (u ++ post) → SpreadAll G (bytes pre) u ts →
    Text.BlankJoined (((nodesAll ts).filter (·.kind.isLeaf)).map (·.text source)) u
  | [], pre, u, post, hsrc, h => by
    rw [SpreadAll] at h
    exact fun c hc => hG c (h c hc)
  | t :: ts, pre, _, post, hsrc, h => by
    rw [SpreadAll] at h
    obtain ⟨g, v, w, rfl, hg, ht, hts⟩ := h
    rw [← Text.bytes_append] at ht hts
    rw [← Text.bytes_append] at hts
    have ht' := Spread.joined hG source (show source = (pre ++ g) ++ (v ++ (w ++ post)) by simp [hsrc]) ht
    have hts' := SpreadAll.joined hG source (show source = (pre ++ g ++ v) ++ (w ++ post) by simp [hsrc]) hts
    rw [nodesAll, List.filter_append, List.map_append]
    exact Text.BlankJoined.gap_append (fun c hc => hG c (hg c hc)) (ht'.append hts')

end

end Tree

/-! ## Children -/

namespace Arena

theorem children_eq {a : Arena} {id : Nat} {n : Node} (h : a.get? id = some n) : a.children id = n.children := by
  rw [children, h]
  rfl

theorem mem_children {a : Arena} {id c : Nat} (h : c ∈ a.children id) : ∃ n, a.get? id = some n ∧ c ∈ n.children := by
  cases hn : a.get? id with
  | none =>
    rw [children, hn] at h
    cases h
  | some n => exact ⟨n, rfl, children_eq hn ▸ h⟩

/-- If no number occurs twice among all children, a node has one parent. -/
theorem parent_unique {a : Arena} (h : (childNumbers a.nodes.toList).Nodup) {p q c : Nat} (hp : c ∈ a.children p)
    (hq : c ∈ a.children q) : p = q := by
  have hlt : ∀ {p q : Nat}, c ∈ a.children p → c ∈ a.children q → ¬ p < q := by
    intro p q hp hq hpq
    obtain ⟨n, hn, hcn⟩ := mem_children hp
    obtain ⟨m, hm, hcm⟩ := mem_children hq
    rw [eq_ofRow a, get?_ofRow] at hn hm
    obtain ⟨hpl, rfl⟩ := List.getElem?_eq_some_iff.1 hn
    obtain ⟨hql, rfl⟩ := List.getElem?_eq_some_iff.1 hm
    exact List.pairwise_iff_getElem.1 (List.nodup_flatMap.1 h).2 p q hpl hql hpq hcn hcm
  exact Nat.le_antisymm (Nat.le_of_not_lt (hlt hq hp)) (Nat.le_of_not_lt (hlt hp hq))

theorem HoldsAll.pairwise {a : Arena} {R : Tree → Tree → Prop} {S : Nat → Nat → Prop}
    (hRS : ∀ t u i j, Holds a t i → Holds a u j → R t u → S i j) : ∀ {ts : List Tree} {ids : List Nat},
    HoldsAll a ts ids → ts.Pairwise R → ids.Pairwise S
  | [], _, h, _ => by
    rw [HoldsAll] at h
    rw [h]
    exact .nil
  | t :: ts, _, h, hp => by
    rw [HoldsAll] at h
    obtain ⟨id, ids, rfl, ht, hts⟩ := h
    obtain ⟨htp, hp⟩ := List.pairwise_cons.1 hp
    refine .cons (fun j hj => ?_) (hts.pairwise hRS hp)
    obtain ⟨u, hu, huj⟩ := hts.mem hj
    exact hRS t u id j ht huj (htp u hu)

end Arena

/-! ## Documents -/

/-- Gaps are blank; nothing is asked of nodes. -/
def Tree.looseGaps : Gaps where
  char c := isBlank c = true
  node _ _ _ _ := True

theorem parse_loose {doc : Document} {c : Cst} (h : doc.parse = .ok c) :
    Tree.Spread Tree.looseGaps 0 doc.text c.tree := by
  obtain ⟨cs, htree, hcs⟩ := parse_spread h
  rw [htree, Tree.Spread]
  refine ⟨by rw [Nat.zero_add], (fun hl => nomatch hl), fun _ => ⟨trivial, ?_⟩⟩
  exact Tree.Spread.monoAll (G := Tree.blankGaps) (H := Tree.looseGaps) (fun _ hc => hc) (fun _ _ _ _ _ => trivial) hcs

/-- Every node stands in the text, with layout between its children. -/
theorem parse_gaps {doc : Document} {c : Cst} (h : doc.parse = .ok c) {t : Tree} (ht : t ∈ c.tree.nodes) :
    ∃ pre u post, doc.text = pre ++ (u ++ post) ∧ t.span = ⟨bytes pre, bytes pre + bytes u⟩ ∧
      (t.kind.isLeaf = true ∧ t.children = [] ∨
        t.kind.isLeaf = false ∧ Tree.SpreadAll Tree.layoutGaps (bytes pre) u t.children) := by
  obtain ⟨cs, htree, hcs⟩ := parse_layout h
  rw [htree, Tree.nodes, List.mem_cons] at ht
  rcases ht with rfl | ht
  · exact ⟨[], doc.text, [], by simp, by simp [Tree.span], .inr ⟨rfl, hcs⟩⟩
  · obtain ⟨pre, u, post, hsrc, ht⟩ := hcs.below ht
    rw [Nat.zero_add] at ht
    exact ⟨pre, u, post, hsrc, ht.span, ht.children⟩

theorem parse_source {doc : Document} {c : Cst} (h : doc.parse = .ok c) : c.source = doc.text := by
  obtain ⟨inner, rfl, -, -⟩ := parse_cases h
  rfl

theorem parse_root {doc : Document} {c : Cst} (h : doc.parse = .ok c) : c.root = 0 := by
  obtain ⟨inner, rfl, -, -⟩ := parse_cases h
  rfl

/-- The arena of a parsed document holds its tree, and its numbers are those of a tree. -/
theorem parse_arena {doc : Document} {c : Cst} (h : doc.parse = .ok c) :
    c.arena.Ascending ∧ (Arena.childNumbers c.arena.nodes.toList).Perm (List.range' 1 (c.arena.size - 1)) ∧
      Arena.Holds c.arena c.tree 0 := by
  obtain ⟨inner, rfl, -, -⟩ := parse_cases h
  rw [tree_ofParse]
  exact arena_ofParse doc.text _

theorem parse_exists_tree {doc : Document} {c : Cst} (h : doc.parse = .ok c) {n : Node} (hn : n ∈ c.arena.nodes.toList) :
    ∃ t ∈ c.tree.nodes, t.kind = n.kind ∧ t.span = n.span := by
  obtain ⟨hasc, hperm, hholds⟩ := parse_arena h
  obtain ⟨id, hid, hget⟩ := List.mem_iff_getElem.1 hn
  obtain ⟨t, ht, htid⟩ := Arena.exists_holds hasc hperm hholds id (by simpa [Arena.size] using hid)
  obtain ⟨ids, hnode, -⟩ := htid.get?
  have hat : c.arena.get? id = some n := by
    rw [Arena.get?, ← Array.getElem?_toList, ← hget]
    exact List.getElem?_eq_getElem hid
  obtain rfl : n = ⟨t.kind, t.span, ids⟩ := Option.some.inj (hat.symm.trans hnode)
  exact ⟨t, ht, rfl, rfl⟩

theorem parse_exists_node {doc : Document} {c : Cst} (h : doc.parse = .ok c) {t : Tree} (ht : t ∈ c.tree.nodes) :
    ∃ n ∈ c.arena.nodes.toList, n.kind = t.kind ∧ n.span = t.span := by
  obtain ⟨-, -, hholds⟩ := parse_arena h
  obtain ⟨id, htid⟩ := hholds.exists_below ht
  obtain ⟨ids, hnode, -⟩ := htid.get?
  exact ⟨_, Array.mem_toList_iff.2 (Array.mem_of_getElem? hnode), rfl, rfl⟩

theorem parse_node {doc : Document} {c : Cst} (h : doc.parse = .ok c) {id : Nat} {n : Node}
    (hn : c.arena.get? id = some n) :
    ∃ t pre u post, t.kind = n.kind ∧ t.span = n.span ∧ Arena.HoldsAll c.arena t.children n.children ∧
      doc.text = pre ++ (u ++ post) ∧ Tree.Spread Tree.looseGaps (bytes pre) u t := by
  obtain ⟨hasc, hperm, hholds⟩ := parse_arena h
  have hid : id < c.arena.size := by
    rw [Arena.get?] at hn
    exact (Array.getElem?_eq_some_iff.1 hn).1
  obtain ⟨t, ht, htid⟩ := Arena.exists_holds hasc hperm hholds id hid
  obtain ⟨ids, hget, hcs⟩ := htid.get?
  obtain rfl : n = ⟨t.kind, t.span, ids⟩ := Option.some.inj (hn.symm.trans hget)
  obtain ⟨pre, u, post, hsrc, hu⟩ := (parse_loose h).below ht
  exact ⟨t, pre, u, post, rfl, rfl, hcs, hsrc, by simpa using hu⟩

/-- The children of a node are spread over its text, if there are any. -/
theorem parse_children {doc : Document} {c : Cst} (h : doc.parse = .ok c) {id : Nat} {n : Node}
    (hn : c.arena.get? id = some n) :
    n.children = [] ∨ n.kind.isLeaf = false ∧ ∃ ts u, Arena.HoldsAll c.arena ts n.children ∧
      n.span.stop = n.span.start + bytes u ∧ Tree.SpreadAll Tree.looseGaps n.span.start u ts := by
  obtain ⟨t, pre, u, post, hkind, hspan, hcs, hsrc, hu⟩ := parse_node h hn
  rcases hu.children with ⟨hl, hnil⟩ | ⟨hl, hall⟩
  · rw [hnil, Arena.HoldsAll] at hcs
    exact .inl hcs
  · rw [← hkind, ← hspan, hu.span]
    exact .inr ⟨hl, t.children, u, hcs, rfl, hall⟩

theorem span_of_holds {a : Arena} {t : Tree} {id : Nat} (h : Arena.Holds a t id) {n : Node} (hn : a.get? id = some n) :
    n.span = t.span := by
  obtain ⟨ids, hget, -⟩ := h.get?
  rw [hget] at hn
  cases hn
  rfl

/-- **The nodes of a parsed document are a tree that is nested in its text and covers it.** -/
theorem parse_lossless {doc : Document} {c : Cst} (h : doc.parse = .ok c) : c.source = doc.text ∧ c.Lossless := by
  have hloose := parse_loose h
  have hsource := parse_source h
  have hroot := parse_root h
  obtain ⟨hasc, hperm, hholds⟩ := parse_arena h
  have hnodup : (Arena.childNumbers c.arena.nodes.toList).Nodup := hperm.nodup_iff.2 List.nodup_range'
  refine ⟨hsource, ?_⟩
  constructor
  case root_span =>
    obtain ⟨ids, hget, -⟩ := hholds.get?
    rw [hroot, hget, hsource, hloose.span, Nat.zero_add]
    rfl
  case span =>
    intro id n hn
    obtain ⟨t, pre, u, post, -, hspan, -, hsrc, hu⟩ := parse_node h hn
    rw [← hspan, hu.span, hsource, hsrc]
    refine ⟨Nat.le_add_right _ _, ?_, ⟨pre, u ++ post, rfl, rfl⟩, ⟨pre ++ u, post, by simp, Text.bytes_append _ _⟩⟩
    simp only [Text.bytes_append]
    omega
  case parent =>
    intro id hid hne
    rw [hroot] at hne
    have hmem : id ∈ Arena.childNumbers c.arena.nodes.toList :=
      hperm.mem_iff.2 (List.mem_range'_1.2 (by omega))
    obtain ⟨parent, n, hn, hc⟩ := Arena.mem_childNumbers.1 hmem
    have hchild : id ∈ c.arena.children parent := Arena.children_eq hn ▸ hc
    exact ⟨parent, hchild, fun q hq => Arena.parent_unique hnodup hq hchild⟩
  case root_no_child =>
    intro id hid
    obtain ⟨n, hn, hc⟩ := Arena.mem_children hid
    have := hasc id n hn c.root hc
    omega
  case child_once =>
    intro id
    cases hn : c.arena.get? id with
    | none => simp [Arena.children, hn]
    | some n =>
      rw [Arena.children_eq hn]
      exact (List.nodup_flatMap.1 hnodup).1 n (Array.mem_toList_iff.2 (Array.mem_of_getElem? hn))
  case ascending => exact hasc
  case inside =>
    intro id n hn i hi m hm
    rcases parse_children h hn with hnil | ⟨-, ts, u, hcs, hstop, hall⟩
    · rw [hnil] at hi
      cases hi
    · obtain ⟨t, ht, hti⟩ := hcs.mem hi
      rw [span_of_holds hti hm, hstop]
      exact hall.inside ht
  case ordered =>
    intro id n hn
    rcases parse_children h hn with hnil | ⟨-, ts, u, hcs, -, hall⟩
    · rw [hnil]
      exact .nil
    · refine hcs.pairwise (fun t t' i j ht ht' hlt m m' hm hm' => ?_) hall.ordered
      rw [span_of_holds ht hm, span_of_holds ht' hm']
      exact hlt
  case leaf =>
    intro id n hn hl
    rcases parse_children h hn with hnil | ⟨hl', -⟩
    · exact hnil
    · rw [hl] at hl'
      cases hl'
  case covered =>
    intro before x after hx
    rw [hsource] at hx
    refine (hloose.covered (fun _ hc => hc) hx).imp_left fun ⟨leaf, hmem, hl, hs, he⟩ => ?_
    obtain ⟨id, hid⟩ := hholds.exists_below hmem
    obtain ⟨ids, hget, -⟩ := hid.get?
    rw [Nat.zero_add] at hs he
    exact ⟨id, _, hget, hl, hs, he⟩
  case joined =>
    rw [hsource]
    exact Tree.Spread.joined (fun _ hc => hc) doc.text (show doc.text = [] ++ (doc.text ++ []) by simp) hloose

/-- A statement with an element, an interpolation and a comment. -/
theorem parse_lossless_statement :
    ∃ c, (Document.mk "a.mbx" "let a = <b>x \x7by\x7d</b> // z\n".toList).parse = .ok c ∧ c.Lossless := by
  have hok : (match (Document.mk "a.mbx" "let a = <b>x \x7by\x7d</b> // z\n".toList).parse with
    | .ok _ => true
    | .error _ => false) = true := by decide +kernel
  cases hp : (Document.mk "a.mbx" "let a = <b>x \x7by\x7d</b> // z\n".toList).parse with
  | ok c => exact ⟨c, rfl, (parse_lossless hp).2⟩
  | error e =>
    rw [hp] at hok
    cases hok

end InlineMarkup
