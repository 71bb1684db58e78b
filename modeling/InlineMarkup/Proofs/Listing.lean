import InlineMarkup.Cst.View
import InlineMarkup.Proofs.Lines
import InlineMarkup.Proofs.Lossless
import Mathlib.Data.List.Count
import Mathlib.Data.List.Range
/-!
# Proofs.Listing — the listing of a tree and its snapshot

The listing keeps the nodes that are still to be written on a stack; it writes what recursion over the snapshot gives
(`listWaiting_of_holds`).  Escaped texts have no line ends, so it has one line for each entry of the snapshot.  The nodes
that are visited are the root and, node by node, the children of visited nodes; every node but the root is the child of
one node, so each is visited once (`perm_range`).
-/
namespace InlineMarkup

/-! ## Entries -/

namespace Snapshot

/-- A node of a snapshot and how deep it stands in it. -/
structure Entry where
  depth : Nat
  kind : Kind
  span : Span
  text : Option Text
  deriving DecidableEq, Repr

mutual

/-- The nodes of a snapshot, parents before their children. -/
def entries (depth : Nat) : Snapshot → List Entry
  | .node k s t cs => ⟨depth, k, s, t⟩ :: entriesAll (depth + 1) cs

def entriesAll (depth : Nat) : List Snapshot → List Entry
  | [] => []
  | s :: ss => s.entries depth ++ entriesAll depth ss

end

/-- Two spaces for each level, the kind and the span, and the escaped text if there is one. -/
def Entry.line (e : Entry) : Text :=
  List.replicate (2 * e.depth) ' ' ++ (e.kind.name.toList ++ '@' :: (toString e.span.start).toList ++ ['.', '.'] ++
    (toString e.span.stop).toList ++ e.text.elim [] (' ' :: Text.quoted ·))

end Snapshot

/-! ## One entry is one line -/

theorem feed_notMem_toDigits {b : Nat} (hb : 1 < b) (hb' : b ≤ 16) (n : Nat) : '\n' ∉ Nat.toDigits b n := by
  have hdigit : ∀ d < 16, '\n' ≠ Nat.digitChar d := by decide
  induction n using Nat.strongRecOn with
  | ind n ih =>
    rw [Nat.toDigits_eq_if hb]
    split
    · next hn => exact fun h => hdigit n (by omega) (List.mem_singleton.1 h)
    · next hn =>
      rw [List.mem_append, List.mem_singleton, not_or]
      exact ⟨ih (n / b) (Nat.div_lt_self (by omega) hb), hdigit _ (Nat.lt_of_lt_of_le (Nat.mod_lt n (by omega)) hb')⟩

theorem Text.feed_notMem_quotedChar (x : Char) : '\n' ∉ quotedChar x := by
  have hdigits := feed_notMem_toDigits (b := 16) (by decide) (by decide) x.toNat
  by_cases hx : x = '\n'
  · subst hx
    decide
  · unfold quotedChar hexDigits
    split_ifs <;> simp [Ne.symm hx, hdigits]

theorem Text.feed_notMem_quoted (t : Text) : '\n' ∉ quoted t := by
  have hchars : '\n' ∉ t.flatMap quotedChar := by
    intro h
    obtain ⟨x, -, hx⟩ := List.mem_flatMap.1 h
    exact feed_notMem_quotedChar x hx
  simp [quoted, hchars]

theorem Kind.feed_notMem_name (k : Kind) : '\n' ∉ k.name.toList := by
  cases k <;> decide

/-- **An entry is written on one line.** -/
theorem Snapshot.Entry.feed_notMem_line (e : Entry) : '\n' ∉ e.line := by
  have htext : '\n' ∉ e.text.elim [] (' ' :: Text.quoted ·) := by
    cases e.text with
    | none => exact List.not_mem_nil
    | some t => simp [Text.feed_notMem_quoted]
  have hdigits : ∀ n, '\n' ∉ Nat.toDigits 10 n := feed_notMem_toDigits (by decide) (by decide)
  simp [line, e.kind.feed_notMem_name, hdigits, htext]

/-! ## The stack and the recursion -/

namespace Arena

variable {a : Arena} {source : Text}

/-- The entry shows the node with this number. -/
def Shows (a : Arena) (source : Text) (id : Nat) (e : Snapshot.Entry) : Prop :=
  ∃ n, a.get? id = some n ∧ e.kind = n.kind ∧ e.span = n.span ∧
    e.text = if n.kind.isLeaf then some (n.span.text source) else none

theorem Shows.lt_size {id : Nat} {e : Snapshot.Entry} (h : a.Shows source id e) : id < a.size := by
  obtain ⟨n, hn, -⟩ := h
  exact (Array.getElem?_eq_some_iff.1 hn).1

theorem headline_eq (source : Text) (n : Node) (depth : Nat) :
    List.replicate (2 * depth) ' ' ++ n.headline source =
      Snapshot.Entry.line ⟨depth, n.kind, n.span, if n.kind.isLeaf then some (n.span.text source) else none⟩ := by
  unfold Node.headline Snapshot.Entry.line
  cases n.kind.isLeaf <;> rfl

variable (source)

mutual

/-- **A tree on the stack is listed as recursion lists it**, before what waits below it. -/
theorem listWaiting_of_holds : ∀ {t : Tree} {id : Nat}, Holds a t id → ∀ (depth steps : Nat) (waiting : List (Nat × Nat)),
    a.listWaiting source (t.count + steps) ((id, depth) :: waiting) =
      (((t.snapshot source).entries depth).map Snapshot.Entry.line).flatMap (· ++ ['\n']) ++
        a.listWaiting source steps waiting
  | .node k s cs, id, h, depth, steps, waiting => by
    obtain ⟨ids, hget, hcs⟩ := h.get?
    -- the step for the node itself leaves its children on the stack, one level deeper
    have hrest := listWaiting_of_holdsAll hcs (depth + 1) steps waiting
    rw [Tree.count, Nat.add_right_comm, listWaiting, hget]
    dsimp only [Tree.kind, Tree.span]
    rw [headline_eq, Tree.snapshot, Snapshot.entries, List.map_cons, List.flatMap_cons]
    simp only [Tree.children] at hrest
    rw [hrest]
    simp

theorem listWaiting_of_holdsAll : ∀ {ts : List Tree} {ids : List Nat}, HoldsAll a ts ids →
    ∀ (depth steps : Nat) (waiting : List (Nat × Nat)),
    a.listWaiting source (Tree.counts ts + steps) (ids.map (·, depth) ++ waiting) =
      ((Snapshot.entriesAll depth (Tree.snapshots source ts)).map Snapshot.Entry.line).flatMap (· ++ ['\n']) ++
        a.listWaiting source steps waiting
  | [], ids, h, depth, steps, waiting => by
    rw [HoldsAll] at h
    rw [h, Tree.counts, Nat.zero_add]
    rfl
  | t :: ts, ids, h, depth, steps, waiting => by
    rw [HoldsAll] at h
    obtain ⟨id, ids', rfl, ht, hts⟩ := h
    rw [Tree.counts, Nat.add_assoc, List.map_cons, List.cons_append, listWaiting_of_holds ht,
      listWaiting_of_holdsAll hts, Tree.snapshots, Snapshot.entriesAll, List.map_append, List.flatMap_append,
      List.append_assoc]

end

/-! ## Every node once -/

mutual

/-- **The nodes that are visited**: with every node also its children. -/
theorem Holds.visits : ∀ {t : Tree} {id : Nat}, Holds a t id → ∀ depth : Nat, ∃ ids : List Nat,
    List.Forall₂ (a.Shows source) ids ((t.snapshot source).entries depth) ∧ ids.Perm (id :: ids.flatMap a.children)
  | .node k s cs, id, h, depth => by
    obtain ⟨below, hget, hcs⟩ := h.get?
    obtain ⟨ids, hshows, hperm⟩ := hcs.visits (depth + 1)
    have hchildren : a.children id = below := children_eq hget
    refine ⟨id :: ids, .cons ⟨_, hget, rfl, rfl, rfl⟩ hshows, ?_⟩
    rw [List.flatMap_cons, hchildren]
    exact hperm.cons id

theorem HoldsAll.visits : ∀ {ts : List Tree} {tops : List Nat}, HoldsAll a ts tops → ∀ depth : Nat, ∃ ids : List Nat,
    List.Forall₂ (a.Shows source) ids (Snapshot.entriesAll depth (Tree.snapshots source ts)) ∧
      ids.Perm (tops ++ ids.flatMap a.children)
  | [], tops, h, depth => by
    rw [HoldsAll] at h
    rw [h]
    exact ⟨[], .nil, .nil⟩
  | t :: ts, tops, h, depth => by
    rw [HoldsAll] at h
    obtain ⟨id, tops, rfl, ht, hts⟩ := h
    obtain ⟨ids, hshows, hperm⟩ := ht.visits depth
    obtain ⟨ids', hshows', hperm'⟩ := hts.visits depth
    refine ⟨ids ++ ids', List.rel_append hshows hshows', ?_⟩
    rw [List.flatMap_append, List.cons_append]
    exact (hperm.append hperm').trans ((List.perm_append_comm_assoc _ tops _).cons id)

end

/-- How often a child is reached is how often its parent is. -/
theorem count_children {p x : Nat} (hp : (a.children p).count x = 1) (hother : ∀ q, q ≠ p → x ∉ a.children q)
    (ids : List Nat) : (ids.flatMap a.children).count x = ids.count p := by
  induction ids with
  | nil => rfl
  | cons id ids ih =>
    rw [List.flatMap_cons, List.count_append, ih, List.count_cons]
    by_cases hid : id = p
    · subst hid
      simp [hp, Nat.add_comm]
    · simp [List.count_eq_zero_of_not_mem (hother id hid), hid]

/-- **Every number is visited once**, if each but the root's is that of one child. -/
theorem perm_range (hasc : a.Ascending) (hperm : (childNumbers a.nodes.toList).Perm (List.range' 1 (a.size - 1)))
    {ids : List Nat} (hids : ids.Perm (0 :: ids.flatMap a.children)) (hin : ∀ id ∈ ids, id < a.size) :
    ids.Perm (List.range a.size) := by
  have hnodup : (childNumbers a.nodes.toList).Nodup := hperm.nodup_iff.2 List.nodup_range'
  have honce : ∀ x, x < a.size → ids.count x = 1 := by
    intro x
    -- a parent has a smaller number than its child, and is visited as often
    induction x using Nat.strongRecOn with
    | ind x ih =>
      intro hx
      rw [hids.count_eq, List.count_cons]
      by_cases h0 : x = 0
      · subst h0
        have hroot : 0 ∉ ids.flatMap a.children := by
          intro hmem
          obtain ⟨id, -, hc⟩ := List.mem_flatMap.1 hmem
          obtain ⟨n, hn, hc⟩ := mem_children hc
          have := hasc id n hn 0 hc
          omega
        simp [List.count_eq_zero_of_not_mem hroot]
      · have hmem : x ∈ childNumbers a.nodes.toList := hperm.mem_iff.2 (List.mem_range'_1.2 (by omega))
        obtain ⟨parent, n, hn, hc⟩ := mem_childNumbers.1 hmem
        have hn : a.get? parent = some n := hn
        obtain ⟨hlt, -⟩ := hasc parent n hn x hc
        have hchild : x ∈ a.children parent := children_eq hn ▸ hc
        have hsiblings : (a.children parent).Nodup := by
          rw [children_eq hn]
          exact (List.nodup_flatMap.1 hnodup).1 n (Array.mem_toList_iff.2 (Array.mem_of_getElem? hn))
        have hother : ∀ q, q ≠ parent → x ∉ a.children q := fun q hq hx => hq (parent_unique hnodup hx hchild)
        rw [count_children (List.count_eq_one_of_mem hsiblings hchild) hother, ih parent hlt (by omega)]
        simp [Ne.symm h0]
  rw [List.perm_iff_count]
  intro x
  rw [List.count_range]
  split
  · next hx => exact honce x hx
  · next hx => exact List.count_eq_zero_of_not_mem fun h => hx (hin x h)

end Arena

/-- **The listing of a document is its snapshot, line by line.**  The lines are those of the entries of the snapshot,
parents before children, and there is nothing behind the last line end.  There are as many as nodes, and in this order the
entries show the nodes of the document, each of them once. -/
theorem dump_eq_snapshot {doc : Document} {c : Cst} (h : doc.parse = .ok c) :
    Text.lines c.dump = (c.snapshot.entries 0).map Snapshot.Entry.line ++ [[]] ∧
      (c.snapshot.entries 0).length = c.arena.size ∧
      ∃ ids : List Nat, ids.Perm (List.range c.arena.size) ∧
        List.Forall₂ (c.arena.Shows doc.text) ids (c.snapshot.entries 0) := by
  obtain ⟨hasc, hperm, hholds⟩ := parse_arena h
  have hsource := parse_source h
  obtain ⟨ids, hshows, hids⟩ := hholds.visits doc.text 0
  have hin : ∀ id ∈ ids, id < c.arena.size :=
    ((List.forall₂_and_left _ _).1 (hshows.imp fun _ _ hshow => ⟨hshow.lt_size, hshow⟩)).1
  have hrange := Arena.perm_range hasc hperm hids hin
  have hsnapshot : c.snapshot = c.tree.snapshot doc.text := by rw [Cst.snapshot, hsource]
  rw [hsnapshot]
  refine ⟨?_, ?_, ids, hrange, hshows⟩
  · have hdump : c.dump =
        (((c.tree.snapshot doc.text).entries 0).map Snapshot.Entry.line).flatMap (· ++ ['\n']) := by
      have := Arena.listWaiting_of_holds doc.text hholds 0 0 []
      rw [Cst.dump, parse_root h, hsource, ← Nat.add_zero c.tree.count, this]
      exact List.append_nil _
    rw [hdump, Text.lines_flatMap]
    intro l hl
    obtain ⟨e, -, rfl⟩ := List.mem_map.1 hl
    exact e.feed_notMem_line
  · rw [← hshows.length_eq, hrange.length_eq, List.length_range]

/-- Raw text over two lines, and an empty tuple. -/
def rawAndTuple : Document := ⟨"a.mbx", "@(\n)\n()".toList⟩

theorem dump_eq_snapshot_raw : ∃ c, rawAndTuple.parse = .ok c ∧ c.arena.size = 9 ∧
    Text.lines c.dump =
      ["Program@0..7", "  Opaque@0..4 \"@(\\n)\"", "  ExprStatement@5..7", "    Expression@5..7", "      Unary@5..7",
        "        Postfix@5..7", "          TupleExpr@5..7", "            Token@5..6 \"(\"", "            Token@6..7 \")\"",
        ""].map String.toList ∧
    Text.lines c.dump = (c.snapshot.entries 0).map Snapshot.Entry.line ++ [[]] ∧
    (c.snapshot.entries 0).length = c.arena.size ∧
    ∃ ids : List Nat, ids.Perm (List.range c.arena.size) ∧
      List.Forall₂ (c.arena.Shows rawAndTuple.text) ids (c.snapshot.entries 0) := by
  have hlisted : rawAndTuple.parse.toOption.map (fun c => (c.arena.size, Text.lines c.dump)) =
      some (9, ["Program@0..7", "  Opaque@0..4 \"@(\\n)\"", "  ExprStatement@5..7", "    Expression@5..7",
        "      Unary@5..7", "        Postfix@5..7", "          TupleExpr@5..7", "            Token@5..6 \"(\"",
        "            Token@6..7 \")\"", ""].map String.toList) := by
    decide +kernel
  cases hparse : rawAndTuple.parse with
  | error d => rw [hparse] at hlisted; cases hlisted
  | ok c =>
    rw [hparse] at hlisted
    obtain ⟨hsize, hlines⟩ := Prod.mk.inj (Option.some.inj hlisted)
    exact ⟨c, rfl, hsize, hlines, dump_eq_snapshot hparse⟩

end InlineMarkup
