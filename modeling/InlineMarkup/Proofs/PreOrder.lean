import InlineMarkup.Proofs.Rows
import Mathlib.Data.List.Forall2
import Mathlib.Logic.Relation
/-!
# Proofs.PreOrder — which parse trees become nodes, and in which order

A parse tree is kept if its rule makes a node and so do all the rules around it, none of them a leaf (`Kept.Below`).
The nodes of a document's parse are its kept parse trees, numbered in the order of their addresses, and the children of
a node are the kept trees right inside it, in order (`Arena.ofParse_preOrder`).
-/
namespace InlineMarkup

open Grammar (Parse Rule)

/-- A parse tree that makes a node: its address, which names the place of each tree around it and its own among its
neighbours, its kind and range, and the parse trees inside it. -/
structure Kept where
  address : List Nat
  kind : Kind
  span : Span
  inner : List (Parse Rule)

namespace Kept

/-- The parse tree at an address, if its rule makes a node. -/
def of? (address : List Nat) : Parse Rule → Option Kept
  | .node r start stop inner => (Kind.ofRule? r).map fun k => ⟨address, k, ⟨start, stop⟩, inner⟩

/-- A whole document's parse tree. -/
def root : Parse Rule → Kept
  | .node _ start stop inner => ⟨[], .program, ⟨start, stop⟩, inner⟩

/-- The kept ones of parse trees that stand one after the other, the first at place `j`. -/
def among (address : List Nat) (j : Nat) (ps : List (Parse Rule)) : List Kept :=
  (ps.zipIdx j).filterMap fun x => of? (address ++ [x.2]) x.1

/-- The kept parse trees right inside one; what is inside a leaf is ignored. -/
def children (s : Kept) : List Kept := if s.kind.isLeaf then [] else among s.address 0 s.inner

/-- A kept parse tree inside another, at any depth. -/
def Below : Kept → Kept → Prop := Relation.ReflTransGen fun s c => c ∈ s.children

/-! ## Inside a kept parse tree -/

theorem exists_of_mem_among {address : List Nat} {j : Nat} {ps : List (Parse Rule)} {c : Kept}
    (h : c ∈ among address j ps) : ∃ p ∈ ps, ∃ i, j ≤ i ∧ of? (address ++ [i]) p = some c := by
  obtain ⟨x, hx, hc⟩ := List.mem_filterMap.1 h
  exact ⟨x.1, List.fst_mem_of_mem_zipIdx hx, x.2, List.le_snd_of_mem_zipIdx hx, hc⟩

theorem among_cons (address : List Nat) (j : Nat) (p : Parse Rule) (ps : List (Parse Rule)) :
    among address j (p :: ps) = (of? (address ++ [j]) p).toList ++ among address (j + 1) ps := by
  rw [among, List.zipIdx_cons, List.filterMap_cons]
  cases of? (address ++ [j]) p <;> rfl

theorem address_of? {address : List Nat} : ∀ {p : Parse Rule} {c : Kept}, of? address p = some c → c.address = address
  | .node _ _ _ _, _, h => by
    obtain ⟨_, _, rfl⟩ := Option.map_eq_some_iff.1 h
    rfl

theorem size_le_sizes : ∀ {ps : List (Parse Rule)} {p : Parse Rule}, p ∈ ps → ParseTree.size p ≤ ParseTree.sizes ps
  | _ :: _, _, .head _ => Nat.le_add_right _ _
  | _ :: _, _, .tail _ h => Nat.le_trans (size_le_sizes h) (Nat.le_add_left _ _)

theorem sizes_of? {address : List Nat} : ∀ {p : Parse Rule} {c : Kept},
    of? address p = some c → ParseTree.sizes c.inner < ParseTree.size p
  | .node _ _ _ _, _, h => by
    obtain ⟨_, _, rfl⟩ := Option.map_eq_some_iff.1 h
    exact Nat.lt_succ_self _

theorem mem_among_of_mem_children {s c : Kept} (h : c ∈ s.children) : c ∈ among s.address 0 s.inner := by
  rw [children] at h
  split at h
  · cases h
  · exact h

theorem sizes_lt_of_mem_children {s c : Kept} (h : c ∈ s.children) :
    ParseTree.sizes c.inner < ParseTree.sizes s.inner := by
  obtain ⟨p, hp, _, _, hc⟩ := exists_of_mem_among (mem_among_of_mem_children h)
  exact Nat.lt_of_lt_of_le (sizes_of? hc) (size_le_sizes hp)

/-! ## The walk -/

/-- A kept parse tree and all that is kept inside it, every one before those inside it. -/
def walk (s : Kept) : List Kept := s :: s.children.attach.flatMap fun c => walk c.1
termination_by ParseTree.sizes s.inner
decreasing_by exact sizes_lt_of_mem_children c.2

theorem walk_eq (s : Kept) : s.walk = s :: s.children.flatMap walk := by
  rw [walk, List.flatMap_subtype (g := walk) (fun _ _ => rfl), List.unattach_attach]

theorem mem_walk {s t : Kept} : t ∈ s.walk ↔ s.Below t := by
  constructor
  · induction s using walk.induct with
    | case1 s ih =>
      intro h
      rw [walk_eq, List.mem_cons, List.mem_flatMap] at h
      obtain rfl | ⟨c, hc, ht⟩ := h
      · exact .refl
      · exact .head hc (ih ⟨c, hc⟩ ht)
  · intro h
    induction h using Relation.ReflTransGen.head_induction_on with
    | refl => rw [walk_eq]; exact List.mem_cons_self
    | head hc _ ih => rw [walk_eq]; exact List.mem_cons_of_mem _ (List.mem_flatMap.2 ⟨_, hc, ih⟩)

/-- What is inside a kept parse tree has a longer address. -/
theorem Below.address {s t : Kept} (h : s.Below t) : ∃ rest, t.address = s.address ++ rest := by
  induction h with
  | refl => exact ⟨[], (List.append_nil _).symm⟩
  | tail _ hc ih =>
    obtain ⟨rest, hrest⟩ := ih
    obtain ⟨_, _, i, _, hi⟩ := exists_of_mem_among (mem_among_of_mem_children hc)
    exact ⟨rest ++ [i], by rw [address_of? hi, hrest, List.append_assoc]⟩

/-- Those inside one parse tree stand before those inside a later one. -/
theorem pairwise_among (address : List Nat) : ∀ (ps : List (Parse Rule)) (j : Nat),
    (among address j ps).Pairwise fun c d => ∀ t, c.Below t → ∀ u, d.Below u → t.address < u.address
  | [], _ => .nil
  | p :: ps, j => by
    rw [among_cons]
    refine List.pairwise_append.2 ⟨?_, pairwise_among address ps (j + 1), ?_⟩
    · cases of? (address ++ [j]) p with
      | none => exact .nil
      | some c => exact List.pairwise_singleton _ _
    · intro c hc d hd t ht u hu
      -- the two addresses part where the first says `j` and the second a later place
      obtain ⟨_, _, i, hji, hi⟩ := exists_of_mem_among hd
      obtain ⟨rest, hrest⟩ := ht.address
      obtain ⟨rest', hrest'⟩ := hu.address
      rw [hrest, hrest', address_of? (Option.mem_toList.1 hc), address_of? hi, List.append_assoc, List.append_assoc]
      exact List.append_left_lt (.rel hji)

theorem pairwise_walk (s : Kept) : s.walk.Pairwise fun t u => t.address < u.address := by
  induction s using walk.induct with
  | case1 s ih =>
    rw [walk_eq]
    refine .cons ?_ (List.pairwise_flatMap.2 ⟨fun c hc => ih ⟨c, hc⟩, ?_⟩)
    · intro t ht
      obtain ⟨c, hc, ht⟩ := List.mem_flatMap.1 ht
      obtain ⟨rest, hrest⟩ := (mem_walk.1 ht).address
      obtain ⟨_, _, i, _, hi⟩ := exists_of_mem_among (mem_among_of_mem_children hc)
      rw [hrest, address_of? hi, List.append_assoc]
      nth_rewrite 1 [← List.append_nil s.address]
      exact List.append_left_lt .nil
    · rw [children]
      split
      · exact .nil
      · exact (pairwise_among s.address s.inner 0).imp fun h t ht u hu => h t (mem_walk.1 ht) u (mem_walk.1 hu)

/-! ## The row of the walk -/

/-- The tree of a kept parse tree. -/
def tree (s : Kept) : Tree := .node s.kind s.span (if s.kind.isLeaf then [] else Tree.namedAll s.inner)

theorem named_eq (address : List Nat) : ∀ p : Parse Rule, Tree.named p = (of? address p).toList.map tree
  | .node r _ _ _ => by
    rw [Tree.named, of?]
    cases Kind.ofRule? r <;> rfl

theorem namedAll_eq (address : List Nat) : ∀ (ps : List (Parse Rule)) (j : Nat),
    Tree.namedAll ps = (among address j ps).map tree
  | [], _ => rfl
  | p :: ps, j => by
    rw [Tree.namedAll, among_cons, List.map_append, ← named_eq, ← namedAll_eq address ps (j + 1)]

theorem tree_eq (s : Kept) : s.tree = .node s.kind s.span (s.children.map tree) := by
  rw [tree, children]
  split
  · rfl
  · rw [namedAll_eq s.address s.inner 0]

theorem length_flatMap_walk : ∀ {cs : List Kept}, (∀ c ∈ cs, c.walk.length = c.tree.count) →
    (cs.flatMap walk).length = Tree.counts (cs.map tree)
  | [], _ => rfl
  | c :: cs, h => by
    rw [List.flatMap_cons, List.length_append, h c List.mem_cons_self,
      length_flatMap_walk fun d hd => h d (List.mem_cons_of_mem _ hd)]
    rfl

theorem length_walk (s : Kept) : s.walk.length = s.tree.count := by
  induction s using walk.induct with
  | case1 s ih =>
    rw [walk_eq, tree_eq, List.length_cons, length_flatMap_walk fun c hc => ih ⟨c, hc⟩]
    rfl

/-- A node is that of a kept parse tree: its kind, its range, and for children the numbers that the kept trees right
inside it have in `l`, in order. -/
structure Describes (l : List Kept) (s : Kept) (n : Node) : Prop where
  kind : n.kind = s.kind
  span : n.span = s.span
  children : n.children.map (l[·]?) = s.children.map some

theorem numbers_walk : ∀ (cs front back : List Kept),
    (Tree.numbers front.length (cs.map tree)).map ((front ++ (cs.flatMap walk ++ back))[·]?) = cs.map some
  | [], _, _ => rfl
  | c :: cs, front, back => by
    have ih := numbers_walk cs (front ++ c.walk) back
    rw [List.length_append, length_walk, List.append_assoc, ← List.append_assoc c.walk] at ih
    rw [List.map_cons, Tree.numbers, List.map_cons, List.flatMap_cons, ih, walk_eq c]
    simp

theorem describes_rows : ∀ {cs : List Kept}, (∀ c ∈ cs, ∀ front back : List Kept,
      List.Forall₂ (Describes (front ++ (c.walk ++ back))) c.walk (c.tree.row front.length)) →
    ∀ front back : List Kept, List.Forall₂ (Describes (front ++ (cs.flatMap walk ++ back))) (cs.flatMap walk)
      (Tree.rows front.length (cs.map tree))
  | [], _, _, _ => .nil
  | c :: cs, h, front, back => by
    have hc := h c List.mem_cons_self front (cs.flatMap walk ++ back)
    have hcs := describes_rows (fun d hd => h d (List.mem_cons_of_mem _ hd)) (front ++ c.walk) back
    rw [List.length_append, length_walk, List.append_assoc] at hcs
    rw [List.flatMap_cons, List.map_cons, Tree.rows, List.append_assoc]
    exact List.rel_append hc hcs

/-- The row of a kept parse tree, written behind other nodes: every node describes its part of the walk. -/
theorem describes_row (s : Kept) : ∀ front back : List Kept,
    List.Forall₂ (Describes (front ++ (s.walk ++ back))) s.walk (s.tree.row front.length) := by
  induction s using walk.induct with
  | case1 s ih =>
    intro front back
    -- the children are written behind `front` and their parent
    have hids := numbers_walk s.children (front ++ [s]) back
    have hrows := describes_rows (fun c hc => ih ⟨c, hc⟩) (front ++ [s]) back
    rw [List.length_append, List.length_singleton, List.append_assoc] at hids hrows
    rw [walk_eq, tree_eq, Tree.row]
    exact .cons ⟨rfl, rfl, hids⟩ hrows

end Kept

/-- The nodes of an arena are those of the kept parse trees inside `root`, in the order of a walk. -/
structure Arena.PreOrder (a : Arena) (root : Kept) (l : List Kept) : Prop where
  /-- The trees of the list are `root` and what is kept inside it. -/
  kept : ∀ s, s ∈ l ↔ root.Below s
  /-- A tree stands before those inside it, and all of these before its later neighbours. -/
  ordered : l.Pairwise fun s t => s.address < t.address
  /-- The node with a number is that of the tree with the number. -/
  nodes : List.Forall₂ (Kept.Describes l) l a.nodes.toList

/-- **Working off the stack of waiting parse trees adds them as recursion does: the nodes are the kept parse trees, in
pre-order, each with the kept trees right inside it as its children, in order.** -/
theorem Arena.ofParse_preOrder (p : Parse Rule) :
    Arena.ofParse p = Arena.planted p ∧ ∃ l, (Arena.ofParse p).PreOrder (Kept.root p) l := by
  have hrow : (Arena.ofParse p).nodes.toList = (Kept.root p).tree.row 0 := by
    rw [Arena.ofParse_eq_row]
    cases p
    rfl
  have hnodes := (Kept.root p).describes_row [] []
  rw [List.nil_append, List.append_nil] at hnodes
  exact ⟨Arena.ofParse_eq_planted p, (Kept.root p).walk, fun _ => Kept.mem_walk, Kept.pairwise_walk _, hrow ▸ hnodes⟩

end InlineMarkup
