import InlineMarkup.Cst.Arena
import InlineMarkup.Proofs.DocumentTree
/-!
# Proofs.Index — how many elements a document has

The index counts the elements among the nodes of the arena (`elements_markupIndex`).  The nodes of a document's arena have
the kinds of the nodes of its tree, tokens aside, so these are the elements of the tree (`elements_of_parse`).
-/
namespace InlineMarkup

/-! ## The count of the index -/

namespace Arena

theorem elements_foldl (a : Arena) : ∀ (ids : List Nat) (x : MarkupIndex),
    (ids.foldl (MarkupIndex.visit a) x).elements = x.elements + ids.countP fun id => (a.get? id).any (·.kind.isMarkup)
  | [], x => rfl
  | id :: ids, x => by
    rw [List.foldl_cons, elements_foldl a ids, List.countP_cons]
    unfold MarkupIndex.visit
    cases a.get? id with
    | none => simp
    | some n => cases hk : n.kind.isMarkup <;> simp [hk]; omega

theorem countP_range {α : Type} (q : α → Bool) : ∀ l : List α,
    (List.range l.length).countP (fun i => (l[i]?).any q) = l.countP q
  | [] => rfl
  | x :: l => by
    rw [List.length_cons, List.range_succ_eq_map, List.countP_cons, List.countP_map, List.countP_cons, ← countP_range q l]
    simp [Function.comp_def]

/-- **The index counts the elements of the arena.** -/
theorem elements_markupIndex (a : Arena) : a.markupIndex.elements = a.nodes.toList.countP (·.kind.isMarkup) := by
  rw [markupIndex, elements_foldl, List.countP_reverse, ← countP_range _ a.nodes.toList, Nat.zero_add, Array.length_toList]
  refine List.countP_congr fun id _ => ?_
  rw [get?, Array.getElem?_toList]

end Arena

/-! ## Kinds of the arena and of the tree -/

namespace Tree

mutual

theorem kinds_row : ∀ (t : Tree) (base : Nat), (t.row base).map Node.kind = t.nodes.map kind
  | .node k s cs, base => by rw [row, nodes, List.map_cons, List.map_cons, kinds_rows]; rfl

theorem kinds_rows : ∀ (ts : List Tree) (base : Nat), (rows base ts).map Node.kind = (nodesAll ts).map kind
  | [], _ => rfl
  | t :: ts, base => by rw [rows, nodesAll, List.map_append, List.map_append, kinds_row, kinds_rows]

end

theorem nodesAll_append : ∀ ts us : List Tree, nodesAll (ts ++ us) = nodesAll ts ++ nodesAll us
  | [], _ => rfl
  | t :: ts, us => by rw [List.cons_append, nodesAll, nodesAll_append ts us, nodesAll, List.append_assoc]

theorem nodesAll_tokens (source : Text) (start stop : Nat) :
    nodesAll (tokenTrees source start stop) = tokenTrees source start stop := by
  rw [tokenTrees]
  induction gapTokens source start stop with
  | nil => rfl
  | cons s ss ih => rw [List.map_cons, nodesAll, ih]; rfl

/-- How many nodes of a kind there are. -/
def countKind (k : Kind) (t : Tree) : Nat := t.nodes.countP (·.kind == k)

variable {source : Text} {k : Kind}

theorem countP_tokens (hk : k ≠ .token) (start stop : Nat) :
    (nodesAll (tokenTrees source start stop)).countP (·.kind == k) = 0 := by
  rw [nodesAll_tokens, List.countP_eq_zero]
  intro t ht
  obtain ⟨s, -, rfl⟩ := List.mem_map.1 ht
  simpa [kind] using hk.symm

theorem countP_withTokens (hk : k ≠ .token) (stop : Nat) : ∀ (ts : List Tree) (cursor : Nat),
    (nodesAll (withTokens source stop cursor ts)).countP (·.kind == k) = (nodesAll ts).countP (·.kind == k)
  | [], cursor => countP_tokens hk cursor stop
  | t :: ts, cursor => by
    rw [withTokens, nodesAll_append, List.countP_append, countP_tokens hk, nodesAll, List.countP_append,
      countP_withTokens hk stop ts, nodesAll, List.countP_append, Nat.zero_add]

mutual

/-- **Tokens do not change how many nodes of another kind there are.** -/
theorem countP_tokenized (hk : k ≠ .token) : ∀ t : Tree, (t.tokenized source).nodes.countP (·.kind == k) = t.nodes.countP (·.kind == k)
  | .node k' s cs => by
    rw [tokenized, nodes, nodes, List.countP_cons, List.countP_cons]
    congr 1
    split
    · exact countP_tokenizedAll hk cs
    · rw [countP_withTokens hk]
      exact countP_tokenizedAll hk cs

theorem countP_tokenizedAll (hk : k ≠ .token) : ∀ ts : List Tree,
    (nodesAll (tokenizedAll source ts)).countP (·.kind == k) = (nodesAll ts).countP (·.kind == k)
  | [] => rfl
  | t :: ts => by
    rw [tokenizedAll, nodesAll, nodesAll, List.countP_append, List.countP_append, countP_tokenized hk t,
      countP_tokenizedAll hk ts]

end

end Tree

open Arena InlineMarkup.Tree

theorem kind_of_dressed {source : Text} {x ts : List Node} : ∀ {l l' : List Node},
    List.Forall₂ (Dressed source x ts) l l' → l'.map Node.kind = l.map Node.kind
  | _, _, .nil => rfl
  | _, _, .cons h hs => by
    rw [List.map_cons, List.map_cons, kind_of_dressed hs]
    cases h <;> rfl

/-- The arena of a document has as many nodes of a kind as its tree, unless they are tokens. -/
theorem countP_arena {doc : Document} {c : Cst} (h : doc.parse = .ok c) {k : Kind} (hk : k ≠ .token) :
    c.arena.nodes.toList.countP (·.kind == k) = c.tree.countKind k := by
  obtain ⟨inner, rfl, -, -⟩ := parse_cases h
  obtain ⟨x', ss, heq, hd, -⟩ := addTokens_row doc.text _ (ascending_row ((Tree.ofParse _).trimmed doc.text))
  have hkinds : ∀ l : List Node, l.countP (·.kind == k) = (l.map Node.kind).countP (· == k) := fun l => by
    rw [List.countP_map]
    rfl
  have htokens : (ss.map tokenNode).countP (·.kind == k) = 0 := by
    rw [List.countP_eq_zero]
    intro n hn
    obtain ⟨s, -, rfl⟩ := List.mem_map.1 hn
    simpa [tokenNode] using hk.symm
  rw [arena_eq_row, heq, countKind, tree_ofParse, countP_tokenized hk]
  show (x' ++ ss.map tokenNode).countP _ = _
  rw [List.countP_append, htokens, Nat.add_zero, hkinds, kind_of_dressed hd, kinds_row, List.countP_map]
  rfl

/-- **The index of a document counts the elements of its tree.** -/
theorem elements_of_parse {doc : Document} {c : Cst} (h : doc.parse = .ok c) :
    c.arena.markupIndex.elements = c.tree.countKind .element := by
  rw [elements_markupIndex, ← countP_arena h (by decide)]
  refine List.countP_congr fun n _ => ?_
  cases n.kind <;> decide

end InlineMarkup
