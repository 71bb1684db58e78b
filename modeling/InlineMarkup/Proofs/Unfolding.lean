import InlineMarkup.Cst.Build
import InlineMarkup.Proofs.Rows
import Mathlib.Data.List.Forall2
/-!
# Proofs.Unfolding — the tree of a parsed document

Tokens are added to an arena behind all nodes that are there already, and take their places among the children of those
nodes.  Below the root then stands the tree with tokens put into the gaps by plain recursion, every node but the root is
the child of exactly one node, and children have greater numbers than their parents (`arena_ofParse`).
-/
namespace InlineMarkup

namespace Tree

/-- The tokens of the source between two offsets, as trees. -/
def tokenTrees (source : Text) (start stop : Nat) : List Tree :=
  (gapTokens source start stop).map fun s => .node .token s []

/-- The trees from `cursor` up to `stop`, with the tokens before each and after the last. -/
def withTokens (source : Text) (stop : Nat) : Nat → List Tree → List Tree
  | cursor, [] => tokenTrees source cursor stop
  | cursor, t :: ts =>
    tokenTrees source cursor t.span.start ++ t :: withTokens source stop (max cursor t.span.stop) ts

mutual

/-- The tree with tokens among the children of every node that is no leaf. -/
def tokenized (source : Text) : Tree → Tree
  | .node k s cs =>
    .node k s (if k.isLeaf then tokenizedAll source cs else withTokens source s.stop s.start (tokenizedAll source cs))

def tokenizedAll (source : Text) : List Tree → List Tree
  | [] => []
  | t :: ts => t.tokenized source :: tokenizedAll source ts

end

mutual

/-- The tree and all trees below it, parents before their children. -/
def nodes : Tree → List Tree
  | .node k s cs => .node k s cs :: nodesAll cs

def nodesAll : List Tree → List Tree
  | [] => []
  | t :: ts => t.nodes ++ nodesAll ts

end

theorem mem_nodes_self (t : Tree) : t ∈ t.nodes := by
  cases t
  exact List.mem_cons_self

theorem mem_nodesAll {t : Tree} {ts : List Tree} : t ∈ nodesAll ts ↔ ∃ u ∈ ts, t ∈ u.nodes := by
  induction ts with
  | nil => simp [nodesAll]
  | cons u ts ih => simp [nodesAll, ih]

theorem mem_nodes_iff {t u : Tree} : t ∈ u.nodes ↔ t = u ∨ ∃ v ∈ u.children, t ∈ v.nodes := by
  obtain ⟨k, s, cs⟩ := u
  rw [nodes, List.mem_cons, mem_nodesAll]
  rfl

mutual

theorem nodes_trans {u v : Tree} (hu : u ∈ v.nodes) : ∀ {t : Tree}, v ∈ t.nodes → u ∈ t.nodes
  | .node k s cs, hv => by
    rw [nodes, List.mem_cons] at hv ⊢
    rcases hv with rfl | hv
    · rwa [nodes, List.mem_cons] at hu
    · exact .inr (nodesAll_trans hu hv)

theorem nodesAll_trans {u v : Tree} (hu : u ∈ v.nodes) : ∀ {ts : List Tree}, v ∈ nodesAll ts → u ∈ nodesAll ts
  | t :: ts, hv => by
    rw [nodesAll, List.mem_append] at hv ⊢
    exact hv.imp (nodes_trans hu) (nodesAll_trans hu)

end

end Tree

namespace Arena

open InlineMarkup.Tree (numbers row rows)

/-! ## Reading trees off an arena -/

mutual

/-- The tree stands in the arena below this number. -/
def Holds (a : Arena) : Tree → Nat → Prop
  | .node k s cs, id => ∃ ids, a.get? id = some ⟨k, s, ids⟩ ∧ HoldsAll a cs ids

/-- The trees stand in the arena below these numbers. -/
def HoldsAll (a : Arena) : List Tree → List Nat → Prop
  | [], ids => ids = []
  | t :: ts, ids => ∃ id ids', ids = id :: ids' ∧ Holds a t id ∧ HoldsAll a ts ids'

end

theorem Holds.get? {a : Arena} {t : Tree} {id : Nat} (h : Holds a t id) :
    ∃ ids, a.get? id = some ⟨t.kind, t.span, ids⟩ ∧ HoldsAll a t.children ids := by
  obtain ⟨k, s, cs⟩ := t
  rw [Holds] at h
  exact h

mutual

/-- A tree that stands in an arena is what is read off it. -/
theorem unfold_of_holds {a : Arena} (ha : a.Ascending) : ∀ (t : Tree) (d id : Nat), Holds a t id →
    a.size ≤ id + d + 1 → a.unfold d id = t
  | .node k s cs, 0, id, h, hd => by
    obtain ⟨ids, hg, hcs⟩ := h.get?
    have hids : ids = [] := by
      refine List.eq_nil_iff_forall_not_mem.2 fun c hc => ?_
      have := ha id _ hg c hc
      omega
    subst hids
    cases cs with
    | nil => rw [unfold, hg]; rfl
    | cons t ts =>
      obtain ⟨_, _, hn, -⟩ := hcs
      cases hn
  | .node k s cs, d + 1, id, h, hd => by
    obtain ⟨ids, hg, hcs⟩ := h.get?
    rw [unfold, hg]
    show Tree.node k s (ids.map (a.unfold d)) = Tree.node k s cs
    rw [unfold_of_holdsAll ha cs d ids hcs fun c hc => by
      have := ha id _ hg c hc
      omega]

theorem unfold_of_holdsAll {a : Arena} (ha : a.Ascending) : ∀ (ts : List Tree) (d : Nat) (ids : List Nat),
    HoldsAll a ts ids → (∀ c ∈ ids, a.size ≤ c + d + 1) → ids.map (a.unfold d) = ts
  | [], _, ids, h, _ => by
    rw [HoldsAll] at h
    rw [h]; rfl
  | t :: ts, d, ids, h, hd => by
    rw [HoldsAll] at h
    obtain ⟨id, ids', rfl, ht, hts⟩ := h
    rw [List.map_cons, unfold_of_holds ha t d id ht (hd id List.mem_cons_self),
      unfold_of_holdsAll ha ts d ids' hts fun c hc => hd c (List.mem_cons_of_mem _ hc)]

end

theorem tree_of_holds {a : Arena} (ha : a.Ascending) {t : Tree} {id : Nat} (h : Holds a t id) : a.tree id = t :=
  unfold_of_holds ha t a.size id h (by omega)

mutual

theorem holds_row : ∀ (t : Tree) (l r : List Node), Holds (ofRow (l ++ (t.row l.length ++ r))) t l.length
  | .node k s cs, l, r => by
    have h := holdsAll_rows cs (l ++ [⟨k, s, numbers (l.length + 1) cs⟩]) r
    simp only [List.length_append, List.length_cons, List.length_nil, Nat.zero_add, List.append_assoc,
      List.cons_append, List.nil_append] at h
    rw [Holds]
    refine ⟨numbers (l.length + 1) cs, ?_, ?_⟩
    · rw [row, List.cons_append, get?_middle]
    · rw [row, List.cons_append]
      exact h

theorem holdsAll_rows : ∀ (ts : List Tree) (l r : List Node),
    HoldsAll (ofRow (l ++ (rows l.length ts ++ r))) ts (numbers l.length ts)
  | [], _, _ => by rw [HoldsAll, numbers]
  | t :: ts, l, r => by
    have ht := holds_row t l (rows (l.length + t.count) ts ++ r)
    have hts := holdsAll_rows ts (l ++ t.row l.length) r
    rw [List.length_append, Tree.length_row, List.append_assoc] at hts
    rw [HoldsAll, rows, numbers, List.append_assoc]
    exact ⟨l.length, _, rfl, ht, hts⟩

end

/-! ## Numbers in rows -/

theorem mem_numbers : ∀ {base : Nat} {ts : List Tree} {c : Nat}, c ∈ numbers base ts →
    base ≤ c ∧ c < base + Tree.counts ts
  | base, t :: ts, c, h => by
    have := t.count_pos
    rw [numbers, List.mem_cons] at h
    rw [Tree.counts]
    rcases h with rfl | h
    · omega
    · have := mem_numbers h
      omega

mutual

theorem row_ascending : ∀ (t : Tree) (base i : Nat) (n : Node), (t.row base)[i]? = some n →
    ∀ c ∈ n.children, base + i < c ∧ c < base + t.count
  | .node k s cs, base, 0, n, h, c, hc => by
    rw [row, List.getElem?_cons_zero, Option.some.injEq] at h
    subst h
    have := mem_numbers hc
    rw [Tree.count]
    omega
  | .node k s cs, base, i + 1, n, h, c, hc => by
    rw [row, List.getElem?_cons_succ] at h
    have := rows_ascending cs (base + 1) i n h c hc
    rw [Tree.count]
    omega

theorem rows_ascending : ∀ (ts : List Tree) (base i : Nat) (n : Node), (rows base ts)[i]? = some n →
    ∀ c ∈ n.children, base + i < c ∧ c < base + Tree.counts ts
  | [], _, _, _, h, _, _ => by simp [rows] at h
  | t :: ts, base, i, n, h, c, hc => by
    rw [rows, List.getElem?_append] at h
    rw [Tree.counts]
    split at h
    · have := row_ascending t base i n h c hc
      omega
    · rename_i hi
      rw [Tree.length_row] at h hi
      have := rows_ascending ts (base + t.count) _ n h c hc
      omega

end

/-- The numbers of all children. -/
def childNumbers (l : List Node) : List Nat := l.flatMap Node.children

mutual

theorem childNumbers_row : ∀ (t : Tree) (base : Nat),
    (base :: childNumbers (t.row base)).Perm (List.range' base t.count)
  | .node k s cs, base => by
    rw [row, childNumbers, List.flatMap_cons, Tree.count, List.range'_succ]
    exact (childNumbers_rows cs (base + 1)).cons base

theorem childNumbers_rows : ∀ (ts : List Tree) (base : Nat),
    (numbers base ts ++ childNumbers (rows base ts)).Perm (List.range' base (Tree.counts ts))
  | [], _ => by simp [numbers, rows, childNumbers, Tree.counts]
  | t :: ts, base => by
    have ht := childNumbers_row t base
    have hts := childNumbers_rows ts (base + t.count)
    rw [numbers, rows, Tree.counts, ← List.range'_append_1]
    refine List.Perm.trans ?_ (ht.append hts)
    simp only [childNumbers, List.flatMap_append, List.cons_append]
    exact List.Perm.cons base (List.perm_append_comm_assoc ..)

end

/-! ## Tokens behind the row -/

/-- The node of a token. -/
def tokenNode (s : Span) : Node := ⟨.token, s, []⟩

theorem pushTokens_row : ∀ (ss : List Span) (l : List Node),
    (ofRow l).pushTokens ss = (ofRow (l ++ ss.map tokenNode), List.range' l.length ss.length)
  | [], l => by simp [pushTokens]
  | s :: ss, l => by
    have hpush : (ofRow l).push .token s none = ofRow (l ++ [tokenNode s]) := by
      simp [push, ofRow, tokenNode]
    rw [pushTokens, hpush, pushTokens_row ss]
    simp [List.range'_succ]

/-- Behind a row of `base` nodes stand the nodes `ts`; one of them, number `id`, is the token of this span. -/
def TokenAt (base : Nat) (ts : List Node) (id : Nat) (s : Span) : Prop :=
  base ≤ id ∧ ts[id - base]? = some (tokenNode s)

theorem TokenAt.append {base : Nat} {ts : List Node} {id : Nat} {s : Span} (h : TokenAt base ts id s)
    (us : List Node) : TokenAt base (ts ++ us) id s := by
  refine ⟨h.1, ?_⟩
  rw [List.getElem?_append_left (List.getElem?_eq_some_iff.1 h.2).1]
  exact h.2

theorem tokenAt_pushed (base : Nat) : ∀ (ss : List Span) (ts us : List Node),
    List.Forall₂ (TokenAt base (ts ++ (ss.map tokenNode ++ us))) (List.range' (base + ts.length) ss.length) ss
  | [], _, _ => .nil
  | s :: ss, ts, us => by
    have h := tokenAt_pushed base ss (ts ++ [tokenNode s]) us
    rw [List.length_append, List.append_assoc] at h
    rw [List.length_cons, List.range'_succ]
    refine .cons ⟨Nat.le_add_right _ _, ?_⟩ h
    rw [Nat.add_sub_cancel_left]
    simp

/-- `ids'` is `ids` with the numbers of the tokens before, between and behind them, from `cursor` up to `stop`. -/
inductive Merged (tok : Nat → Span → Prop) (span : Nat → Span) (source : Text) (stop : Nat) :
    Nat → List Nat → List Nat → Prop
  | last {cursor : Nat} {new : List Nat} : List.Forall₂ tok new (gapTokens source cursor stop) →
    Merged tok span source stop cursor [] new
  | child {cursor id : Nat} {ids new ids' : List Nat} :
    List.Forall₂ tok new (gapTokens source cursor (span id).start) →
    Merged tok span source stop (max cursor (span id).stop) ids ids' →
    Merged tok span source stop cursor (id :: ids) (new ++ id :: ids')

theorem Merged.mono {tok tok' : Nat → Span → Prop} {span : Nat → Span} {source : Text} {stop : Nat}
    (htok : ∀ id s, tok id s → tok' id s) {cursor : Nat} {ids ids' : List Nat}
    (h : Merged tok span source stop cursor ids ids') : Merged tok' span source stop cursor ids ids' := by
  induction h with
  | last hn => exact .last (hn.imp htok)
  | child hn _ ih => exact .child (hn.imp htok) ih

theorem Merged.mem {tok : Nat → Span → Prop} {span : Nat → Span} {source : Text} {stop cursor : Nat}
    {ids ids' : List Nat} (h : Merged tok span source stop cursor ids ids') {c : Nat} (hc : c ∈ ids') :
    c ∈ ids ∨ ∃ s, tok c s := by
  have htok : ∀ {new : List Nat} {ss : List Span}, List.Forall₂ tok new ss → c ∈ new → ∃ s, tok c s := by
    intro new ss hn hm
    induction hn with
    | nil => cases hm
    | cons hs _ ih =>
      rcases List.mem_cons.1 hm with rfl | hm
      · exact ⟨_, hs⟩
      · exact ih hm
  induction h with
  | last hn => exact .inr (htok hn hc)
  | child hn _ ih =>
    rcases List.mem_append.1 hc with hc | hc
    · exact .inr (htok hn hc)
    · rcases List.mem_cons.1 hc with rfl | hc
      · exact .inl List.mem_cons_self
      · exact (ih hc).imp (List.mem_cons_of_mem _) id

/-- The span of the node with a number. -/
def spanAt (l : List Node) (id : Nat) : Span := (l[id]?.map Node.span).getD ⟨0, 0⟩

/-- One node's gaps: the tokens go behind everything, the numbers of the children keep their order. -/
theorem withGapTokens_row (source : Text) (stop : Nat) (span : Nat → Span) (x : List Node) :
    ∀ (cs : List Nat) (ts : List Node) (cursor : Nat), (∀ c ∈ cs, c < x.length ∧ spanAt x c = span c) →
    ∃ (ss : List Span) (ids : List Nat),
      (ofRow (x ++ ts)).withGapTokens source cursor stop cs = (ofRow (x ++ (ts ++ ss.map tokenNode)), ids) ∧
      Merged (TokenAt x.length (ts ++ ss.map tokenNode)) span source stop cursor cs ids ∧
      ids.Perm (cs ++ List.range' (x ++ ts).length ss.length)
  | [], ts, cursor, _ => by
    refine ⟨gapTokens source cursor stop, List.range' (x ++ ts).length (gapTokens source cursor stop).length,
      ?_, .last ?_, ?_⟩
    · rw [withGapTokens, pushTokens_row, List.append_assoc]
    · have h := tokenAt_pushed x.length (gapTokens source cursor stop) ts []
      rwa [List.append_nil, ← List.length_append] at h
    · exact List.Perm.refl _
  | c :: cs, ts, cursor, hcs => by
    obtain ⟨hc, hs⟩ := hcs c List.mem_cons_self
    have hspan : (((ofRow (x ++ ts)).get? c).map Node.span).getD ⟨0, 0⟩ = span c := by
      rw [get?_ofRow, List.getElem?_append_left hc]
      exact hs
    let ss := gapTokens source cursor (span c).start
    obtain ⟨ss', ids, heq, hm, hp⟩ := withGapTokens_row source stop span x cs (ts ++ ss.map tokenNode)
      (max cursor (span c).stop) fun d hd => hcs d (List.mem_cons_of_mem _ hd)
    refine ⟨ss ++ ss', List.range' (x ++ ts).length ss.length ++ c :: ids, ?_, ?_, ?_⟩
    · rw [withGapTokens, hspan, pushTokens_row, List.append_assoc]
      simp only
      rw [heq, List.map_append, List.append_assoc]
    · rw [List.map_append]
      rw [List.append_assoc] at hm
      refine .child ?_ hm
      have h := tokenAt_pushed x.length ss ts (ss'.map tokenNode)
      rwa [← List.length_append] at h
    · have hss : (ss ++ ss').length = ss.length + ss'.length := List.length_append
      rw [hss, ← List.range'_append_1]
      have hlen : (x ++ (ts ++ ss.map tokenNode)).length = (x ++ ts).length + ss.length := by simp; omega
      rw [hlen] at hp
      refine (List.perm_middle.trans (List.Perm.cons c ?_))
      exact (List.Perm.append_left _ hp).trans (List.perm_append_comm_assoc ..)

/-- What a node of the row `x` becomes: its children, if it is no leaf, with tokens from `ts` among them. -/
inductive Dressed (source : Text) (x ts : List Node) : Node → Node → Prop
  | leaf {n : Node} : n.kind.isLeaf = true → Dressed source x ts n n
  | inner {k : Kind} {s : Span} {ids ids' : List Nat} : ¬ k.isLeaf = true →
    Merged (TokenAt x.length ts) (spanAt x) source s.stop s.start ids ids' → Dressed source x ts ⟨k, s, ids⟩ ⟨k, s, ids'⟩

theorem Dressed.span_eq {source : Text} {x ts : List Node} {n n' : Node} (h : Dressed source x ts n n') :
    n'.span = n.span := by
  cases h <;> rfl

theorem Dressed.append {source : Text} {x ts : List Node} {n n' : Node} (h : Dressed source x ts n n')
    (us : List Node) : Dressed source x (ts ++ us) n n' := by
  cases h with
  | leaf hl => exact .leaf hl
  | inner hl hm => exact .inner hl (hm.mono fun _ _ ht => ht.append us)

/-- **One node.**  `x` is the row before any tokens: only the children differ from it, and `ts` are the tokens so far. -/
theorem addTokensAt_row (source : Text) (x l r ts : List Node) (n : Node) (hlen : (l ++ n :: r).length = x.length)
    (hspan : ∀ c, c < x.length → spanAt (l ++ n :: r) c = spanAt x c) (hn : ∀ c ∈ n.children, c < x.length) :
    ∃ (n' : Node) (ss : List Span),
      addTokensAt source (ofRow (l ++ n :: (r ++ ts))) l.length = ofRow (l ++ n' :: (r ++ (ts ++ ss.map tokenNode))) ∧
      Dressed source x (ts ++ ss.map tokenNode) n n' ∧
      n'.children.Perm (n.children ++ List.range' (x.length + ts.length) ss.length) := by
  obtain ⟨k, s, ids⟩ := n
  unfold addTokensAt
  rw [get?_middle]
  simp only
  by_cases hl : k.isLeaf = true
  · refine ⟨⟨k, s, ids⟩, [], ?_, .leaf hl, ?_⟩
    · simp [hl]
    · simp
  · obtain ⟨ss, ids', heq, hm, hp⟩ := withGapTokens_row source s.stop (spanAt x) (l ++ ⟨k, s, ids⟩ :: r) ids ts
      s.start fun c hc => ⟨hlen ▸ hn c hc, hspan c (hn c hc)⟩
    rw [hlen] at hm
    rw [List.length_append, hlen] at hp
    rw [List.append_assoc, List.cons_append] at heq
    refine ⟨⟨k, s, ids'⟩, ss, ?_, .inner hl hm, hp⟩
    rw [if_neg hl, heq]
    simp only
    rw [replaceChildren, List.append_assoc, List.cons_append, update_middle]

/-- **All nodes.**  The nodes of `l` have their tokens already, those of `r` get them. -/
theorem addTokens_fold (source : Text) (x : List Node) : ∀ (r l ts : List Node), (l ++ r).length = x.length →
    (∀ c, c < x.length → spanAt (l ++ r) c = spanAt x c) → (∀ n ∈ r, ∀ c ∈ n.children, c < x.length) →
    ∃ (r' : List Node) (ss : List Span),
      (List.range' l.length r.length).foldl (addTokensAt source) (ofRow (l ++ (r ++ ts))) =
        ofRow (l ++ (r' ++ (ts ++ ss.map tokenNode))) ∧
      List.Forall₂ (Dressed source x (ts ++ ss.map tokenNode)) r r' ∧
      (childNumbers r').Perm (childNumbers r ++ List.range' (x.length + ts.length) ss.length)
  | [], l, ts, _, _, _ => ⟨[], [], by simp, .nil, by simp [childNumbers]⟩
  | n :: r, l, ts, hlen, hspan, hr => by
    obtain ⟨n', ss, heq, hd, hp⟩ := addTokensAt_row source x l r ts n hlen hspan (hr n List.mem_cons_self)
    have hlen' : (l ++ [n'] ++ r).length = x.length := by
      rw [← hlen]
      simp
    have hspan' : ∀ c, c < x.length → spanAt (l ++ [n'] ++ r) c = spanAt x c := by
      intro c hc
      rw [← hspan c hc, List.append_assoc, List.singleton_append, spanAt, spanAt]
      rcases Nat.lt_trichotomy c l.length with h | h | h
      · rw [List.getElem?_append_left h, List.getElem?_append_left h]
      · subst h
        simp [hd.span_eq]
      · rw [List.getElem?_append_right (Nat.le_of_lt h), List.getElem?_append_right (Nat.le_of_lt h),
          List.getElem?_cons, List.getElem?_cons, if_neg (by omega), if_neg (by omega)]
    obtain ⟨r', ss', heq', hds, hps⟩ := addTokens_fold source x r (l ++ [n']) (ts ++ ss.map tokenNode) hlen' hspan'
      fun m hm => hr m (List.mem_cons_of_mem _ hm)
    refine ⟨n' :: r', ss ++ ss', ?_, ?_, ?_⟩
    · rw [List.length_cons, List.range'_succ, List.foldl_cons, List.cons_append, heq]
      simpa only [List.length_append, List.length_singleton, List.append_assoc, List.cons_append, List.nil_append,
        List.map_append] using heq'
    · rw [List.append_assoc] at hds
      rw [List.map_append]
      refine .cons ?_ hds
      rw [← List.append_assoc]
      exact hd.append _
    · have hss : (ss ++ ss').length = ss.length + ss'.length := List.length_append
      have hts : x.length + (ts ++ ss.map tokenNode).length = x.length + ts.length + ss.length := by simp; omega
      rw [hts] at hps
      rw [hss, ← List.range'_append_1]
      simp only [childNumbers, List.flatMap_cons, List.append_assoc] at hps ⊢
      refine (hp.append hps).trans ?_
      rw [List.append_assoc]
      exact List.Perm.append_left _ (List.perm_append_comm_assoc ..)

/-- **Adding tokens to a row**: the nodes stay where they are, the tokens come behind them. -/
theorem addTokens_row (source : Text) (x : List Node) (hx : (ofRow x).Ascending) :
    ∃ (x' : List Node) (ss : List Span), (ofRow x).addTokens source = ofRow (x' ++ ss.map tokenNode) ∧
      List.Forall₂ (Dressed source x (ss.map tokenNode)) x x' ∧
      (childNumbers x').Perm (childNumbers x ++ List.range' x.length ss.length) := by
  obtain ⟨x', ss, heq, hd, hp⟩ := addTokens_fold source x x [] [] rfl (fun _ _ => rfl) fun n hn c hc => by
    obtain ⟨i, hi⟩ := List.getElem?_of_mem hn
    exact (hx i n (by rw [get?_ofRow, hi]) c hc).2
  refine ⟨x', ss, ?_, hd, hp⟩
  simpa [addTokens, List.range_eq_range'] using heq

/-! ## The tree with tokens -/

theorem holdsAll_tokens {a : Arena} : ∀ {ids : List Nat} {ss : List Span},
    List.Forall₂ (fun id s => a.get? id = some (tokenNode s)) ids ss →
    HoldsAll a (ss.map fun s => Tree.node .token s []) ids
  | [], [], _ => by rw [List.map_nil, HoldsAll]
  | id :: ids, s :: ss, h => by
    obtain ⟨hs, hss⟩ := List.forall₂_cons.1 h
    rw [List.map_cons, HoldsAll]
    refine ⟨id, ids, rfl, ?_, holdsAll_tokens hss⟩
    rw [Holds]
    exact ⟨[], hs, by rw [HoldsAll]⟩

theorem HoldsAll.mem {a : Arena} : ∀ {ts : List Tree} {ids : List Nat}, HoldsAll a ts ids → ∀ {c : Nat}, c ∈ ids →
    ∃ t ∈ ts, Holds a t c
  | [], _, h, c, hc => by
    rw [HoldsAll] at h
    rw [h] at hc
    cases hc
  | t :: ts, _, h, c, hc => by
    rw [HoldsAll] at h
    obtain ⟨id, ids, rfl, ht, hts⟩ := h
    rcases List.mem_cons.1 hc with rfl | hc
    · exact ⟨t, List.mem_cons_self, ht⟩
    · obtain ⟨u, hu, huc⟩ := hts.mem hc
      exact ⟨u, List.mem_cons_of_mem _ hu, huc⟩

theorem HoldsAll.append {a : Arena} : ∀ {ts us : List Tree} {ids ids' : List Nat}, HoldsAll a ts ids →
    HoldsAll a us ids' → HoldsAll a (ts ++ us) (ids ++ ids')
  | [], us, ids, ids', ht, hu => by
    rw [HoldsAll] at ht
    subst ht
    exact hu
  | t :: ts, us, _, ids', ht, hu => by
    rw [HoldsAll] at ht
    obtain ⟨id, ids, rfl, h, hts⟩ := ht
    rw [List.cons_append, HoldsAll]
    exact ⟨id, ids ++ ids', rfl, h, hts.append hu⟩

theorem holdsAll_merged {a : Arena} {tok : Nat → Span → Prop} {span : Nat → Span} {source : Text} {stop cursor : Nat}
    {ids ids' : List Nat} (h : Merged tok span source stop cursor ids ids')
    (htok : ∀ id s, tok id s → a.get? id = some (tokenNode s)) : ∀ {ts : List Tree}, HoldsAll a ts ids →
    (∀ c ∈ ids, ∀ n, a.get? c = some n → n.span = span c) → HoldsAll a (Tree.withTokens source stop cursor ts) ids' := by
  induction h with
  | last hn =>
    intro ts hts _
    cases ts with
    | nil =>
      rw [Tree.withTokens]
      exact holdsAll_tokens (hn.imp htok)
    | cons t ts =>
      rw [HoldsAll] at hts
      obtain ⟨_, _, hnil, -⟩ := hts
      cases hnil
  | @child cursor id ids new ids' hn _ ih =>
    intro ts hts hspan
    cases ts with
    | nil =>
      rw [HoldsAll] at hts
      cases hts
    | cons t ts =>
      rw [HoldsAll] at hts
      obtain ⟨_, _, hcons, ht, hts⟩ := hts
      cases hcons
      obtain ⟨_, hget, -⟩ := ht.get?
      have hs : t.span = span id := hspan id List.mem_cons_self _ hget
      rw [Tree.withTokens, hs]
      refine (holdsAll_tokens (hn.imp htok)).append ?_
      rw [HoldsAll]
      exact ⟨id, ids', rfl, ht, ih hts fun c hc => hspan c (List.mem_cons_of_mem _ hc)⟩

section Dressed

variable {source : Text} {x x' : List Node} {ss : List Span}

theorem get?_dressed (hd : List.Forall₂ (Dressed source x (ss.map tokenNode)) x x') {id : Nat} {n : Node} (h : x[id]? = some n) :
    ∃ n', (ofRow (x' ++ ss.map tokenNode)).get? id = some n' ∧ Dressed source x (ss.map tokenNode) n n' := by
  obtain ⟨hid, rfl⟩ := List.getElem?_eq_some_iff.1 h
  have hid' : id < x'.length := hd.length_eq ▸ hid
  refine ⟨x'[id], ?_, hd.get hid hid'⟩
  rw [get?_ofRow, List.getElem?_append_left hid', List.getElem?_eq_getElem hid']

theorem get?_tokenAt (hd : List.Forall₂ (Dressed source x (ss.map tokenNode)) x x') {id : Nat} {s : Span} (h : TokenAt x.length (ss.map tokenNode) id s) :
    (ofRow (x' ++ ss.map tokenNode)).get? id = some (tokenNode s) := by
  rw [get?_ofRow, List.getElem?_append_right (hd.length_eq ▸ h.1), ← hd.length_eq]
  exact h.2

mutual

theorem holds_tokenized (hd : List.Forall₂ (Dressed source x (ss.map tokenNode)) x x') : ∀ {t : Tree} {id : Nat}, Holds (ofRow x) t id →
    Holds (ofRow (x' ++ ss.map tokenNode)) (t.tokenized source) id
  | .node k s cs, id, h => by
    rw [Holds] at h
    obtain ⟨ids, hget, hcs⟩ := h
    rw [get?_ofRow] at hget
    obtain ⟨n', hget', hn'⟩ := get?_dressed hd hget
    rw [Tree.tokenized, Holds]
    cases hn' with
    | leaf hl =>
      rw [if_pos hl]
      exact ⟨ids, hget', holdsAll_tokenized hd hcs⟩
    | inner hl hm =>
      rw [if_neg hl]
      refine ⟨_, hget', holdsAll_merged hm (fun _ _ => get?_tokenAt hd) (holdsAll_tokenized hd hcs) fun c hc n hn => ?_⟩
      obtain ⟨t, -, ht⟩ := hcs.mem hc
      obtain ⟨_, hgc, -⟩ := ht.get?
      rw [get?_ofRow] at hgc
      obtain ⟨n', hn', hdc⟩ := get?_dressed hd hgc
      obtain rfl : n = n' := Option.some.inj (hn.symm.trans hn')
      rw [hdc.span_eq, spanAt, hgc]
      rfl

theorem holdsAll_tokenized (hd : List.Forall₂ (Dressed source x (ss.map tokenNode)) x x') : ∀ {ts : List Tree} {ids : List Nat}, HoldsAll (ofRow x) ts ids →
    HoldsAll (ofRow (x' ++ ss.map tokenNode)) (Tree.tokenizedAll source ts) ids
  | [], _, h => by
    rw [HoldsAll] at h
    rw [Tree.tokenizedAll, HoldsAll]
    exact h
  | t :: ts, _, h => by
    rw [HoldsAll] at h
    obtain ⟨id, ids, rfl, ht, hts⟩ := h
    rw [Tree.tokenizedAll, HoldsAll]
    exact ⟨id, ids, rfl, holds_tokenized hd ht, holdsAll_tokenized hd hts⟩

end

/-- Children keep their order, and tokens come behind all nodes. -/
theorem ascending_dressed (hd : List.Forall₂ (Dressed source x (ss.map tokenNode)) x x')
    (hx : (ofRow x).Ascending) : (ofRow (x' ++ ss.map tokenNode)).Ascending := by
  intro id n hn c hc
  have hlen := hd.length_eq
  rw [size_ofRow, List.length_append, ← hlen]
  by_cases hid : id < x.length
  · obtain ⟨n', hn', hdn⟩ := get?_dressed hd (List.getElem?_eq_getElem hid)
    obtain rfl : n = n' := Option.some.inj (hn.symm.trans hn')
    have hold : c ∈ x[id].children → id < c ∧ c < x.length + (ss.map tokenNode).length := fun h => by
      have := hx id x[id] (by rw [get?_ofRow, List.getElem?_eq_getElem hid]) c h
      rw [size_ofRow] at this
      omega
    generalize x[id] = m at hdn hold
    cases hdn with
    | leaf _ => exact hold hc
    | inner _ hm =>
      rcases hm.mem hc with h | ⟨s, hge, hs⟩
      · exact hold h
      · have := (List.getElem?_eq_some_iff.1 hs).1
        omega
  · rw [get?_ofRow, List.getElem?_append_right (hlen ▸ Nat.le_of_not_lt hid), List.getElem?_map] at hn
    obtain ⟨s, -, rfl⟩ := Option.map_eq_some_iff.1 hn
    cases hc

end Dressed

/-! ## Every number has its tree -/

mutual

theorem Holds.exists_below {a : Arena} {u : Tree} : ∀ {t : Tree} {id : Nat}, Holds a t id → u ∈ t.nodes →
    ∃ id', Holds a u id'
  | .node k s cs, id, h, hu => by
    rw [Tree.nodes, List.mem_cons] at hu
    rcases hu with rfl | hu
    · exact ⟨id, h⟩
    · obtain ⟨ids, -, hcs⟩ := h.get?
      exact hcs.exists_below hu

theorem HoldsAll.exists_below {a : Arena} {u : Tree} : ∀ {ts : List Tree} {ids : List Nat}, HoldsAll a ts ids →
    u ∈ Tree.nodesAll ts → ∃ id', Holds a u id'
  | t :: ts, _, h, hu => by
    rw [HoldsAll] at h
    obtain ⟨id, ids, -, ht, hts⟩ := h
    rw [Tree.nodesAll, List.mem_append] at hu
    rcases hu with hu | hu
    · exact ht.exists_below hu
    · exact hts.exists_below hu

end

theorem mem_childNumbers {l : List Node} {c : Nat} :
    c ∈ childNumbers l ↔ ∃ id n, (ofRow l).get? id = some n ∧ c ∈ n.children := by
  rw [childNumbers, List.mem_flatMap]
  constructor
  · rintro ⟨n, hn, hc⟩
    obtain ⟨id, hid⟩ := List.getElem?_of_mem hn
    exact ⟨id, n, by rw [get?_ofRow, hid], hc⟩
  · rintro ⟨id, n, hn, hc⟩
    rw [get?_ofRow] at hn
    exact ⟨n, List.mem_of_getElem? hn, hc⟩

/-- A number other than the root's is that of a child, and so on up to the root. -/
theorem exists_holds {a : Arena} {t : Tree} (hasc : a.Ascending)
    (hp : (childNumbers a.nodes.toList).Perm (List.range' 1 (a.size - 1))) (ht : Holds a t 0) :
    ∀ id, id < a.size → ∃ u ∈ t.nodes, Holds a u id := by
  intro id
  induction id using Nat.strongRecOn with
  | ind id ih =>
    intro hid
    by_cases h0 : id = 0
    · subst h0
      exact ⟨t, t.mem_nodes_self, ht⟩
    · have hmem : id ∈ childNumbers a.nodes.toList := hp.mem_iff.2 (List.mem_range'_1.2 (by omega))
      obtain ⟨parent, n, hn, hc⟩ := mem_childNumbers.1 hmem
      obtain ⟨hlt, -⟩ := hasc parent n hn id hc
      obtain ⟨u, hu, hup⟩ := ih parent hlt (by omega)
      obtain ⟨ids, hget, hcs⟩ := hup.get?
      obtain rfl : n = ⟨u.kind, u.span, ids⟩ := Option.some.inj (hn.symm.trans hget)
      obtain ⟨v, hv, hvid⟩ := hcs.mem hc
      exact ⟨v, Tree.nodes_trans (Tree.mem_nodes_iff.2 (.inr ⟨v, hv, v.mem_nodes_self⟩)) hu, hvid⟩

end Arena

open Arena

/-! ## The arena of a parse -/

theorem ascending_row (t : Tree) : (ofRow (t.row 0)).Ascending := by
  intro id n hn c hc
  rw [get?_ofRow] at hn
  have := row_ascending t 0 id n hn c hc
  rw [size_ofRow, Tree.length_row]
  omega

theorem arena_eq_row (source : Text) (p : Grammar.Parse Grammar.Rule) :
    (Cst.ofParse source p).arena = (ofRow (((Tree.ofParse p).trimmed source).row 0)).addTokens source := by
  rw [← trim_row, ← ofParse_eq_row]
  rfl

/-- **The nodes of a parsed document**: children come after their parents, every number but the root's is the child of
one node, once, and below the root stands the tree that plain recursion gives. -/
theorem arena_ofParse (source : Text) (p : Grammar.Parse Grammar.Rule) :
    (Cst.ofParse source p).arena.Ascending ∧
    (childNumbers (Cst.ofParse source p).arena.nodes.toList).Perm
      (List.range' 1 ((Cst.ofParse source p).arena.size - 1)) ∧
    Holds (Cst.ofParse source p).arena (((Tree.ofParse p).trimmed source).tokenized source) 0 := by
  let t := (Tree.ofParse p).trimmed source
  have hrow : (Cst.ofParse source p).arena = (ofRow (t.row 0)).addTokens source := arena_eq_row source p
  have hx : (ofRow (t.row 0)).Ascending := ascending_row t
  obtain ⟨x', ss, heq, hd, hp⟩ := addTokens_row source (t.row 0) hx
  have hlen : x'.length = t.count := by rw [← hd.length_eq, Tree.length_row]
  rw [hrow, heq]
  refine ⟨ascending_dressed hd hx, ?_, ?_⟩
  · have hrows : (childNumbers (t.row 0)).Perm (List.range' 1 (t.count - 1)) := by
      have h := childNumbers_row t 0
      rw [← Nat.sub_add_cancel t.count_pos, List.range'_succ] at h
      exact h.cons_inv
    have htokens : childNumbers (ss.map tokenNode) = [] := by
      rw [childNumbers, List.flatMap_eq_nil_iff]
      intro n hn
      obtain ⟨s, -, rfl⟩ := List.mem_map.1 hn
      rfl
    show (childNumbers (x' ++ ss.map tokenNode)).Perm _
    have hsum : (x' ++ ss.map tokenNode).length - 1 = (t.count - 1) + ss.length := by
      have := t.count_pos
      rw [List.length_append, List.length_map, hlen]
      omega
    have hnext : 1 + (t.count - 1) = t.count := by
      have := t.count_pos
      omega
    rw [childNumbers, List.flatMap_append, ← childNumbers, ← childNumbers, htokens, List.append_nil, size_ofRow, hsum,
      ← List.range'_append_1, hnext]
    rw [Tree.length_row] at hp
    exact hp.trans (List.Perm.append_right _ hrows)
  · have h := holds_row t [] []
    rw [List.append_nil, List.nil_append] at h
    exact holds_tokenized hd h

end InlineMarkup
