import InlineMarkup.Cst.OfParse
import InlineMarkup.Cst.Tree
/-!
# Proofs.Rows — the nodes of a tree in a row

A tree is written as a row of nodes, every node before its children (`Tree.row`).  Building an arena from a parse by a
stack of waiting trees writes the row of the parse's tree, defined by plain recursion (`ofParse_eq_row`), and moving the
ends of the nodes one by one, from the last to the first, writes the row of the tree whose ends are moved by plain
recursion (`trim_row`).
-/
namespace InlineMarkup

open Grammar (Parse Rule)

/-! ## Trees of a parse, by recursion -/

namespace Tree

mutual

/-- The tree of a parse, if its rule makes a node. -/
def named : Parse Rule → List Tree
  | .node r start stop inner =>
    match Kind.ofRule? r with
    | none => []
    | some k => [.node k ⟨start, stop⟩ (if k.isLeaf then [] else namedAll inner)]

/-- The trees of several parses. -/
def namedAll : List (Parse Rule) → List Tree
  | [] => []
  | p :: ps => named p ++ namedAll ps

end

theorem namedAll_append : ∀ ps qs : List (Parse Rule), namedAll (ps ++ qs) = namedAll ps ++ namedAll qs
  | [], _ => rfl
  | p :: ps, qs => by rw [List.cons_append, namedAll, namedAll_append, namedAll, List.append_assoc]

/-- The tree of a whole document's parse. -/
def ofParse : Parse Rule → Tree
  | .node _ start stop inner => .node .program ⟨start, stop⟩ (namedAll inner)

/-- Where the last of the trees ends, or else `start`. -/
def lastStop (start : Nat) (ts : List Tree) : Nat := (ts.getLast?.map (·.span.stop)).getD start

/-- The span of a node with these children, its end moved back over layout. -/
def trimSpan (source : Text) (k : Kind) (s : Span) (cs : List Tree) : Span :=
  if k.keepsTrailingBlanks then s
  else match Text.slice? source s.start s.stop with
    | none => s
    | some t => { s with stop := max (s.start + Text.bytes (Text.trimEnd Text.isLayout t)) (lastStop s.start cs) }

mutual

/-- The tree with the ends of all nodes moved back over layout. -/
def trimmed (source : Text) : Tree → Tree
  | .node k s cs => .node k (trimSpan source k s (trimmedAll source cs)) (trimmedAll source cs)

def trimmedAll (source : Text) : List Tree → List Tree
  | [] => []
  | t :: ts => t.trimmed source :: trimmedAll source ts

end

/-! ## Rows -/

theorem count_pos : ∀ t : Tree, 0 < t.count
  | .node _ _ cs => Nat.succ_pos (counts cs)

/-- The numbers of trees that stand one after the other from a number on. -/
def numbers : Nat → List Tree → List Nat
  | _, [] => []
  | base, t :: ts => base :: numbers (base + t.count) ts

mutual

/-- The nodes of a tree, numbered from `base` on. -/
def row (base : Nat) : Tree → List Node
  | .node k s cs => ⟨k, s, numbers (base + 1) cs⟩ :: rows (base + 1) cs

def rows (base : Nat) : List Tree → List Node
  | [] => []
  | t :: ts => t.row base ++ rows (base + t.count) ts

end

mutual

theorem length_row : ∀ (base : Nat) (t : Tree), (t.row base).length = t.count
  | base, .node k s cs => by rw [row, List.length_cons, length_rows, count]

theorem length_rows : ∀ (base : Nat) (ts : List Tree), (rows base ts).length = counts ts
  | _, [] => rfl
  | base, t :: ts => by rw [rows, List.length_append, length_row, length_rows, counts]

end

theorem numbers_append : ∀ (base : Nat) (ts us : List Tree),
    numbers base (ts ++ us) = numbers base ts ++ numbers (base + counts ts) us
  | _, [], _ => rfl
  | base, t :: ts, us => by
    rw [List.cons_append, numbers, numbers_append, numbers, counts, Nat.add_assoc, List.cons_append]

theorem rows_append : ∀ (base : Nat) (ts us : List Tree),
    rows base (ts ++ us) = rows base ts ++ rows (base + counts ts) us
  | _, [], _ => rfl
  | base, t :: ts, us => by
    rw [List.cons_append, rows, rows_append, rows, counts, Nat.add_assoc, List.append_assoc]

end Tree

/-! ## Arenas given by rows -/

namespace Arena

open InlineMarkup.Tree (numbers row rows)

/-- The arena with these nodes. -/
def ofRow (l : List Node) : Arena := ⟨l.toArray⟩

theorem eq_ofRow (a : Arena) : a = ofRow a.nodes.toList := rfl

@[simp] theorem size_ofRow (l : List Node) : (ofRow l).size = l.length := rfl

@[simp] theorem get?_ofRow (l : List Node) (i : Nat) : (ofRow l).get? i = l[i]? := by
  simp [get?, ofRow]

theorem modify_middle {α : Type} (f : α → α) : ∀ (l : List α) (x : α) (r : List α),
    (l ++ x :: r).modify l.length f = l ++ f x :: r
  | [], _, _ => rfl
  | y :: l, x, r => by
    rw [List.cons_append, List.length_cons, List.modify_succ_cons, modify_middle f l x r]
    rfl

theorem get?_middle (l : List Node) (n : Node) (r : List Node) : (ofRow (l ++ n :: r)).get? l.length = some n := by
  simp

theorem update_middle (f : Node → Node) (l : List Node) (n : Node) (r : List Node) :
    (ofRow (l ++ n :: r)).update l.length f = ofRow (l ++ f n :: r) := by
  rw [update, ofRow, ofRow, List.modify_toArray, modify_middle]

/-- A node with more children at the end. -/
def adopt (n : Node) (ids : List Nat) : Node := { n with children := n.children ++ ids }

theorem push_middle (l : List Node) (n : Node) (r : List Node) (k : Kind) (s : Span) :
    (ofRow (l ++ n :: r)).push k s (some l.length) =
      ofRow (l ++ adopt n [(l ++ n :: r).length] :: (r ++ [⟨k, s, []⟩])) := by
  have h : (⟨(ofRow (l ++ n :: r)).nodes.push ⟨k, s, []⟩⟩ : Arena) = ofRow (l ++ n :: (r ++ [⟨k, s, []⟩])) := by
    simp [ofRow]
  rw [push]
  simp only [h]
  rw [update_middle]
  rfl

/-! ## Building from a parse -/

mutual

/-- Adds the nodes of a parse below a node, by recursion. -/
def plant (a : Arena) (parent : Nat) : Parse Rule → Arena
  | .node r start stop inner =>
    match Kind.ofRule? r with
    | none => a
    | some k =>
      if k.isLeaf then a.push k ⟨start, stop⟩ (some parent)
      else plantAll (a.push k ⟨start, stop⟩ (some parent)) a.size inner

def plantAll (a : Arena) (parent : Nat) : List (Parse Rule) → Arena
  | [] => a
  | p :: ps => plantAll (plant a parent p) parent ps

end

/-- Adds parses below the nodes they wait for, one after the other. -/
def plantWaiting (a : Arena) (w : List (Parse Rule × Nat)) : Arena := w.foldl (fun a x => a.plant x.2 x.1) a

/-- The steps that waiting parses need. -/
def waitingSize (w : List (Parse Rule × Nat)) : Nat := w.foldr (fun x n => ParseTree.size x.1 + n) 0

theorem plantWaiting_map (parent : Nat) : ∀ (ps : List (Parse Rule)) (a : Arena) (w : List (Parse Rule × Nat)),
    plantWaiting a (ps.map (·, parent) ++ w) = plantWaiting (a.plantAll parent ps) w
  | [], _, _ => rfl
  | p :: ps, a, w => by
    rw [plantAll, ← plantWaiting_map parent ps (a.plant parent p) w]
    rfl

theorem waitingSize_map (parent : Nat) : ∀ (ps : List (Parse Rule)) (w : List (Parse Rule × Nat)),
    waitingSize (ps.map (·, parent) ++ w) = ParseTree.sizes ps + waitingSize w
  | [], w => by simp [ParseTree.sizes]
  | p :: ps, w => by
    have ih := waitingSize_map parent ps w
    simp only [waitingSize, List.map_cons, List.cons_append, List.foldr_cons, ParseTree.sizes] at ih ⊢
    omega

/-- **Working off the stack of waiting parses is adding them by recursion.** -/
theorem addWaiting_eq : ∀ (steps : Nat) (a : Arena) (w : List (Parse Rule × Nat)), waitingSize w ≤ steps →
    addWaiting steps a w = plantWaiting a w
  | 0, _, [], _ => rfl
  | _ + 1, _, [], _ => rfl
  | 0, a, (.node r start stop inner, parent) :: w, h => by
    simp [waitingSize, ParseTree.size] at h
  | steps + 1, a, (.node r start stop inner, parent) :: w, h => by
    have hw : ParseTree.sizes inner + waitingSize w ≤ steps := by
      simp only [waitingSize, List.foldr_cons, ParseTree.size] at h ⊢
      omega
    have hstep : plantWaiting a ((.node r start stop inner, parent) :: w) =
        plantWaiting (a.plant parent (.node r start stop inner)) w := rfl
    rw [addWaiting, hstep, plant]
    cases Kind.ofRule? r with
    | none => exact addWaiting_eq steps a w (by omega)
    | some k =>
      simp only
      split
      · exact addWaiting_eq steps _ w (by omega)
      · rw [addWaiting_eq steps _ _ (by rw [waitingSize_map]; exact hw), plantWaiting_map]

mutual

/-- A parse added below a node: the node has its trees as further children, and their row stands at the end. -/
theorem plant_row : ∀ (p : Parse Rule) (l : List Node) (n : Node) (r : List Node),
    (ofRow (l ++ n :: r)).plant l.length p =
      ofRow (l ++ adopt n (numbers (l ++ n :: r).length (Tree.named p)) ::
        (r ++ rows (l ++ n :: r).length (Tree.named p)))
  | .node rule start stop inner, l, n, r => by
    rw [plant, Tree.named]
    cases Kind.ofRule? rule with
    | none => simp [numbers, rows, adopt]
    | some k =>
      simp only
      split
      · rw [push_middle]
        simp [numbers, rows, row]
      · rw [push_middle]
        have h := plantAll_row inner (l ++ adopt n [(l ++ n :: r).length] :: r) ⟨k, ⟨start, stop⟩, []⟩ []
        simp only [List.append_assoc, List.cons_append, List.length_append, List.length_cons, List.length_nil,
          size_ofRow] at h ⊢
        rw [h]
        simp [numbers, rows, row, adopt, Nat.add_assoc]

theorem plantAll_row : ∀ (ps : List (Parse Rule)) (l : List Node) (n : Node) (r : List Node),
    (ofRow (l ++ n :: r)).plantAll l.length ps =
      ofRow (l ++ adopt n (numbers (l ++ n :: r).length (Tree.namedAll ps)) ::
        (r ++ rows (l ++ n :: r).length (Tree.namedAll ps)))
  | [], l, n, r => by simp [plantAll, Tree.namedAll, numbers, rows, adopt]
  | p :: ps, l, n, r => by
    rw [plantAll, plant_row p l n r, plantAll_row ps, Tree.namedAll, Tree.numbers_append, Tree.rows_append]
    simp [adopt, Tree.length_rows, Nat.add_assoc, Nat.add_left_comm, Nat.add_comm]

end

/-- A document's parse added by recursion below a root. -/
def planted : Parse Rule → Arena
  | .node _ start stop inner => plantAll (push {} .program ⟨start, stop⟩ none) 0 inner

/-- **A document's parse is added as by recursion.** -/
theorem ofParse_eq_planted (p : Parse Rule) : ofParse p = planted p := by
  obtain ⟨r, start, stop, inner⟩ := p
  have hw : waitingSize (inner.map (·, 0)) ≤ ParseTree.sizes inner := by
    have := waitingSize_map 0 inner []
    rw [List.append_nil] at this
    exact Nat.le_of_eq this
  have hp := plantWaiting_map 0 inner (push {} .program ⟨start, stop⟩ none) []
  rw [List.append_nil] at hp
  rw [ofParse, addWaiting_eq _ _ _ hw, hp]
  rfl

/-- **The nodes of a document's parse are the row of its tree.** -/
theorem ofParse_eq_row (p : Parse Rule) : ofParse p = ofRow ((Tree.ofParse p).row 0) := by
  rw [ofParse_eq_planted]
  obtain ⟨r, start, stop, inner⟩ := p
  exact plantAll_row inner [] ⟨.program, ⟨start, stop⟩, []⟩ []

/-! ## Moving ends -/

theorem head_row (base : Nat) (t : Tree) : ∃ ids r, t.row base = ⟨t.kind, t.span, ids⟩ :: r := by
  obtain ⟨k, s, cs⟩ := t
  exact ⟨_, _, rfl⟩

/-- The end of the last child, read off the row of the children. -/
theorem lastChildStop_rows (k : Kind) (s : Span) : ∀ (cs : List Tree) (l r : List Node),
    lastChildStop (ofRow (l ++ (rows l.length cs ++ r))) ⟨k, s, numbers l.length cs⟩ = Tree.lastStop s.start cs
  | [], _, _ => rfl
  | [t], l, r => by
    obtain ⟨ids, r', ht⟩ := head_row l.length t
    simp [lastChildStop, numbers, rows, ht, Tree.lastStop]
  | t :: t' :: ts, l, r => by
    have ih := lastChildStop_rows k s (t' :: ts) (l ++ t.row l.length) r
    rw [List.length_append, Tree.length_row, List.append_assoc] at ih
    have hn : lastChildStop (ofRow (l ++ (rows l.length (t :: t' :: ts) ++ r))) ⟨k, s, numbers l.length (t :: t' :: ts)⟩ =
        lastChildStop (ofRow (l ++ (t.row l.length ++ (rows (l.length + t.count) (t' :: ts) ++ r))))
          ⟨k, s, numbers (l.length + t.count) (t' :: ts)⟩ := by
      rw [rows, List.append_assoc]
      simp only [lastChildStop, numbers, List.getLast?_cons_cons]
    rw [hn, ih]
    simp [Tree.lastStop]

theorem trimAt_middle (source : Text) (k : Kind) (s : Span) (cs : List Tree) (l r : List Node) :
    trimAt source (ofRow (l ++ ⟨k, s, numbers (l.length + 1) cs⟩ :: (rows (l.length + 1) cs ++ r))) l.length =
      ofRow (l ++ ⟨k, Tree.trimSpan source k s cs, numbers (l.length + 1) cs⟩ :: (rows (l.length + 1) cs ++ r)) := by
  have hlast := lastChildStop_rows k s cs (l ++ [⟨k, s, numbers (l.length + 1) cs⟩]) r
  simp only [List.length_append, List.length_cons, List.length_nil, Nat.zero_add, List.append_assoc, List.cons_append,
    List.nil_append] at hlast
  rw [trimAt, get?_middle]
  simp only [Tree.trimSpan]
  cases k.keepsTrailingBlanks with
  | true => rfl
  | false =>
    cases Text.slice? source s.start s.stop with
    | none => rfl
    | some t =>
      simp only [Bool.false_eq_true, if_false, setStop, update_middle]
      rw [hlast]

mutual

theorem numbers_trimmedAll (source : Text) : ∀ (base : Nat) (ts : List Tree),
    numbers base (Tree.trimmedAll source ts) = numbers base ts
  | _, [] => rfl
  | base, t :: ts => by
    rw [Tree.trimmedAll, numbers, numbers, count_trimmed, numbers_trimmedAll]

theorem count_trimmed (source : Text) : ∀ t : Tree, (t.trimmed source).count = t.count
  | .node k s cs => by rw [Tree.trimmed, Tree.count, Tree.count, counts_trimmedAll]

theorem counts_trimmedAll (source : Text) : ∀ ts : List Tree,
    Tree.counts (Tree.trimmedAll source ts) = Tree.counts ts
  | [] => rfl
  | t :: ts => by rw [Tree.trimmedAll, Tree.counts, Tree.counts, count_trimmed, counts_trimmedAll]

end

/-- Moves the ends of the nodes with the `n` numbers from `base` on, the last one first. -/
def trimFrom (source : Text) (a : Arena) (base n : Nat) : Arena :=
  (List.range' base n).reverse.foldl (trimAt source) a

theorem trimFrom_add (source : Text) (a : Arena) (base m n : Nat) :
    a.trimFrom source base (m + n) = (a.trimFrom source (base + m) n).trimFrom source base m := by
  simp [trimFrom, ← List.range'_append_1, List.foldl_append]

mutual

/-- Moving the ends in the row of a tree writes the row of the tree with its ends moved. -/
theorem trimFrom_row (source : Text) : ∀ (t : Tree) (l r : List Node),
    (ofRow (l ++ (t.row l.length ++ r))).trimFrom source l.length t.count =
      ofRow (l ++ ((t.trimmed source).row l.length ++ r))
  | .node k s cs, l, r => by
    have hcs := trimFrom_rows source cs (l ++ [⟨k, s, numbers (l.length + 1) cs⟩]) r
    simp only [List.length_append, List.length_cons, List.length_nil, Nat.zero_add, List.append_assoc,
      List.cons_append, List.nil_append] at hcs
    have hroot := trimAt_middle source k s (Tree.trimmedAll source cs) l r
    rw [numbers_trimmedAll] at hroot
    rw [Tree.count, Nat.add_comm, trimFrom_add, row, List.cons_append, hcs, Tree.trimmed, row, numbers_trimmedAll,
      List.cons_append]
    exact hroot

theorem trimFrom_rows (source : Text) : ∀ (ts : List Tree) (l r : List Node),
    (ofRow (l ++ (rows l.length ts ++ r))).trimFrom source l.length (Tree.counts ts) =
      ofRow (l ++ (rows l.length (Tree.trimmedAll source ts) ++ r))
  | [], _, _ => rfl
  | t :: ts, l, r => by
    have hts := trimFrom_rows source ts (l ++ t.row l.length) r
    rw [List.length_append, Tree.length_row] at hts
    have ht := trimFrom_row source t l (rows (l.length + t.count) (Tree.trimmedAll source ts) ++ r)
    rw [Tree.counts, trimFrom_add, rows, List.append_assoc, ← List.append_assoc l, hts, List.append_assoc, ht,
      Tree.trimmedAll, rows, count_trimmed, List.append_assoc]

end

/-- **Moving the ends of all nodes is moving the ends in the tree.** -/
theorem trim_row (source : Text) (t : Tree) : (ofRow (t.row 0)).trim source = ofRow ((t.trimmed source).row 0) := by
  have h := trimFrom_row source t [] []
  simp only [List.nil_append, List.append_nil, List.length_nil] at h
  rw [← h, trimFrom, ← Tree.length_row 0 t, List.range_eq_range'.symm]
  rfl

end Arena
end InlineMarkup
