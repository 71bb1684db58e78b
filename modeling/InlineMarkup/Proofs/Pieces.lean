import InlineMarkup.Proofs.Evaluation
/-!
# Proofs.Pieces — what a match consists of

The text of a match is a row of pieces: characters, and the texts of the nodes below.  Written as letters, a character
each or a rule each, the row is a word of the language of the expression that matched (`Yields`).  A node that was
matched lies at its place in this way, and so does every node below it (`Laid`, `Eval.pieces`).
-/
namespace InlineMarkup.Grammar

variable {R : Type}

/-- The rows of characters and nodes that an expression can match, leaving aside what it looks ahead to and in which order
it tries.  A rule that leaves a node is one letter. -/
inductive Yields (G : Grammar R) : Expr R → Layout → List (Char ⊕ R) → Prop where
  | word {w l} : Yields G (.word w) l (w.map .inl)
  | one {s x l} : s.holds x = true → Yields G (.one s) l [.inl x]
  | first {l} : Yields G .first l []
  | last {l} : Yields G .last l []
  | seq {p q l a b d} : Yields G p l a → Yields G (G.skip l) .compact b → Yields G q l d →
      Yields G (.seq p q) l (a ++ (b ++ d))
  | altLeft {p q l a} : Yields G p l a → Yields G (.alt p q) l a
  | altRight {p q l a} : Yields G q l a → Yields G (.alt p q) l a
  | optNone {p l} : Yields G (.opt p) l []
  | optSome {p l a} : Yields G p l a → Yields G (.opt p) l a
  | manyNone {p l} : Yields G (.many p) l []
  | manySome {p l a b} : Yields G p l a → Yields G (.more p) l b → Yields G (.many p) l (a ++ b)
  | moreNone {p l} : Yields G (.more p) l []
  | moreSome {p l a b d} : Yields G (G.skip l) .compact a → Yields G p l b → Yields G (.more p) l d →
      Yields G (.more p) l (a ++ (b ++ d))
  | ahead {p l} : Yields G (.ahead p) l []
  | never {p l} : Yields G (.never p) l []
  | silent {r l a} : G.style r = .silent → Yields G (G.body r) l a → Yields G (.rule r) l a
  | node {r l} : G.style r ≠ .silent → (G.style r).around l ≠ .token → Yields G (.rule r) l [.inr r]
  | flat {r l a} : G.style r ≠ .silent → (G.style r).around l = .token →
      Yields G (G.body r) ((G.style r).inside l) a → Yields G (.rule r) l a

/-! ## Rows of pieces -/

def Parse.rule : Parse R → R
  | .node r _ _ _ => r

/-- A piece of a text: a character, or the text of a node. -/
inductive Piece (R : Type) where
  | char (x : Char)
  | tree (p : Parse R) (u : Text)

namespace Piece

def text : Piece R → Text
  | .char x => [x]
  | .tree _ u => u

def letter : Piece R → Char ⊕ R
  | .char x => .inl x
  | .tree p _ => .inr p.rule

def tree? : Piece R → Option (Parse R)
  | .char _ => none
  | .tree p _ => some p

theorem eq_char {q : Piece R} {x : Char} (h : q.letter = .inl x) : q = .char x := by
  cases q with
  | char y => exact congrArg Piece.char (Sum.inl.inj h)
  | tree p u => cases h

end Piece

/-- The text of a row. -/
def textOf (ps : List (Piece R)) : Text := ps.flatMap Piece.text

/-- The nodes of a row. -/
def treesIn (ps : List (Piece R)) : List (Parse R) := ps.filterMap Piece.tree?

@[simp] theorem textOf_nil : textOf ([] : List (Piece R)) = [] := rfl

@[simp] theorem textOf_cons (p : Piece R) (ps : List (Piece R)) : textOf (p :: ps) = p.text ++ textOf ps := rfl

@[simp] theorem textOf_append (ps qs : List (Piece R)) : textOf (ps ++ qs) = textOf ps ++ textOf qs :=
  List.flatMap_append

@[simp] theorem treesIn_nil : treesIn ([] : List (Piece R)) = [] := rfl

@[simp] theorem treesIn_char (x : Char) (ps : List (Piece R)) : treesIn (.char x :: ps) = treesIn ps := rfl

@[simp] theorem treesIn_tree (p : Parse R) (u : Text) (ps : List (Piece R)) :
    treesIn (.tree p u :: ps) = p :: treesIn ps := rfl

@[simp] theorem treesIn_append (ps qs : List (Piece R)) : treesIn (ps ++ qs) = treesIn ps ++ treesIn qs :=
  List.filterMap_append

/-- Every node of the row, with its text and the offset where it starts, satisfies `P`. -/
def Placed (P : Nat → Text → Parse R → Prop) : Nat → List (Piece R) → Prop
  | _, [] => True
  | off, .char x :: ps => Placed P (off + x.utf8Size) ps
  | off, .tree p u :: ps => P off u p ∧ Placed P (off + Text.bytes u) ps

theorem placed_append (P : Nat → Text → Parse R → Prop) : ∀ (ps qs : List (Piece R)) (off : Nat),
    Placed P off (ps ++ qs) ↔ Placed P off ps ∧ Placed P (off + Text.bytes (textOf ps)) qs
  | [], qs, off => by simp [Placed]
  | .char x :: ps, qs, off => by
    rw [List.cons_append, Placed, Placed, placed_append P ps qs]
    simp [Piece.text, Nat.add_assoc]
  | .tree p u :: ps, qs, off => by
    rw [List.cons_append, Placed, Placed, placed_append P ps qs]
    simp [Piece.text, Nat.add_assoc, and_assoc]

theorem placed_iff (P : Nat → Text → Parse R → Prop) : ∀ (ps : List (Piece R)) (off : Nat),
    Placed P off ps ↔ ∀ pre p u post, ps = pre ++ .tree p u :: post → P (off + Text.bytes (textOf pre)) u p := by
  intro ps off
  constructor
  · rintro h pre p u post rfl
    exact ((placed_append P _ _ _).1 h).2.1
  · intro h
    induction ps generalizing off with
    | nil => trivial
    | cons q ps ih =>
      have hps : Placed P (off + Text.bytes q.text) ps := ih _ fun pre p u post hs => by
        have := h (q :: pre) p u post (by rw [hs]; rfl)
        rwa [textOf_cons, Text.bytes_append, ← Nat.add_assoc] at this
      cases q with
      | char x => exact hps
      | tree p u => exact ⟨h [] p u ps rfl, hps⟩

theorem Placed.mono {P Q : Nat → Text → Parse R → Prop} (hPQ : ∀ off u p, P off u p → Q off u p) {off : Nat}
    {ps : List (Piece R)} (h : Placed P off ps) : Placed Q off ps :=
  (placed_iff Q ps off).2 fun pre p u post hs => hPQ _ _ _ ((placed_iff P ps off).1 h pre p u post hs)

theorem textOf_map_char (w : Text) : textOf (w.map (Piece.char (R := R))) = w := by
  simp [textOf, List.flatMap_map, Piece.text]

theorem treesIn_map_char (w : Text) : treesIn (w.map (Piece.char (R := R))) = [] := by
  simp [treesIn, List.filterMap_map, Piece.tree?]

theorem placed_map_char {P : Nat → Text → Parse R → Prop} : ∀ (w : Text) (off : Nat), Placed P off (w.map Piece.char)
  | [], _ => trivial
  | _ :: w, _ => placed_map_char w _

/-- A node that lies at an offset with a text: the text is a row of pieces in the language of the rule, and the nodes of
the row lie where they are. -/
inductive Laid (G : Grammar R) : Nat → Text → Parse R → Prop where
  | node {r : R} {l : Layout} {off : Nat} {ps : List (Piece R)} (left : (G.style r).around l ≠ .token)
      (yields : Yields G (G.body r) ((G.style r).inside l) (ps.map Piece.letter))
      (below : ∀ pre p u post, ps = pre ++ .tree p u :: post → Laid G (off + Text.bytes (textOf pre)) u p) :
      Laid G off (textOf ps) (.node r off (off + Text.bytes (textOf ps)) (treesIn ps))

/-- What a match in the open, from `c` up to the place and the trees of `m`, consists of. -/
def Consists (G : Grammar R) (e : Expr R) (l : Layout) (c : Cursor) (m : Cursor × List (Parse R)) : Prop :=
  ∃ ps, c.Past (textOf ps) m.1 ∧ treesIn ps = m.2 ∧ Placed (Laid G) c.offset ps ∧
    Yields G e l (ps.map Piece.letter)

section Consists

variable {G : Grammar R} {l : Layout} {c : Cursor}

theorem Consists.nil {e : Expr R} (h : Yields G e l []) : Consists G e l c (c, []) :=
  ⟨[], .refl c, rfl, trivial, h⟩

theorem Placed.join {c c₁ c₂ : Cursor} {ps qs : List (Piece R)} (hp : c.Past (textOf ps) c₁)
    (hps : Placed (Laid G) c.offset ps) (hq : c₁.Past (textOf qs) c₂) (hqs : Placed (Laid G) c₁.offset qs) :
    c.Past (textOf (ps ++ qs)) c₂ ∧ Placed (Laid G) c.offset (ps ++ qs) := by
  refine ⟨by rw [textOf_append]; exact hp.trans hq, (placed_append _ _ _ _).2 ⟨hps, ?_⟩⟩
  rw [← hp.offset]
  exact hqs

end Consists

/-- **A match in the open is a row of pieces in the language of the expression.** -/
theorem Eval.consists {G : Grammar R} {e : Expr R} {l : Layout} {k : Look} {c : Cursor} {o : Result R}
    (h : Eval G e l k c o) : k = .here → ∀ m, o = some m → Consists G e l c m := by
  rintro hk ⟨c', xs⟩ rfl
  induction h using Eval.match_induction with
  | @word w _ _ _ _ _ hw =>
    refine ⟨w.map .char, by rw [textOf_map_char]; exact .word hw, treesIn_map_char w, placed_map_char w _, ?_⟩
    rw [List.map_map]
    exact .word
  | one hs =>
    obtain ⟨x, hx, hpast⟩ := Cursor.Past.one hs
    exact ⟨[.char x], hpast, rfl, trivial, .one hx⟩
  | first => exact .nil .first
  | last => exact .nil .last
  | seq _ _ _ ihp ihs ihq =>
    obtain ⟨ps, hp, rfl, hpl, hpy⟩ := ihp hk
    obtain ⟨ss, hs, rfl, hsl, hsy⟩ := ihs hk
    obtain ⟨qs, hq, rfl, hql, hqy⟩ := ihq hk
    obtain ⟨h₁, h₁'⟩ := Placed.join hs hsl hq hql
    obtain ⟨h₂, h₂'⟩ := Placed.join hp hpl h₁ h₁'
    exact ⟨_, h₂, by simp, h₂', by simpa using Yields.seq hpy hsy hqy⟩
  | altLeft _ ihp =>
    obtain ⟨ps, hp, ht, hl, hy⟩ := ihp hk
    exact ⟨ps, hp, ht, hl, .altLeft hy⟩
  | altRight _ ihq =>
    obtain ⟨ps, hp, ht, hl, hy⟩ := ihq hk
    exact ⟨ps, hp, ht, hl, .altRight hy⟩
  | optNone => exact .nil .optNone
  | optSome _ ihp =>
    obtain ⟨ps, hp, ht, hl, hy⟩ := ihp hk
    exact ⟨ps, hp, ht, hl, .optSome hy⟩
  | manyNone => exact .nil .manyNone
  | manySome _ _ ihp ihm =>
    obtain ⟨ps, hp, rfl, hpl, hpy⟩ := ihp hk
    obtain ⟨qs, hq, rfl, hql, hqy⟩ := ihm hk
    obtain ⟨h, h'⟩ := Placed.join hp hpl hq hql
    exact ⟨_, h, by simp, h', by simpa using Yields.manySome hpy hqy⟩
  | moreNone => exact .nil .moreNone
  | moreSome _ _ _ ihs ihp ihm =>
    obtain ⟨ss, hs, rfl, hsl, hsy⟩ := ihs hk
    obtain ⟨ps, hp, rfl, hpl, hpy⟩ := ihp hk
    obtain ⟨qs, hq, rfl, hql, hqy⟩ := ihm hk
    obtain ⟨h₁, h₁'⟩ := Placed.join hp hpl hq hql
    obtain ⟨h₂, h₂'⟩ := Placed.join hs hsl h₁ h₁'
    exact ⟨_, h₂, by simp, h₂', by simpa using Yields.moreSome hsy hpy hqy⟩
  | ahead => exact .nil .ahead
  | never => exact .nil .never
  | silent hs _ ih =>
    obtain ⟨ps, hp, ht, hl, hy⟩ := ih hk
    exact ⟨ps, hp, ht, hl, .silent hs hy⟩
  | @node r l k c c' _ _ hn _ ih =>
    subst hk
    obtain ⟨ps, hp, rfl, hl, hy⟩ := ih rfl
    by_cases ha : (G.style r).around l = .token
    · refine ⟨ps, hp, ?_, hl, .flat hn ha hy⟩
      simp [treesOf, Style.leaves, ha]
    · refine ⟨[.tree (.node r c.offset c'.offset (treesIn ps)) (textOf ps)], by simpa [Piece.text] using hp, ?_,
        ⟨?_, trivial⟩, .node hn ha⟩
      · simp [treesOf, Style.leaves, ha]
      · rw [hp.offset]
        exact .node ha hy ((placed_iff _ _ _).1 hl)

end InlineMarkup.Grammar
