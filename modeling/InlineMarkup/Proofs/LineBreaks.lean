import InlineMarkup.Proofs.HostCode
import InlineMarkup.Proofs.Reading
/-!
# Proofs.LineBreaks — where composed code breaks its lines

Line ends separate statements, and the grammar knows three of them: a line feed, a carriage return with a line feed, and
a carriage return alone (`Breaks`).  Where siblings are composed, a line feed between them is kept as one
(`mem_joint_iff`), so a line that ends in one of the first two ends in the output as well (`joint_breaks`).  A carriage
return alone counts for a space (`joint_lone_return`).
-/
namespace InlineMarkup

open Lowering
open Text (bytes isBlank)

namespace Grammar

/-- A line end of the grammar stands in the text. -/
def Breaks (g : Text) : Prop :=
  ∃ u v m, g = u ++ v ∧ Eval document DocExpr.newline .compact .here ⟨bytes u, v⟩ (some m)

theorem breaks_iff {g : Text} : Breaks g ↔ '\n' ∈ g ∨ '\r' ∈ g := by
  constructor
  · rintro ⟨u, v, ⟨c, xs⟩, rfl, h⟩
    have hword : ∀ w : Text, Eval document (.word w) .compact .here ⟨bytes u, v⟩ (some (c, xs)) → v = w ++ c.rest :=
      fun w hw => (Cursor.Past.word hw.word_some).rest
    cases h with
    | altLeft h => exact .inl (by simp [hword _ h])
    | altRight _ h =>
      cases h with
      | altLeft h => exact .inl (by simp [hword _ h])
      | altRight _ h => exact .inr (by simp [hword _ h])
  · rintro (h | h)
    · obtain ⟨u, v, rfl⟩ := List.append_of_mem h
      exact ⟨u, '\n' :: v, _, rfl, .altLeft (.of_word ['\n'] _ _ _ v)⟩
    · obtain ⟨u, v, rfl⟩ := List.append_of_mem h
      have hfeed : Eval document (.word ['\n']) .compact .here ⟨bytes u, '\r' :: v⟩ none :=
        .of_word_none (word?_of_ne (by decide))
      cases hw : (Cursor.mk (bytes u) ('\r' :: v)).word? ['\r', '\n'] with
      | none =>
        refine ⟨u, '\r' :: v, _, rfl, .altRight hfeed (.altRight (.of_word_none hw) (.of_word ['\r'] _ _ _ v))⟩
      | some c =>
        have hboth : Eval document (.word ['\r', '\n']) .compact .here ⟨bytes u, '\r' :: v⟩ (some (c, [])) := by
          have := Eval.word (G := document) (w := ['\r', '\n']) (l := .compact) (k := .here) (c := ⟨bytes u, '\r' :: v⟩)
          rwa [hw] at this
        exact ⟨u, '\r' :: v, _, rfl, .altRight hfeed (.altLeft hboth)⟩

end Grammar

namespace Lowering

variable {source pre g post : Text} {p n : Tree}

/-- Composed siblings are put on two lines. -/
def breaksLine (source g : Text) (p n : Tree) : Bool :=
  p.isToken source ['{'] || p.isToken source [';'] || p.endsWithComment source || n.isToken source ['}'] || g.contains '\n'

theorem joint_eq (hsrc : source = pre ++ (g ++ post)) (hp : p.span.stop = bytes pre)
    (hn : n.span.start = bytes pre + bytes g) :
    joint source p n =
      if breaksLine source g p n then lineBreak source g ++ lineIndent source n.span.start
      else if g.isEmpty then [] else [' '] := by
  unfold joint
  have hgap : Text.slice? source p.span.stop n.span.start = some g := by
    rw [hp, hn, hsrc, Text.slice?_append]
  simp only [hgap, Option.getD_some]
  rfl

theorem mem_lineBreak (source g : Text) : '\n' ∈ lineBreak source g := by
  rcases lineBreak_cases source g with h | h <;> rw [h] <;> simp

/-- **Where a line is broken.** -/
theorem mem_joint_iff (hsrc : source = pre ++ (g ++ post)) (hp : p.span.stop = bytes pre)
    (hn : n.span.start = bytes pre + bytes g) : '\n' ∈ joint source p n ↔ breaksLine source g p n = true := by
  rw [joint_eq hsrc hp hn]
  split
  · next h => simp [h, mem_lineBreak]
  · next h =>
    split <;> simp [h]

/-- Two composed siblings stand in the composed text with their joint between them. -/
theorem weaveAfter_split (source : Text) (p n : Tree) (w v : Text) (ys : List (Tree × Text)) :
    ∀ (xs : List (Tree × Text)) (t : Tree), ∃ a b,
      weaveAfter source t (xs ++ (p, w) :: (n, v) :: ys) = a ++ (w ++ (joint source p n ++ (v ++ b)))
  | [], t => ⟨joint source t p, weaveAfter source n ys, by simp [weaveAfter]⟩
  | (t', w') :: xs, t => by
    obtain ⟨a, b, h⟩ := weaveAfter_split source p n w v ys xs t'
    exact ⟨joint source t t' ++ w' ++ a, b, by simp [weaveAfter, h]⟩

theorem weave_split (source : Text) (p n : Tree) (w v : Text) (xs ys : List (Tree × Text)) : ∃ a b,
    weave source (xs ++ (p, w) :: (n, v) :: ys) = a ++ (w ++ (joint source p n ++ (v ++ b))) := by
  cases xs with
  | nil => exact ⟨[], weaveAfter source n ys, by simp [weave, weaveAfter]⟩
  | cons x xs =>
    obtain ⟨a, b, h⟩ := weaveAfter_split source p n w v ys xs x.1
    exact ⟨x.2 ++ a, b, by simp [weave, h]⟩

theorem forall₂_split {α β : Type} {R : α → β → Prop} {a b : α} {as : List α} : ∀ {bs : List α} {ys : List β},
    List.Forall₂ R (bs ++ a :: b :: as) ys →
    ∃ ys₁ x y ys₂, ys = ys₁ ++ x :: y :: ys₂ ∧ bs.length = ys₁.length ∧ R a x ∧ R b y
  | [], _, .cons hx (.cons hy _) => ⟨[], _, _, _, rfl, rfl, hx, hy⟩
  | _ :: bs, _, .cons _ h => by
    obtain ⟨ys₁, x, y, ys₂, rfl, hlen, hx, hy⟩ := forall₂_split h
    exact ⟨_ :: ys₁, x, y, ys₂, rfl, congrArg (· + 1) hlen, hx, hy⟩

/-- **Composing a node** puts its children one after the other. -/
theorem compose_split {i : Input} {room : Nat} {t : Tree} {before after : List Tree} {w : Text}
    (hcs : t.children = before ++ p :: n :: after) (hm : t.hasMarkup = true) (hk : t.kind ≠ .element)
    (h : (i.compose (room + 1) t).result = .ok w) :
    ∃ a b wp wn, w = a ++ (wp ++ (joint i.source p n ++ (wn ++ b))) ∧
      (i.compose room p).result = .ok wp ∧ (i.compose room n).result = .ok wn := by
  rw [Input.result_compose, if_neg (by simp [hm]), if_neg hk] at h
  obtain ⟨ws, hws, h⟩ := Logged.bind_eq_ok h
  cases h
  rw [Logged.result_each_eq_ok, hcs] at hws
  obtain ⟨ws₁, wp, wn, ws₂, rfl, hlen, hp, hn⟩ := forall₂_split hws
  rw [hcs, List.zip_append hlen, List.zip_cons_cons, List.zip_cons_cons]
  obtain ⟨a, b, h⟩ := weave_split i.source p n wp wn (before.zip ws₁) (after.zip ws₂)
  exact ⟨a, b, wp, wn, h, hp, hn⟩

end Lowering

/-! ## Neighbours -/

namespace Tree

theorem SpreadAll.neighbours {G : Gaps} {p n : Tree} {after : List Tree} : ∀ {before : List Tree} {off : Nat} {u : Text},
    SpreadAll G off u (before ++ p :: n :: after) →
    ∃ a g b, u = a ++ (g ++ b) ∧ (∀ c ∈ g, G.char c) ∧ p.span.stop = off + bytes a ∧ n.span.start = off + bytes a + bytes g
  | [], off, _, h => by
    rw [List.nil_append, SpreadAll] at h
    obtain ⟨g, v, w, rfl, -, hp, h⟩ := h
    rw [SpreadAll] at h
    obtain ⟨g', v', w', rfl, hg', hn, -⟩ := h
    refine ⟨g ++ v, g', v' ++ w', by simp, hg', ?_, ?_⟩
    · rw [hp.span]
      simp [Nat.add_assoc]
    · rw [hn.span]
      simp [Nat.add_assoc]
  | t :: before, off, _, h => by
    rw [List.cons_append, SpreadAll] at h
    obtain ⟨g, v, w, rfl, -, -, h⟩ := h
    obtain ⟨a, g', b, rfl, hg', hp, hn⟩ := h.neighbours
    refine ⟨g ++ v ++ a, g', b, by simp, hg', ?_, ?_⟩
    · rw [hp]
      simp [Nat.add_assoc]
    · rw [hn]
      simp [Nat.add_assoc]

end Tree

/-- Between two neighbours in a document stands layout. -/
theorem exists_layout_of_parse {doc : Document} {c : Cst} (h : doc.parse = .ok c) {t p n : Tree} {before after : List Tree}
    (ht : t ∈ c.tree.nodes) (hcs : t.children = before ++ p :: n :: after) :
    ∃ a g b, doc.text = a ++ (g ++ b) ∧ (∀ x ∈ g, Text.isLayout x = true) ∧ p.span.stop = bytes a ∧
      n.span.start = bytes a + bytes g := by
  obtain ⟨pre, u, post, hsrc, -, ⟨-, hnil⟩ | ⟨-, hall⟩⟩ := parse_gaps h ht
  · rw [hcs] at hnil
    simp at hnil
  · rw [hcs] at hall
    obtain ⟨a, g, b, rfl, hg, hp, hn⟩ := hall.neighbours
    refine ⟨pre ++ a, g, b ++ post, by simp [hsrc], hg, ?_, ?_⟩
    · rw [hp]
      simp
    · rw [hn]
      simp

theorem exists_gap_of_parse {doc : Document} {c : Cst} (h : doc.parse = .ok c) {t p n : Tree} {before after : List Tree}
    (ht : t ∈ c.tree.nodes) (hcs : t.children = before ++ p :: n :: after) :
    ∃ a g b, doc.text = a ++ (g ++ b) ∧ (∀ x ∈ g, isBlank x = true) ∧ p.span.stop = bytes a ∧
      n.span.start = bytes a + bytes g := by
  obtain ⟨a, g, b, hsrc, hg, hp, hn⟩ := exists_layout_of_parse h ht hcs
  exact ⟨a, g, b, hsrc, fun x hx => Tree.isBlank_of_isLayout (hg x hx), hp, hn⟩

/-- **Lines stay apart.**  Between two neighbours in a document, the text that composing puts there breaks the line
exactly after an opening brace, a semicolon or a comment, before a closing brace, and where a line feed stands between
them; so it does for every line end of the grammar but a carriage return alone. -/
theorem joint_breaks {doc : Document} {c : Cst} (h : doc.parse = .ok c) {t p n : Tree} {before after : List Tree}
    (ht : t ∈ c.tree.nodes) (hcs : t.children = before ++ p :: n :: after) :
    ∃ a g b, doc.text = a ++ (g ++ b) ∧ p.span.stop = bytes a ∧ n.span.start = bytes a + bytes g ∧
      (Grammar.Breaks g → (∀ u v, g = u ++ '\r' :: v → v.head? = some '\n') → '\n' ∈ joint doc.text p n) ∧
      ('\n' ∈ joint doc.text p n ↔ p.isToken doc.text ['{'] = true ∨ p.isToken doc.text [';'] = true ∨
        p.endsWithComment doc.text = true ∨ n.isToken doc.text ['}'] = true ∨ '\n' ∈ g) ∧
      ('\n' ∉ joint doc.text p n → joint doc.text p n = if g = [] then [] else [' ']) ∧
      ∀ settings room w, t.hasMarkup = true → t.kind ≠ .element →
        (Input.compose ⟨doc.text, settings⟩ (room + 1) t).result = .ok w →
        ∃ x y wp wn, w = x ++ (wp ++ (joint doc.text p n ++ (wn ++ y))) ∧
          (Input.compose ⟨doc.text, settings⟩ room p).result = .ok wp ∧
          (Input.compose ⟨doc.text, settings⟩ room n).result = .ok wn := by
  obtain ⟨a, g, b, hsrc, -, hp, hn⟩ := exists_gap_of_parse h ht hcs
  have hiff := mem_joint_iff hsrc hp hn
  refine ⟨a, g, b, hsrc, hp, hn, fun hbreaks hreturn => ?_, ?_, fun hnot => ?_, fun settings room w hm hk hw => ?_⟩
  · have hfeed : '\n' ∈ g := by
      refine (Grammar.breaks_iff.1 hbreaks).elim id fun hr => ?_
      obtain ⟨u, v, rfl⟩ := List.append_of_mem hr
      exact List.mem_append_right _ (List.mem_cons_of_mem _ (List.mem_of_head? (hreturn u v rfl)))
    rw [hiff]
    simp [breaksLine, hfeed]
  · rw [hiff, breaksLine]
    simp only [Bool.or_eq_true, List.contains_iff_mem, or_assoc]
  · rw [joint_eq hsrc hp hn, if_neg fun hyes => hnot (hiff.2 hyes)]
    cases g <;> rfl
  · exact compose_split (i := ⟨doc.text, settings⟩) hcs hm hk hw

/-- Two statements between braces, found by what holds of them. -/
theorem exists_statements (doc : Document) (q : Tree → Tree → Bool)
    (h : (doc.parse.toOption.any fun c => c.tree.nodes.any fun t =>
      match t.children with
      | [_, p, n, _] => q p n
      | _ => false) = true) :
    ∃ c t x p n y, doc.parse = .ok c ∧ t ∈ c.tree.nodes ∧ t.children = [x] ++ p :: n :: [y] ∧ q p n = true := by
  cases hp : doc.parse with
  | error d => rw [hp] at h; cases h
  | ok c =>
    rw [hp] at h
    obtain ⟨t, ht, hq⟩ := List.any_eq_true.1 (show (c.tree.nodes.any _) = true from h)
    split at hq
    · next x p n y hcs => exact ⟨c, t, x, p, n, y, rfl, ht, hcs, hq⟩
    · cases hq

/-- Two statements on lines of their own. -/
def twoStatements : Document := ⟨"a.mbx", "fn f \x7b\n  let a = <br/>\r\n  g(a)\n\x7d".toList⟩

theorem joint_breaks_statements : ∃ c t x p n y, twoStatements.parse = .ok c ∧ t ∈ c.tree.nodes ∧
    t.children = [x] ++ p :: n :: [y] ∧ p.kind = .letStatement ∧ n.kind = .exprStatement ∧
    ∃ a g b, twoStatements.text = a ++ (g ++ b) ∧ p.span.stop = bytes a ∧ n.span.start = bytes a + bytes g ∧
      ('\n' ∈ joint twoStatements.text p n ↔ p.isToken twoStatements.text ['{'] = true ∨
        p.isToken twoStatements.text [';'] = true ∨ p.endsWithComment twoStatements.text = true ∨
        n.isToken twoStatements.text ['}'] = true ∨ '\n' ∈ g) ∧ '\n' ∈ joint twoStatements.text p n := by
  obtain ⟨c, t, x, p, n, y, hparse, ht, hcs, hq⟩ := exists_statements twoStatements
    (fun p n => p.kind == .letStatement && n.kind == .exprStatement && (joint twoStatements.text p n).contains '\n')
    (by decide +kernel)
  simp only [Bool.and_eq_true, beq_iff_eq, List.contains_iff_mem] at hq
  obtain ⟨a, g, b, hsrc, hp, hn, -, hiff, -⟩ := joint_breaks hparse ht hcs
  exact ⟨c, t, x, p, n, y, hparse, ht, hcs, hq.1.1, hq.1.2, a, g, b, hsrc, hp, hn, hiff, hq.2⟩

/-- The same with a carriage return alone at the end of each line. -/
def returnsOnly : Document := ⟨"a.mbx", "fn f \x7b\r  let a = <br/>\r  g(a)\r\x7d".toList⟩

/-- **A carriage return alone** ends a statement, but it counts for a space where the statements are composed: they come to
stand on one line. -/
theorem joint_lone_return : ∃ c t x p n y, returnsOnly.parse = .ok c ∧ t ∈ c.tree.nodes ∧
    t.children = [x] ++ p :: n :: [y] ∧ p.kind = .letStatement ∧ n.kind = .exprStatement ∧
    (∃ g, Text.slice? returnsOnly.text p.span.stop n.span.start = some g ∧ Grammar.Breaks g) ∧
    joint returnsOnly.text p n = [' '] ∧
    (returnsOnly.translate {}).result.toOption = some "fn f \x7b\nlet a = h(\"br\", [], []) g(a)\n\x7d\n".toList := by
  obtain ⟨c, t, x, p, n, y, hparse, ht, hcs, hq⟩ := exists_statements returnsOnly
    (fun p n => p.kind == .letStatement && n.kind == .exprStatement && joint returnsOnly.text p n == [' '] &&
      Text.slice? returnsOnly.text p.span.stop n.span.start == some ['\r', ' ', ' '])
    (by decide +kernel)
  simp only [Bool.and_eq_true, beq_iff_eq] at hq
  refine ⟨c, t, x, p, n, y, hparse, ht, hcs, hq.1.1.1, hq.1.1.2, ⟨_, hq.2, ?_⟩, hq.1.2, by decide +kernel⟩
  exact Grammar.breaks_iff.2 (.inr (by simp))

end InlineMarkup
