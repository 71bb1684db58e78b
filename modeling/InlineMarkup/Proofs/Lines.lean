import InlineMarkup.Text.Basic
/-!
# Proofs.Lines — a text and its pieces

Cutting a text at a character and putting the pieces together again are inverse to each other (`join_pieces`,
`pieces_join`).  A text written line by line has these lines, and nothing behind the last line end (`lines_flatMap`).
-/
namespace InlineMarkup.Text

variable {c : Char}

theorem pieces_ne_nil (c : Char) (t : Text) : pieces c t ≠ [] := by
  cases t with
  | nil => simp [pieces]
  | cons x t =>
    unfold pieces
    split
    · simp
    · split <;> simp

theorem pieces_append (u v : Text) : pieces c (u ++ c :: v) = pieces c u ++ pieces c v := by
  induction u with
  | nil => simp [pieces]
  | cons x u ih =>
    rw [List.cons_append, pieces, pieces, ih]
    by_cases hx : x = c
    · rw [if_pos hx, if_pos hx, List.cons_append]
    · rw [if_neg hx, if_neg hx]
      cases hu : pieces c u with
      | nil => exact absurd hu (pieces_ne_nil c u)
      | cons p ps => rfl

theorem pieces_of_notMem {t : Text} (h : c ∉ t) : pieces c t = [t] := by
  induction t with
  | nil => rfl
  | cons x t ih =>
    have hx : x ≠ c := fun hx => h (hx ▸ List.mem_cons_self)
    rw [pieces, if_neg hx, ih fun ht => h (List.mem_cons_of_mem _ ht)]

/-- Piece by piece: a text without the character, or a piece that ends at the character before a further text. -/
theorem pieces_induction {P : Text → Prop} (last : ∀ t, c ∉ t → P t) (cut : ∀ u v, c ∉ u → P v → P (u ++ c :: v))
    (t : Text) : P t := by
  induction hn : t.length using Nat.strongRecOn generalizing t with
  | ind n ih =>
    by_cases h : c ∈ t
    · obtain ⟨u, v, rfl, hu⟩ := List.eq_append_cons_of_mem h
      exact cut u v hu (ih v.length (by simp at hn; omega) v rfl)
    · exact last t h

theorem notMem_of_mem_pieces {t p : Text} : p ∈ pieces c t → c ∉ p := by
  induction t using pieces_induction (c := c) with
  | last t ht =>
    rw [pieces_of_notMem ht, List.mem_singleton]
    rintro rfl
    exact ht
  | cut u v hu ih =>
    rw [pieces_append, pieces_of_notMem hu, List.singleton_append, List.mem_cons]
    rintro (rfl | hp)
    · exact hu
    · exact ih hp

theorem join_cons (sep t : Text) {ts : List Text} (h : ts ≠ []) : join sep (t :: ts) = t ++ sep ++ join sep ts := by
  cases ts with
  | nil => exact absurd rfl h
  | cons u us => rfl

/-- **The pieces of a text make it up again.** -/
theorem join_pieces (c : Char) (t : Text) : join [c] (pieces c t) = t := by
  induction t using pieces_induction (c := c) with
  | last t ht => rw [pieces_of_notMem ht, join]
  | cut u v hu ih =>
    rw [pieces_append, pieces_of_notMem hu, List.singleton_append, join_cons _ _ (pieces_ne_nil c v), ih,
      List.append_assoc, List.singleton_append]

/-- **Pieces are found again** in what they make up. -/
theorem pieces_join {ls : List Text} (hne : ls ≠ []) (h : ∀ l ∈ ls, c ∉ l) : pieces c (join [c] ls) = ls := by
  induction ls with
  | nil => exact absurd rfl hne
  | cons l ls ih =>
    have hl := pieces_of_notMem (h l List.mem_cons_self)
    cases ls with
    | nil => exact hl
    | cons l' ls =>
      rw [join_cons _ _ (List.cons_ne_nil l' ls), List.append_assoc, List.singleton_append, pieces_append, hl,
        ih (List.cons_ne_nil l' ls) fun k hk => h k (List.mem_cons_of_mem _ hk), List.singleton_append]

/-- **A text written line by line has these lines.** -/
theorem lines_flatMap {ls : List Text} (h : ∀ l ∈ ls, '\n' ∉ l) : lines (ls.flatMap (· ++ ['\n'])) = ls ++ [[]] := by
  induction ls with
  | nil => rfl
  | cons l ls ih =>
    have hl := pieces_of_notMem (h l List.mem_cons_self)
    have hls := ih fun k hk => h k (List.mem_cons_of_mem _ hk)
    rw [lines] at hls ⊢
    rw [List.flatMap_cons, List.append_assoc, List.singleton_append, pieces_append, hl, hls, List.singleton_append,
      List.cons_append]

end InlineMarkup.Text
