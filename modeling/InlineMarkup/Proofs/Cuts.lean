import InlineMarkup.Text.Position
/-!
# Proofs.Cuts — cutting a text at byte offsets

A text `u ++ v` is cut at the offset `bytes u` into `u` and `v`, and every offset at which it can be cut is of this form
(`IsPlace`).  A cut determines the two parts (`append_inj_bytes`), so what is said of parts of a text can be said of
offsets and the other way round.
-/
namespace InlineMarkup.Text

/-- What is decided of the characters of a text is decided one by one, not for all characters there are. -/
instance decidableForallMem {p : Char → Prop} [DecidablePred p] (t : Text) : Decidable (∀ c ∈ t, p c) :=
  List.decidableBAll p t

@[simp] theorem bytes_nil : bytes [] = 0 := rfl

@[simp] theorem bytes_cons (c : Char) (cs : Text) : bytes (c :: cs) = c.utf8Size + bytes cs := rfl

@[simp] theorem bytes_append : ∀ u v : Text, bytes (u ++ v) = bytes u + bytes v
  | [], v => by simp
  | c :: u, v => by
    rw [List.cons_append, bytes_cons, bytes_cons, bytes_append u v, Nat.add_assoc]

@[simp] theorem bytes_eq_zero {u : Text} : bytes u = 0 ↔ u = [] := by
  cases u with
  | nil => simp
  | cons c u => simp [Nat.ne_of_gt (Char.utf8Size_pos c)]

theorem bytes_pos {u : Text} (h : u ≠ []) : 0 < bytes u :=
  Nat.pos_of_ne_zero fun h0 => h (bytes_eq_zero.1 h0)

theorem before?_append : ∀ u v : Text, before? (u ++ v) (bytes u) = some u
  | [], v => by cases v <;> rfl
  | c :: u, v => by
    have hc := Char.utf8Size_pos c
    obtain ⟨n, hn⟩ : ∃ n, c.utf8Size + bytes u = n + 1 := ⟨c.utf8Size + bytes u - 1, by omega⟩
    rw [List.cons_append, bytes_cons, hn, before?, if_pos (by omega), show n + 1 - c.utf8Size = bytes u by omega,
      before?_append u v]
    rfl

theorem after?_append : ∀ u v : Text, after? (u ++ v) (bytes u) = some v
  | [], v => by cases v <;> rfl
  | c :: u, v => by
    have hc := Char.utf8Size_pos c
    obtain ⟨n, hn⟩ : ∃ n, c.utf8Size + bytes u = n + 1 := ⟨c.utf8Size + bytes u - 1, by omega⟩
    rw [List.cons_append, bytes_cons, hn, after?, if_pos (by omega), show n + 1 - c.utf8Size = bytes u by omega,
      after?_append u v]

/-- **The part of a text between two cuts.** -/
theorem slice?_append (p u s : Text) : slice? (p ++ (u ++ s)) (bytes p) (bytes p + bytes u) = some u := by
  rw [slice?, if_pos (Nat.le_add_right _ _), after?_append, Nat.add_sub_cancel_left]
  exact before?_append u s

/-- **A cut determines both parts.** -/
theorem append_inj_bytes {u v u' v' : Text} (h : u ++ v = u' ++ v') (hb : bytes u = bytes u') : u = u' ∧ v = v' := by
  have hu := before?_append u v
  rw [h, hb, before?_append u' v'] at hu
  have hv := after?_append u v
  rw [h, hb, after?_append u' v'] at hv
  exact ⟨(Option.some.inj hu).symm, (Option.some.inj hv).symm⟩

/-- Of two cuts the second stands in the second part of the first. -/
theorem append_eq_of_bytes_le {u v u' v' : Text} (h : u ++ v = u' ++ v') (hb : bytes u ≤ bytes u') :
    ∃ w, u' = u ++ w ∧ v = w ++ v' := by
  rcases List.append_eq_append_iff.1 h with ⟨w, hu, hv⟩ | ⟨w, rfl, rfl⟩
  · exact ⟨w, hu, hv⟩
  · obtain rfl : w = [] := bytes_eq_zero.1 (by rw [bytes_append] at hb; omega)
    exact ⟨[], by simp, by simp⟩

theorem append_cons_cases {a b pre post : Text} {x : Char} (h : a ++ b = pre ++ x :: post) :
    (∃ rest, a = pre ++ x :: rest) ∨ ∃ pre', pre = a ++ pre' ∧ b = pre' ++ x :: post := by
  rcases List.append_eq_append_iff.1 h with ⟨pre', hpre, hb⟩ | ⟨rest, ha, hrest⟩
  · exact .inr ⟨pre', hpre, hb⟩
  · cases rest with
    | nil => exact .inr ⟨[], by simpa using ha.symm, by simpa using hrest.symm⟩
    | cons y ys =>
      obtain ⟨rfl, -⟩ := List.cons.inj hrest
      exact .inl ⟨ys, ha⟩

theorem after?_eq_some : ∀ {t : Text} {n : Nat} {v : Text}, after? t n = some v → ∃ u, t = u ++ v ∧ bytes u = n
  | t, 0, v, h => by
    have hv : t = v := by simpa [after?] using h
    exact ⟨[], hv, rfl⟩
  | [], n + 1, v, h => by cases h
  | c :: cs, n + 1, v, h => by
    rw [after?] at h
    split at h
    · next hc =>
      obtain ⟨u, rfl, hu⟩ := after?_eq_some h
      exact ⟨c :: u, rfl, by rw [bytes_cons, hu]; omega⟩
    · cases h

theorem before?_eq_some : ∀ {t : Text} {n : Nat} {u : Text}, before? t n = some u → (∃ v, t = u ++ v) ∧ bytes u = n
  | t, 0, u, h => by
    have hu : u = [] := by simpa [before?] using h.symm
    exact ⟨⟨t, by simp [hu]⟩, by rw [hu]; rfl⟩
  | [], n + 1, u, h => by cases h
  | c :: cs, n + 1, u, h => by
    rw [before?] at h
    split at h
    · next hc =>
      obtain ⟨w, hw, rfl⟩ := Option.map_eq_some_iff.1 h
      obtain ⟨⟨v, rfl⟩, hb⟩ := before?_eq_some hw
      exact ⟨⟨v, rfl⟩, by rw [bytes_cons, hb]; omega⟩
    · cases h

/-- **A part of a text stands between two cuts.** -/
theorem slice?_eq_some {t u : Text} {start stop : Nat} (h : slice? t start stop = some u) :
    ∃ p s, t = p ++ (u ++ s) ∧ bytes p = start ∧ bytes p + bytes u = stop := by
  rw [slice?] at h
  split at h
  · obtain ⟨v, hv, hu⟩ := Option.bind_eq_some_iff.1 h
    obtain ⟨p, rfl, hp⟩ := after?_eq_some hv
    obtain ⟨⟨s, rfl⟩, hb⟩ := before?_eq_some hu
    exact ⟨p, s, rfl, hp, by omega⟩
  · cases h

theorem strip?_eq_some : ∀ {w t u : Text}, strip? w t = some u → t = w ++ u
  | [], t, u, h => by simpa [strip?] using h
  | _ :: _, [], u, h => by simp [strip?] at h
  | x :: w, y :: t, u, h => by
    rw [strip?] at h
    split at h
    · rename_i hxy
      rw [hxy, strip?_eq_some h]
      rfl
    · cases h

theorem strip?_append : ∀ w u : Text, strip? w (w ++ u) = some u
  | [], _ => rfl
  | x :: w, u => by
    rw [List.cons_append, strip?, if_pos rfl]
    exact strip?_append w u

/-- **Trimming takes what it can and no more.** -/
theorem trimEnd_of_last {p : Char → Bool} {u w : Text} (hu : ∀ x, u.getLast? = some x → p x = false)
    (hw : ∀ c ∈ w, p c = true) : trimEnd p (u ++ w) = u := by
  rw [trimEnd, List.reverse_append, List.dropWhile_append_of_pos (by simpa using hw)]
  cases hr : u.reverse with
  | nil => simpa using hr.symm
  | cons x v =>
    have hx : u.getLast? = some x := by rw [← List.head?_reverse, hr]; rfl
    rw [List.dropWhile_cons_of_neg (by simp [hu x hx]), ← hr, List.reverse_reverse]

/-- An offset at which the text can be cut: the beginning of a character, or the end of the text. -/
def IsPlace (t : Text) (n : Nat) : Prop := ∃ u v, t = u ++ v ∧ bytes u = n

theorem IsPlace.le {t : Text} {n : Nat} (h : IsPlace t n) : n ≤ bytes t := by
  obtain ⟨u, v, rfl, rfl⟩ := h
  rw [bytes_append]
  exact Nat.le_add_right _ _

end InlineMarkup.Text

namespace InlineMarkup

theorem Span.text_append {s : Span} {p u v t : Text} (ht : t = p ++ (u ++ v)) (hs : s.start = Text.bytes p)
    (he : s.stop = Text.bytes p + Text.bytes u) : s.text t = u := by
  rw [Span.text, ht, hs, he, Text.slice?_append]
  rfl

end InlineMarkup
