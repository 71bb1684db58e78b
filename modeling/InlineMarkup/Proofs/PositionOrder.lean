import InlineMarkup.Proofs.Positions
import Mathlib.Data.Prod.Lex
import Mathlib.Data.Set.Monotone
import Mathlib.Order.Bounds.Defs
/-!
# Proofs.PositionOrder — positions along a text

Positions are ordered by line, then by column (`Position.key`).  Every character leads to a later position: a line feed
sets the column back but goes on to the next line.  So positions rise along the boundaries of a text, the offsets of its
UTF-8 form where a character begins or the text ends, and no two boundaries have the same position.  Any other offset
has the position of the last boundary before it (`Position.ofOffset_increases`).
-/
namespace InlineMarkup

open Text (bytes IsPlace)

/-! ## Boundaries -/

namespace Text

/-- The offsets of the UTF-8 form of a text where a character begins or the text ends. -/
def boundaries (t : Text) : Set Nat := {n | (⟨n⟩ : String.Pos.Raw).IsValid (String.ofList t)}

theorem utf8ByteSize_ofList (t : Text) : (String.ofList t).utf8ByteSize = bytes t := by
  induction t with
  | nil => rfl
  | cons x t ih =>
    rw [String.ofList_cons, String.utf8ByteSize_append, String.utf8ByteSize_singleton, ih, bytes_cons]

/-- **The places of a text are the boundaries of its UTF-8 form.** -/
theorem mem_boundaries {t : Text} {n : Nat} : n ∈ boundaries t ↔ IsPlace t n := by
  unfold boundaries IsPlace
  rw [Set.mem_ofPred_eq, String.Pos.Raw.isValid_iff_exists_append]
  constructor
  · rintro ⟨u, v, ht, hn⟩
    refine ⟨u.toList, v.toList, ?_, ?_⟩
    · rw [← String.toList_append, ← ht, String.toList_ofList]
    · rw [← utf8ByteSize_ofList, String.ofList_toList]
      exact (congrArg String.Pos.Raw.byteIdx hn).symm
  · rintro ⟨u, v, rfl, rfl⟩
    exact ⟨String.ofList u, String.ofList v, String.ofList_append, by rw [← utf8ByteSize_ofList]; rfl⟩

theorem bytes_upTo_le (t : Text) (n : Nat) : bytes (upTo t n) ≤ n := by
  fun_induction upTo t n with
  | case1 n => exact Nat.zero_le n
  | case2 x t n hx ih => rw [bytes_cons]; omega
  | case3 x t n hx => exact Nat.zero_le n

theorem exists_upTo_append (t : Text) (n : Nat) : ∃ v, t = upTo t n ++ v := by
  fun_induction upTo t n with
  | case1 n => exact ⟨[], rfl⟩
  | case2 x t n hx ih =>
    obtain ⟨v, hv⟩ := ih
    exact ⟨v, congrArg (x :: ·) hv⟩
  | case3 x t n hx => exact ⟨x :: t, rfl⟩

/-- Going back to where the characters up to an offset end loses none of them. -/
theorem upTo_bytes_upTo (t : Text) (n : Nat) : upTo t (bytes (upTo t n)) = upTo t n := by
  obtain ⟨v, hv⟩ := exists_upTo_append t n
  have hcut := upTo_append (upTo t n) v
  rwa [← hv] at hcut

/-- Whatever fits into the first `n` bytes is taken. -/
theorem bytes_le_bytes_upTo {u : Text} {n : Nat} (hu : bytes u ≤ n) (v : Text) :
    bytes u ≤ bytes (upTo (u ++ v) n) := by
  induction u generalizing n with
  | nil => exact Nat.zero_le _
  | cons x u ih =>
    rw [bytes_cons] at hu
    have hrest := ih (n := n - x.utf8Size) (by omega)
    rw [List.cons_append, upTo, if_pos (by omega), bytes_cons, bytes_cons]
    omega

/-- **The characters up to an offset end at the last boundary** that is neither past the offset nor past the text. -/
theorem isGreatest_bytes_upTo (t : Text) (offset : Nat) :
    IsGreatest {n ∈ boundaries t | n ≤ min offset (bytes t)} (bytes (upTo t offset)) := by
  constructor
  · obtain ⟨v, hv⟩ := exists_upTo_append t offset
    have hplace : IsPlace t (bytes (upTo t offset)) := ⟨upTo t offset, v, hv, rfl⟩
    exact ⟨mem_boundaries.2 hplace, le_min (bytes_upTo_le t offset) hplace.le⟩
  · rintro n ⟨hn, hle⟩
    obtain ⟨u, v, rfl, rfl⟩ := mem_boundaries.1 hn
    exact bytes_le_bytes_upTo (hle.trans (min_le_left _ _)) v

end Text

/-! ## Order -/

namespace Position

/-- What a position is compared by: its line, then its column. -/
def key (p : Position) : ℕ ×ₗ ℕ := toLex (p.line, p.column)

theorem key_lt_iff {p q : Position} :
    p.key < q.key ↔ p.line < q.line ∨ p.line = q.line ∧ p.column < q.column := Prod.Lex.toLex_lt_toLex

/-- **Every character leads to a later position.** -/
theorem key_lt_step (p : Position) (x : Char) : p.key < (p.step x).key := by
  rw [key_lt_iff]
  by_cases hx : x = '\n'
  · rw [hx, step_feed]
    exact .inl (Nat.lt_succ_self p.line)
  · rw [step_of_ne hx]
    exact .inr ⟨rfl, Nat.lt_succ_self p.column⟩

theorem key_le_foldl_step (t : Text) (p : Position) : p.key ≤ (t.foldl step p).key := by
  induction t generalizing p with
  | nil => exact le_rfl
  | cons x t ih => exact (key_lt_step p x).le.trans (ih (p.step x))

theorem key_lt_foldl_step {t : Text} (ht : t ≠ []) (p : Position) : p.key < (t.foldl step p).key := by
  cases t with
  | nil => exact absurd rfl ht
  | cons x t => exact (key_lt_step p x).trans_le (key_le_foldl_step t (p.step x))

theorem ofBefore_append (u w : Text) : ofBefore (u ++ w) = w.foldl step (ofBefore u) := by
  rw [ofBefore_eq_foldl, List.foldl_append, ← ofBefore_eq_foldl]

theorem ofOffset_append (u v : Text) : ofOffset (u ++ v) (bytes u) = ofBefore u := by
  rw [ofOffset, Text.upTo_append]

theorem ofOffset_strictMonoOn (t : Text) : StrictMonoOn (fun n => (ofOffset t n).key) t.boundaries := by
  intro m hm n hn hlt
  obtain ⟨u, v, ht, rfl⟩ := Text.mem_boundaries.1 hm
  obtain ⟨u', v', ht', rfl⟩ := Text.mem_boundaries.1 hn
  -- Between the two boundaries stands a text `w`, and the later position is reached from the earlier one over it.
  obtain ⟨w, rfl, -⟩ := Text.append_eq_of_bytes_le (ht.symm.trans ht') hlt.le
  have hw : w ≠ [] := by
    rintro rfl
    rw [List.append_nil] at hlt
    exact hlt.ne rfl
  have hu : ofOffset t (bytes u) = ofBefore u := by rw [ht, ofOffset_append]
  have hu' : ofOffset t (bytes (u ++ w)) = w.foldl step (ofBefore u) := by
    rw [ht', ofOffset_append, ofBefore_append]
  change (ofOffset t (bytes u)).key < (ofOffset t (bytes (u ++ w))).key
  rw [hu, hu']
  exact key_lt_foldl_step hw (ofBefore u)

theorem ofOffset_bytes_upTo (t : Text) (offset : Nat) :
    ofOffset t (bytes (Text.upTo t offset)) = ofOffset t offset := by
  rw [ofOffset, Text.upTo_bytes_upTo, ofOffset]

/-- **Positions rise along the boundaries of a text**, so each boundary has a position of its own, and every offset,
inside a character or past the end, has the position of the last boundary up to it. -/
theorem ofOffset_increases (t : Text) :
    StrictMonoOn (fun n => (ofOffset t n).key) t.boundaries ∧ Set.InjOn (ofOffset t) t.boundaries ∧
      ∀ offset, ∃ n, IsGreatest {m ∈ t.boundaries | m ≤ min offset (bytes t)} n ∧
        ofOffset t offset = ofOffset t n := by
  have hmono := ofOffset_strictMonoOn t
  refine ⟨hmono, fun m hm n hn heq => hmono.injOn hm hn (congrArg key heq), fun offset => ?_⟩
  exact ⟨bytes (Text.upTo t offset), Text.isGreatest_bytes_upTo t offset, (ofOffset_bytes_upTo t offset).symm⟩

/-- A character of two bytes, a line end of two characters and a character of four bytes. -/
def wideText : Text := "é\r\n𝄞".toList

example : (List.range 10).map (fun n => (ofOffset wideText n).display) =
    ["1:1", "1:1", "1:2", "1:3", "2:1", "2:1", "2:1", "2:1", "2:2", "2:2"] := by decide

/-- Across the line end the column falls and the position rises; inside the last character it stays. -/
theorem ofOffset_increases_wide :
    (3 ∈ wideText.boundaries ∧ 4 ∈ wideText.boundaries ∧ (ofOffset wideText 4).column < (ofOffset wideText 3).column) ∧
      (ofOffset wideText 3).key < (ofOffset wideText 4).key ∧ ofOffset wideText 3 ≠ ofOffset wideText 4 ∧
        ∃ n, IsGreatest {m ∈ wideText.boundaries | m ≤ min 7 (bytes wideText)} n ∧
          ofOffset wideText 7 = ofOffset wideText n := by
  obtain ⟨hmono, hinj, hback⟩ := ofOffset_increases wideText
  have h3 : 3 ∈ wideText.boundaries := Text.mem_boundaries.2 ⟨['é', '\r'], ['\n', '𝄞'], by decide, by decide⟩
  have h4 : 4 ∈ wideText.boundaries := Text.mem_boundaries.2 ⟨['é', '\r', '\n'], ['𝄞'], by decide, by decide⟩
  exact ⟨⟨h3, h4, by decide⟩, hmono h3 h4 (by decide), fun h => absurd (hinj h3 h4 h) (by decide), hback 7⟩

end Position
end InlineMarkup
