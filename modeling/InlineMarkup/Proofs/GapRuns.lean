import InlineMarkup.Cst.GapTokens
import InlineMarkup.Proofs.Cuts
/-!
# Proofs.GapRuns — tokens are runs

Splitting a gap goes through it once, with at most one token begun.  What it gives is said by `Runs`: blank characters
belong to no token, and a token is a piece of one class that ends only where the class does, or after one character if
that is a token of its own (`runs_splitTokens`).  All else that is known of the tokens of a gap follows from this.
-/
namespace InlineMarkup

open Text (bytes isBlank)

/-! ## Classes -/

theorem GapClass.of_eq_blank {c : Char} : GapClass.of c = .blank ↔ isBlank c = true := by
  unfold GapClass.of
  split
  · next h => exact iff_of_true rfl h
  · next h =>
    refine iff_of_false (fun hclass => ?_) h
    split at hclass
    · cases hclass
    · split at hclass <;> cases hclass

theorem GapClass.solid_of {c : Char} {k : GapClass} (hc : GapClass.of c = k) (hk : k ≠ .blank) : isBlank c = false :=
  Bool.eq_false_iff.2 fun hb => hk (hc.symm.trans (of_eq_blank.2 hb))

/-- Brackets, separators and quotes. -/
def singles : List Char := ['{', '}', '(', ')', '[', ']', ',', ';', '"', '\'']

/-- **Which characters are tokens of their own.** -/
theorem GapClass.of_eq_single {c : Char} : GapClass.of c = .single ↔ c ∈ singles := by
  constructor
  · intro h
    unfold GapClass.of at h
    split at h
    · cases h
    · split at h
      · cases h
      · split at h
        · assumption
        · cases h
  · exact fun h => (by decide : ∀ c ∈ singles, GapClass.of c = .single) c h

/-- A piece of one class other than blank, with one character only if such a character is a token of its own. -/
structure IsPiece (k : GapClass) (v : Text) : Prop where
  nonempty : v ≠ []
  solid : k ≠ .blank
  uniform : ∀ c ∈ v, GapClass.of c = k
  single : k = .single → v.length = 1

theorem isPiece_singleton {c : Char} (h : GapClass.of c ≠ .blank) : IsPiece (GapClass.of c) [c] where
  nonempty := List.cons_ne_nil _ _
  solid := h
  uniform _ hd := by rw [List.mem_singleton.1 hd]
  single _ := rfl

theorem IsPiece.snoc {c : Char} {v : Text} {k : GapClass} (h : IsPiece k v) (hc : GapClass.of c = k)
    (hk : k ≠ .single) : IsPiece k (v ++ [c]) where
  nonempty := by simp
  solid := h.solid
  uniform d hd := by
    rcases List.mem_append.1 hd with hd | hd
    · exact h.uniform d hd
    · rw [List.mem_singleton.1 hd, hc]
  single hs := absurd hs hk

/-- A token of the class ends before this text. -/
def Stops (k : GapClass) (u : Text) : Prop := k = .single ∨ ∀ c, u.head? = some c → GapClass.of c ≠ k

/-! ## Runs -/

/-- The tokens of a text at an offset. -/
inductive Runs : Nat → Text → List Span → Prop
  | nil {off : Nat} : Runs off [] []
  | blank {off : Nat} {c : Char} {u : Text} {ss : List Span} : isBlank c = true → Runs (off + c.utf8Size) u ss →
      Runs off (c :: u) ss
  | run {off : Nat} {k : GapClass} {v u : Text} {ss : List Span} : IsPiece k v → Stops k u → Runs (off + bytes v) u ss →
      Runs off (v ++ u) (⟨off, off + bytes v⟩ :: ss)

/-- **Splitting gives the runs**, from any place on and with any token `v` begun. -/
theorem runs_splitFrom (u : Text) : (∀ off, Runs off u (splitFrom u off none)) ∧
    ∀ off k v, IsPiece k v → Runs off (v ++ u) (splitFrom u (off + bytes v) (some (off, k))) := by
  induction u with
  | nil =>
    refine ⟨fun off => .nil, fun off k v hv => ?_⟩
    exact .run hv (.inr fun c hc => by cases hc) .nil
  | cons c u ih =>
    obtain ⟨ihNone, ihSome⟩ := ih
    -- a token ended or none was begun: the character begins one, unless it is blank
    have hopen : ∀ off, Runs off (c :: u) (splitFrom u (off + c.utf8Size) ((GapClass.of c).opens off)) := by
      intro off
      unfold GapClass.opens
      split
      · next hb => exact .blank (GapClass.of_eq_blank.1 hb) (ihNone _)
      · next hb => exact ihSome off _ [c] (isPiece_singleton hb)
    refine ⟨hopen, fun off k v hv => ?_⟩
    rw [splitFrom]
    split
    · next hgoes =>
      have h := ihSome off k (v ++ [c]) (hv.snoc hgoes.1 hgoes.2)
      rw [Text.bytes_append, List.append_assoc] at h
      simpa [Nat.add_assoc] using h
    · next hends =>
      refine .run hv ?_ (hopen _)
      by_cases hk : k = .single
      · exact .inl hk
      · refine .inr fun d hd hclass => hends ⟨?_, hk⟩
        rw [← hclass, ← Option.some.inj hd]

theorem runs_splitTokens (gap : Text) (offset : Nat) : Runs offset gap (splitTokens gap offset) :=
  (runs_splitFrom gap).1 offset

namespace Runs

variable {off : Nat} {u : Text} {ss : List Span} {s t : Span}

theorem le_start (h : Runs off u ss) (hs : s ∈ ss) : off ≤ s.start := by
  induction h with
  | nil => cases hs
  | blank _ _ ih => exact Nat.le_trans (Nat.le_add_right _ _) (ih hs)
  | run _ _ _ ih =>
    rcases List.mem_cons.1 hs with rfl | hs
    · exact Nat.le_refl _
    · exact Nat.le_trans (Nat.le_add_right _ _) (ih hs)

theorem ordered (h : Runs off u ss) : ss.Pairwise fun s t => s.stop ≤ t.start := by
  induction h with
  | nil => exact .nil
  | blank _ _ ih => exact ih
  | run _ _ h ih => exact List.pairwise_cons.2 ⟨fun t ht => h.le_start ht, ih⟩

end Runs

/-! ## Places of characters -/

/-- One of the bytes of a character with the property, in a text that begins at an offset. -/
def OnChar (off : Nat) (u : Text) (p : Char → Prop) (place : Nat) : Prop :=
  ∃ a c b, u = a ++ c :: b ∧ p c ∧ off + bytes a ≤ place ∧ place < off + bytes a + c.utf8Size

section OnChar

variable {off place : Nat} {u v : Text} {p : Char → Prop}

theorem onChar_append : OnChar off (v ++ u) p place ↔ OnChar off v p place ∨ OnChar (off + bytes v) u p place := by
  constructor
  · rintro ⟨a, c, b, hab, hc, hplace⟩
    rcases Text.append_cons_cases hab with ⟨w, rfl⟩ | ⟨w, rfl, rfl⟩
    · exact .inl ⟨a, c, w, rfl, hc, hplace⟩
    · rw [Text.bytes_append, ← Nat.add_assoc] at hplace
      exact .inr ⟨w, c, b, rfl, hc, hplace⟩
  · rintro (⟨a, c, b, rfl, hc, hplace⟩ | ⟨a, c, b, rfl, hc, hplace⟩)
    · exact ⟨a, c, b ++ u, by simp, hc, hplace⟩
    · refine ⟨v ++ a, c, b, by simp, hc, ?_⟩
      rwa [Text.bytes_append, ← Nat.add_assoc]

theorem onChar_none (h : ∀ c ∈ u, ¬ p c) : ¬ OnChar off u p place := by
  rintro ⟨a, c, b, rfl, hc, -⟩
  exact h c (by simp) hc

theorem onChar_all (h : ∀ c ∈ u, p c) : OnChar off u p place ↔ off ≤ place ∧ place < off + bytes u := by
  induction u generalizing off with
  | nil =>
    refine iff_of_false (onChar_none fun c hc => absurd hc List.not_mem_nil) ?_
    rw [Text.bytes_nil]
    omega
  | cons c u ih =>
    have hhead : OnChar off [c] p place ↔ off ≤ place ∧ place < off + c.utf8Size := by
      constructor
      · rintro ⟨a, d, b, hab, -, hplace⟩
        obtain ⟨rfl, hd⟩ := List.append_eq_singleton_iff.1 hab.symm |>.resolve_right (by simp)
        obtain ⟨rfl, -⟩ := List.cons.inj hd
        exact hplace
      · exact fun hplace => ⟨[], c, [], rfl, h c List.mem_cons_self, hplace⟩
    rw [← List.singleton_append, onChar_append, hhead, ih fun d hd => h d (List.mem_cons_of_mem _ hd)]
    simp only [List.singleton_append, Text.bytes_cons, Text.bytes_nil]
    omega

end OnChar

/-! ## The tokens of a gap -/

/-- The span of a piece whose characters are of one class, in a text that begins at an offset. -/
def SpanOf (off : Nat) (u : Text) (k : GapClass) (s : Span) : Prop :=
  ∃ a v b, u = a ++ (v ++ b) ∧ v ≠ [] ∧ (∀ c ∈ v, GapClass.of c = k) ∧ s = ⟨off + bytes a, off + bytes a + bytes v⟩

section SpanOf

variable {off : Nat} {u v w : Text} {k k' : GapClass} {s t : Span}

theorem SpanOf.append_left (w : Text) (h : SpanOf (off + bytes w) u k s) : SpanOf off (w ++ u) k s := by
  obtain ⟨a, v, b, rfl, hne, hv, rfl⟩ := h
  exact ⟨w ++ a, v, b, by simp, hne, hv, by simp only [Text.bytes_append, Nat.add_assoc]⟩

theorem SpanOf.of_append (h : SpanOf off (w ++ u) k s) (hs : off + bytes w ≤ s.start) :
    SpanOf (off + bytes w) u k s := by
  obtain ⟨a, v, b, hab, hne, hv, rfl⟩ := h
  obtain ⟨a', rfl, rfl⟩ := Text.append_eq_of_bytes_le hab (Nat.le_of_add_le_add_left hs)
  exact ⟨a', v, b, rfl, hne, hv, by simp only [Text.bytes_append, Nat.add_assoc]⟩

/-- The class of a piece is that of the character that it begins with. -/
theorem SpanOf.head (h : SpanOf off u k s) (hs : s.start = off) : ∃ c, u.head? = some c ∧ GapClass.of c = k := by
  obtain ⟨a, v, b, rfl, hne, hv, rfl⟩ := h
  obtain rfl : a = [] := Text.bytes_eq_zero.1 (by dsimp only at hs; omega)
  cases v with
  | nil => exact absurd rfl hne
  | cons c v => exact ⟨c, rfl, hv c List.mem_cons_self⟩

theorem SpanOf.lt (h : SpanOf off u k s) : s.start < s.stop := by
  obtain ⟨a, v, b, -, hne, -, rfl⟩ := h
  exact Nat.lt_add_of_pos_right (Text.bytes_pos hne)

end SpanOf

namespace Runs

variable {off : Nat} {u : Text} {ss : List Span} {s t : Span} {k k' : GapClass}

theorem spanOf (h : Runs off u ss) (hs : s ∈ ss) : ∃ k, k ≠ .blank ∧ SpanOf off u k s := by
  induction h with
  | nil => cases hs
  | @blank off c u _ _ _ ih =>
    obtain ⟨k, hk, hspan⟩ := ih hs
    exact ⟨k, hk, hspan.append_left [c]⟩
  | @run off k v u _ hv _ _ ih =>
    rcases List.mem_cons.1 hs with rfl | hs
    · exact ⟨k, hv.solid, [], v, u, rfl, hv.nonempty, hv.uniform, rfl⟩
    · obtain ⟨k, hk, hspan⟩ := ih hs
      exact ⟨k, hk, hspan.append_left v⟩

/-- **The union of the tokens** is what is not blank. -/
theorem covers (h : Runs off u ss) (place : Nat) :
    (∃ s ∈ ss, s.start ≤ place ∧ place < s.stop) ↔ OnChar off u (isBlank · = false) place := by
  induction h with
  | nil =>
    refine iff_of_false ?_ (onChar_none fun c hc => absurd hc List.not_mem_nil)
    rintro ⟨s, hs, -⟩
    cases hs
  | @blank off c u ss hc _ ih =>
    have hnone : ¬ OnChar off [c] (isBlank · = false) place := by
      refine onChar_none fun d hd => ?_
      rw [List.mem_singleton.1 hd, hc]
      exact Bool.noConfusion
    rw [ih, ← List.singleton_append, onChar_append, or_iff_right hnone]
    rfl
  | @run off k v u ss hv _ _ ih =>
    have hsolid : ∀ c ∈ v, isBlank c = false := fun c hc => GapClass.solid_of (hv.uniform c hc) hv.solid
    rw [onChar_append, onChar_all hsolid, ← ih]
    simp only [List.mem_cons, or_and_right, exists_or, exists_eq_left]

/-- **A bracket, separator or quote is a token.** -/
theorem mem_of_single (h : Runs off u ss) {a b : Text} {c : Char} (hu : u = a ++ c :: b)
    (hc : GapClass.of c = .single) : ⟨off + bytes a, off + bytes a + c.utf8Size⟩ ∈ ss := by
  induction h generalizing a with
  | nil => simp at hu
  | @blank off d u ss hd _ ih =>
    cases a with
    | nil =>
      obtain ⟨rfl, -⟩ := List.cons.inj hu
      rw [GapClass.of_eq_blank.2 hd] at hc
      cases hc
    | cons x a =>
      obtain ⟨rfl, rfl⟩ := List.cons.inj hu
      simpa only [Text.bytes_cons, Nat.add_assoc] using ih rfl
  | @run off k v u ss hv _ _ ih =>
    rcases Text.append_cons_cases hu with ⟨w, rfl⟩ | ⟨w, rfl, rfl⟩
    · -- the class of the piece is that of the character, so there is nothing else in it
      have hlength := hv.single ((hv.uniform c (by simp)).symm.trans hc)
      obtain ⟨rfl, rfl⟩ : a = [] ∧ w = [] := by
        rw [List.length_append, List.length_cons] at hlength
        exact ⟨List.eq_nil_of_length_eq_zero (by omega), List.eq_nil_of_length_eq_zero (by omega)⟩
      exact List.mem_cons_self
    · refine List.mem_cons_of_mem _ ?_
      simpa only [Text.bytes_append, Nat.add_assoc] using ih rfl

/-- **Tokens that touch** are of different classes, or each is a token of its own. -/
theorem maximal (h : Runs off u ss) (hs : s ∈ ss) (ht : t ∈ ss) (htouch : s.stop = t.start) (hk : SpanOf off u k s)
    (hk' : SpanOf off u k' t) : k ≠ k' ∨ k = .single ∧ k' = .single := by
  induction h with
  | nil => cases hs
  | @blank off c u ss _ h ih =>
    exact ih hs ht (hk.of_append (w := [c]) (h.le_start hs)) (hk'.of_append (w := [c]) (h.le_start ht))
  | @run off k₀ v u ss hv hstops h ih =>
    have hlt := hk.lt
    have hpos := Text.bytes_pos hv.nonempty
    rcases List.mem_cons.1 ht with rfl | ht
    · -- nothing ends where the first token begins
      have hle : off ≤ s.start := by
        rcases List.mem_cons.1 hs with rfl | hs
        · exact Nat.le_refl _
        · exact Nat.le_trans (Nat.le_add_right _ _) (h.le_start hs)
      dsimp only at htouch
      omega
    · have hk' := hk'.of_append (h.le_start ht)
      rcases List.mem_cons.1 hs with rfl | hs
      · obtain ⟨c, hc, rfl⟩ := hk.head rfl
        obtain ⟨c', hc', rfl⟩ := hk'.head htouch.symm
        rw [List.head?_append, List.head?_eq_some_head hv.nonempty, Option.some_or] at hc
        rw [hv.uniform c (Option.some.inj hc ▸ List.head_mem _)]
        by_cases hsame : k₀ = GapClass.of c'
        · have hsingle := hstops.resolve_right fun hother => hother c' hc' hsame.symm
          exact .inr ⟨hsingle, hsame ▸ hsingle⟩
        · exact .inl hsame
      · exact ih hs ht (hk.of_append (h.le_start hs)) hk'

end Runs

/-- The tokens of a gap at an offset.  They are the spans of pieces of one class (`pieces`) and not empty (`nonempty`),
one behind the other (`increasing`).  Together they take every byte of a character that is not blank, and no other
(`covers`).  Every bracket, separator and quote is a token (`single`), and of two tokens that touch, the classes differ
or are both this one (`maximal`). -/
structure Tokenized (gap : Text) (offset : Nat) (ss : List Span) : Prop where
  pieces : ∀ s ∈ ss, ∃ k, k ≠ .blank ∧ SpanOf offset gap k s
  nonempty : ∀ s ∈ ss, s.start < s.stop
  increasing : ss.Pairwise fun s t => s.stop ≤ t.start
  covers : ∀ place, (∃ s ∈ ss, s.start ≤ place ∧ place < s.stop) ↔ OnChar offset gap (isBlank · = false) place
  single : ∀ a c b, gap = a ++ c :: b → c ∈ singles → ⟨offset + bytes a, offset + bytes a + c.utf8Size⟩ ∈ ss
  maximal : ∀ s ∈ ss, ∀ t ∈ ss, s.stop = t.start → ∀ k k', SpanOf offset gap k s → SpanOf offset gap k' t →
    k ≠ k' ∨ k = .single ∧ k' = .single

/-- **Splitting finds the longest runs of one class**, whatever the gap. -/
theorem splitTokens_tokenized (gap : Text) (offset : Nat) : Tokenized gap offset (splitTokens gap offset) := by
  have h := runs_splitTokens gap offset
  refine ⟨fun s => h.spanOf, fun s hs => ?_, h.ordered, h.covers, fun a c b hgap hc => ?_,
    fun s hs t ht htouch k k' => ?_⟩
  · obtain ⟨k, -, hspan⟩ := h.spanOf hs
    exact hspan.lt
  · exact h.mem_of_single hgap (GapClass.of_eq_single.2 hc)
  · exact h.maximal hs ht htouch

-- runs of letters and of symbols, and one bracket after another
example : splitTokens "let x_1 += é\x7b\x7b".toList 3 =
    [⟨3, 6⟩, ⟨7, 10⟩, ⟨11, 13⟩, ⟨14, 16⟩, ⟨16, 17⟩, ⟨17, 18⟩] := by decide +kernel

end InlineMarkup
