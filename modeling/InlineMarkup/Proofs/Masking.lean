import InlineMarkup.Proofs.LineEnds
/-!
# Proofs.Masking — the scan of host code

To find tags in host code, a scan blanks out its literals and comments and looks for tags in the rest.  It finds every
`PlainTag` (`PlainTag.found`), and behind literals and comments as the grammar reads them it is in code again
(`Clean.through_eq`).
-/
namespace InlineMarkup

namespace Lowering

/-! ## The scan over a text -/

/-- The scan behind a text, with the last character it saw. -/
def Scan.through : Scan → Char → Text → Scan × Char
  | s, previous, [] => (s, previous)
  | s, previous, c :: cs => (s.step previous c).1.through c cs

namespace Scan

variable {s : Scan} {previous : Char}

theorem through_append (u v : Text) :
    s.through previous (u ++ v) = (s.through previous u).1.through (s.through previous u).2 v := by
  induction u generalizing s previous with
  | nil => rfl
  | cons x u ih => exact ih

theorem through_snd (u : Text) : (s.through previous u).2 = u.getLast?.getD previous := by
  induction u generalizing s previous with
  | nil => rfl
  | cons x u ih =>
    rw [through, ih, List.getLast?_cons]
    rfl

theorem step_code {x : Char} (hstring : x ≠ '"') (hchar : x ≠ '\'') (hslash : x = '/' → previous ≠ '/')
    (hbar : x = '|' → previous ≠ '#' ∧ previous ≠ '$') : Scan.code.step previous x = (.code, true) := by
  unfold step
  by_cases hx : x = '/'
  · simp [hx, hslash hx]
  · by_cases hx' : x = '|'
    · simp [hx', hbar hx']
    · simp [hstring, hchar, hx, hx']

theorem step_code_keeps (x : Char) : (Scan.code.step previous x).2 = true := by
  unfold step
  dsimp only
  split_ifs <;> rfl

theorem through_comment {u : Text} (hu : '\n' ∉ u) : (Scan.comment.through previous u).1 = .comment := by
  induction u generalizing previous with
  | nil => rfl
  | cons x u ih =>
    obtain ⟨hx, hu⟩ := not_or.1 (mt List.mem_cons.2 hu)
    have hstep : (Scan.comment.step previous x).1 = .comment := by simp [step, Ne.symm hx]
    rw [through, hstep]
    exact ih hu

theorem through_quoted {close : Char} {u : Text} (hu : ∀ x ∈ u, x ≠ close ∧ x ≠ '\\' ∧ x ≠ '\n') :
    ((Scan.quoted close false).through previous u).1 = .quoted close false := by
  induction u generalizing previous with
  | nil => rfl
  | cons x u ih =>
    obtain ⟨hclose, hescape, hline⟩ := hu x List.mem_cons_self
    have hstep : ((Scan.quoted close false).step previous x).1 = .quoted close false := by
      simp [step, hclose, hescape, hline]
    rw [through, hstep]
    exact ih fun y hy => hu y (List.mem_cons_of_mem _ hy)

end Scan

/-! ## Steps from code -/

section Steps

variable {u : Text} {c : Char}

def IsQuote (c : Char) : Prop := c = '"' ∨ c = '\''

/-- The character ends the mark of a comment, or of a line of a string of several lines, behind this text. -/
def OpensLine (u : Text) (c : Char) : Prop :=
  c = '/' ∧ u.getLast? = some '/' ∨ c = '|' ∧ (u.getLast? = some '#' ∨ u.getLast? = some '$')

/-- The last character of a text, as the scan remembers it. -/
def lastOf (u : Text) : Char := u.getLast?.getD '\x00'

theorem lastOf_eq_iff {y : Char} (hy : y ≠ '\x00') : lastOf u = y ↔ u.getLast? = some y := by
  unfold lastOf
  cases u.getLast? with
  | none => exact iff_of_false (fun h => hy h.symm) fun h => by cases h
  | some x => exact Option.some_inj.symm

theorem opensLine_iff : OpensLine u c ↔ c = '/' ∧ lastOf u = '/' ∨ c = '|' ∧ (lastOf u = '#' ∨ lastOf u = '$') := by
  rw [lastOf_eq_iff (by decide), lastOf_eq_iff (by decide), lastOf_eq_iff (by decide)]
  rfl

theorem step_quote (previous : Char) (h : IsQuote c) : Scan.code.step previous c = (.quoted c false, true) := by
  rcases h with rfl | rfl <;> rfl

theorem step_opensLine (h : OpensLine u c) : Scan.code.step (lastOf u) c = (.comment, true) := by
  rcases opensLine_iff.1 h with ⟨rfl, hlast⟩ | ⟨rfl, hlast | hlast⟩ <;> rw [hlast] <;> rfl

theorem step_plain (hquote : ¬ IsQuote c) (hopens : ¬ OpensLine u c) : Scan.code.step (lastOf u) c = (.code, true) := by
  rw [opensLine_iff, not_or] at hopens
  refine Scan.step_code (fun h => hquote (.inl h)) (fun h => hquote (.inr h)) (fun h hlast => hopens.1 ⟨h, hlast⟩) fun h => ?_
  exact not_or.1 fun hlast => hopens.2 ⟨h, hlast⟩

theorem through_lastOf (s : Scan) (u : Text) : (s.through '\x00' u).2 = lastOf u := Scan.through_snd u

end Steps

/-! ## Blanks -/

theorem maskFrom_append (s : Scan) (previous : Char) (u v : Text) :
    maskFrom s previous (u ++ v) =
      maskFrom s previous u ++ maskFrom (s.through previous u).1 (s.through previous u).2 v := by
  induction u generalizing s previous with
  | nil => rfl
  | cons x u ih => simp [maskFrom, Scan.through, ih]

/-- Characters that begin no literal and no comment stay, and the scan stays in code. -/
theorem maskFrom_plain {u : Text} (hu : ∀ x ∈ u, x ∉ ['"', '\'', '/', '|']) (previous : Char) (v : Text) :
    maskFrom .code previous (u ++ v) = u ++ maskFrom .code (u.getLast?.getD previous) v := by
  induction u generalizing previous with
  | nil => rfl
  | cons x u ih =>
    have hx := hu x List.mem_cons_self
    simp only [List.mem_cons, List.not_mem_nil, or_false, not_or] at hx
    obtain ⟨hstring, hchar, hslash, hbar⟩ := hx
    have hstep : Scan.code.step previous x = (.code, true) :=
      Scan.step_code hstring hchar (fun h => absurd h hslash) fun h => absurd h hbar
    rw [List.cons_append, maskFrom, hstep, ih fun y hy => hu y (List.mem_cons_of_mem _ hy), List.getLast?_cons]
    rfl

/-! ## Masked copies -/

/-- The second text is a copy of the first, with some characters replaced by as many spaces as they have bytes. -/
inductive Masked : Text → Text → Prop
  | nil : Masked [] []
  | kept (x : Char) {t m : Text} : Masked t m → Masked (x :: t) (x :: m)
  | blanked (x : Char) {t m : Text} : Masked t m → Masked (x :: t) (List.replicate x.utf8Size ' ' ++ m)

theorem masked_maskFrom (s : Scan) (previous : Char) (t : Text) : Masked t (maskFrom s previous t) := by
  induction t generalizing s previous with
  | nil => exact .nil
  | cons x t ih =>
    unfold maskFrom
    simp only
    split
    · exact .kept x (ih _ _)
    · exact .blanked x (ih _ _)

theorem bytes_spaces (n : Nat) : Text.bytes (List.replicate n ' ') = n := by
  induction n with
  | zero => rfl
  | succ n ih =>
    rw [List.replicate_succ, Text.bytes_cons, ih, show ' '.utf8Size = 1 from rfl, Nat.add_comm]

/-- **What is not blank in a masked copy stands at the same place in the text.** -/
theorem Masked.place {t m : Text} (h : Masked t m) {a b : Text} {x : Char} (hm : m = a ++ x :: b) (hx : x ≠ ' ') :
    ∃ u v, t = u ++ x :: v ∧ Text.bytes u = Text.bytes a := by
  induction h generalizing a with
  | nil => simp at hm
  | @kept y t m _ ih =>
    cases a with
    | nil =>
      obtain ⟨rfl, -⟩ := List.cons.inj hm
      exact ⟨[], t, rfl, rfl⟩
    | cons z a =>
      obtain ⟨rfl, htail⟩ := List.cons.inj hm
      obtain ⟨u, v, rfl, hu⟩ := ih htail
      exact ⟨y :: u, v, rfl, by rw [Text.bytes_cons, Text.bytes_cons, hu]⟩
  | @blanked y t m _ ih =>
    rcases List.append_eq_append_iff.1 hm with ⟨a', rfl, htail⟩ | ⟨c, hspaces, hc⟩
    · obtain ⟨u, v, rfl, hu⟩ := ih htail
      exact ⟨y :: u, v, rfl, by rw [Text.bytes_cons, Text.bytes_append, bytes_spaces, hu]⟩
    · cases c with
      | nil =>
        obtain ⟨u, v, rfl, hu⟩ := ih (a := []) (by simpa using hc.symm)
        refine ⟨y :: u, v, rfl, ?_⟩
        rw [List.append_nil] at hspaces
        rw [Text.bytes_cons, hu, ← hspaces, bytes_spaces]
        rfl
      | cons z c =>
        have hz : x ∈ List.replicate y.utf8Size ' ' := by
          rw [hspaces, (List.cons.inj hc).1]
          simp
        exact absurd (List.eq_of_mem_replicate hz) hx

/-! ## Tags that are found -/

theorem findTag?_isSome_iff {u : Text} {place : Nat} :
    (findTag? u place).isSome = true ↔ ∃ a b, u = a ++ b ∧ (afterTag? b).isSome = true := by
  induction u generalizing place with
  | nil =>
    refine ⟨nofun, ?_⟩
    rintro ⟨a, b, hab, hb⟩
    rw [(List.append_eq_nil_iff.1 hab.symm).2] at hb
    cases hb
  | cons x u ih =>
    rw [findTag?]
    cases htag : afterTag? (x :: u) with
    | some rest => exact ⟨fun _ => ⟨[], x :: u, rfl, by rw [htag]; rfl⟩, fun _ => rfl⟩
    | none =>
      refine ih.trans ⟨?_, ?_⟩
      · rintro ⟨a, b, rfl, hb⟩
        exact ⟨x :: a, b, rfl, hb⟩
      · rintro ⟨a, b, hab, hb⟩
        cases a with
        | nil =>
          obtain rfl : x :: u = b := hab
          rw [htag] at hb
          cases hb
        | cons y a => exact ⟨a, b, (List.cons.inj hab).2, hb⟩

/-- A tag that is found is text from a bracket up to a bracket. -/
theorem afterTag?_eq_some {t rest : Text} (h : afterTag? t = some rest) : ∃ inner, t = '<' :: (inner ++ '>' :: rest) := by
  have hsuffix : ∀ {tail : Text}, '>' :: rest <:+ tail → ∃ inner, '<' :: tail = '<' :: (inner ++ '>' :: rest) := by
    rintro _ ⟨inner, rfl⟩
    exact ⟨inner, rfl⟩
  unfold afterTag? at h
  split at h
  · next c cs =>
    split at h
    · split at h
      · next hend =>
        cases h
        refine hsuffix ?_
        rw [← hend]
        exact ((List.dropWhile_suffix _).trans (List.dropWhile_suffix _)).trans ((List.suffix_cons c cs).trans (List.suffix_cons _ _))
      · cases h
    · cases h
  · next c cs _ =>
    split at h
    · split at h
      · next hend =>
        cases h
        refine hsuffix ?_
        rw [← hend]
        exact (List.dropWhile_suffix _).trans (List.suffix_cons c cs)
      · next hend =>
        cases h
        refine hsuffix ((List.suffix_cons '/' _).trans ?_)
        rw [← hend]
        exact (List.dropWhile_suffix _).trans (List.suffix_cons c cs)
      · next b more _ _ hend =>
        split at h
        · split at h
          · next hclose =>
            cases h
            refine hsuffix ?_
            rw [← hclose]
            refine (List.dropWhile_suffix _).trans ((List.suffix_cons b more).trans ?_)
            rw [← hend]
            exact (List.dropWhile_suffix _).trans (List.suffix_cons c cs)
          · cases h
        · cases h
      · cases h
    · cases h
  · cases h

theorem findTag?_eq_some {t : Text} {place : Nat} {found : Span} (h : findTag? t place = some found) :
    ∃ a inner b, t = a ++ '<' :: (inner ++ '>' :: b) ∧ found.start = place + Text.bytes a ∧
      found.stop = found.start + Text.bytes ('<' :: (inner ++ ['>'])) := by
  induction t generalizing place with
  | nil => cases h
  | cons x t ih =>
    rw [findTag?] at h
    cases htag : afterTag? (x :: t) with
    | some rest =>
      rw [htag] at h
      cases h
      obtain ⟨inner, hinner⟩ := afterTag?_eq_some htag
      refine ⟨[], inner, rest, hinner, rfl, ?_⟩
      rw [hinner]
      simp only [Text.bytes_cons, Text.bytes_append, Text.bytes_nil]
      omega
    | none =>
      rw [htag] at h
      obtain ⟨a, inner, b, rfl, hstart, hstop⟩ := ih h
      exact ⟨x :: a, inner, b, rfl, by rw [hstart, Text.bytes_cons]; omega, hstop⟩

/-- A tag with a name right behind its bracket, and then its end, or layout and no second tag before its end. -/
inductive PlainTag : Text → Prop
  | bare {x name} : isTagStart x = true → (∀ y ∈ name, isTagPart y = true) → PlainTag ('<' :: x :: (name ++ ['>']))
  | closed {x name} : isTagStart x = true → (∀ y ∈ name, isTagPart y = true) →
      PlainTag ('<' :: x :: (name ++ ['/', '>']))
  | filled {x name b more} : isTagStart x = true → (∀ y ∈ name, isTagPart y = true) → Text.isLayout b = true →
      '<' ∉ more → PlainTag ('<' :: x :: (name ++ b :: (more ++ ['>'])))

theorem dropWhile_name {name : Text} (hname : ∀ y ∈ name, isTagPart y = true) {b : Char} (hb : isTagPart b = false)
    (rest : Text) : (name ++ b :: rest).dropWhile isTagPart = b :: rest := by
  rw [List.dropWhile_append_of_pos hname, List.dropWhile_cons_of_neg (by simp [hb])]

theorem exists_dropWhile_close {u : Text} (hu : '<' ∉ u) (rest : Text) :
    ∃ more, (u ++ '>' :: rest).dropWhile (fun x => x != '<' && x != '>') = '>' :: more := by
  induction u with
  | nil => exact ⟨rest, rfl⟩
  | cons x u ih =>
    obtain ⟨hx, hu⟩ := not_or.1 (mt List.mem_cons.2 hu)
    by_cases hclose : x = '>'
    · exact ⟨u ++ '>' :: rest, by simp [hclose]⟩
    · obtain ⟨more, hmore⟩ := ih hu
      refine ⟨more, ?_⟩
      rw [List.cons_append, List.dropWhile_cons_of_pos (by simp [hclose, Ne.symm hx]), hmore]

theorem afterTag?_named {x : Char} (hx : isTagStart x = true) (u : Text) : afterTag? ('<' :: x :: u) =
    match u.dropWhile isTagPart with
    | '>' :: rest => some rest
    | '/' :: '>' :: rest => some rest
    | b :: more =>
      if Text.isBlank b then
        match more.dropWhile fun x => x != '<' && x != '>' with
        | '>' :: rest => some rest
        | _ => none
      else none
    | [] => none := by
  have hslash : x ≠ '/' := by
    rintro rfl
    cases hx
  exact (afterTag?.eq_2 x u fun _ _ heq _ => hslash heq).trans (if_pos hx)

theorem PlainTag.found {m : Text} (h : PlainTag m) (rest : Text) : (afterTag? (m ++ rest)).isSome = true := by
  cases h with
  | bare hx hname =>
    have hdrop := dropWhile_name hname (show isTagPart '>' = false by decide) rest
    simp [afterTag?_named hx, hdrop]
  | closed hx hname =>
    have hdrop := dropWhile_name hname (show isTagPart '/' = false by decide) ('>' :: rest)
    simp [afterTag?_named hx, hdrop]
  | @filled x name b more hx hname hb hmore =>
    obtain ⟨after, hafter⟩ := exists_dropWhile_close hmore rest
    have hlayout : b = ' ' ∨ b = '\t' ∨ b = '\r' ∨ b = '\n' := by
      simpa [Text.isLayout, Text.isIndent, or_assoc] using hb
    have hpart : isTagPart b = false := by rcases hlayout with rfl | rfl | rfl | rfl <;> decide
    have hdrop := dropWhile_name hname hpart (more ++ '>' :: rest)
    rcases hlayout with rfl | rfl | rfl | rfl <;> simp [afterTag?_named hx, hdrop, hafter, Text.isBlank]

end Lowering

/-! ## Literals and comments as the grammar reads them -/

namespace Grammar

open Lowering

variable {l : Layout} {k : Look} {c c' : Cursor} {xs : List (Parse Rule)}

theorem Eval.word_none_head {y : Char} (h : Eval document (.word [y]) l k c none) {x : Char} {rest : Text}
    (hc : c.rest = x :: rest) : x ≠ y := by
  rintro rfl
  have hnone := h.word_none
  simp [Cursor.word?, Text.strip?, hc] at hnone

theorem Eval.newline_none_head (h : Eval document DocExpr.newline l k c none) {x : Char} {rest : Text}
    (hc : c.rest = x :: rest) : x ≠ '\n' := by
  rintro rfl
  obtain ⟨off, rest'⟩ := c
  subst hc
  exact newline_none (.inl rfl) h

theorem Eval.seq_tight {p q : DocExpr} (hl : l ≠ .spaced) (h : Eval document (.seq p q) l k c (some (c', xs))) :
    ∃ c₁ ys zs, Eval document p l k c (some (c₁, ys)) ∧ Eval document q l k c₁ (some (c', zs)) := by
  obtain ⟨c₁, ys, _, _, zs, hp, hs, hq, -⟩ := h.seq_parts
  cases hs.skip_eq hl
  exact ⟨c₁, ys, zs, hp, hq⟩

theorem Eval.word_past {w : Text} (h : Eval document (.word w) l k c (some (c', xs))) : c.Past w c' :=
  .word h.word_some

theorem Eval.any_past (h : Eval document (.one .any) l k c (some (c', xs))) : ∃ x, c.Past [x] c' := by
  obtain ⟨_, hone, heq⟩ := Option.map_eq_some_iff.1 (h.unique .one).symm
  cases heq
  obtain ⟨x, -, hx⟩ := Cursor.Past.one hone
  exact ⟨x, hx⟩

theorem Eval.charBut_past {stop : DocExpr} (hl : l ≠ .spaced)
    (h : Eval document (DocExpr.charBut stop) l k c (some (c', xs))) :
    ∃ x, c.Past [x] c' ∧ Eval document stop l k.enterNever c none := by
  obtain ⟨_, _, _, hnever, hany⟩ := h.seq_tight hl
  cases hnever with
  | neverNone hstop =>
    obtain ⟨x, hx⟩ := hany.any_past
    exact ⟨x, hx, hstop⟩

theorem Eval.escape_none_head {y : Char} (hl : l ≠ .spaced) (h : Eval document (.seq (.word [y]) (.one .any)) l k c none)
    {x : Char} {rest : Text} (hc : c.rest = x :: rest) (hrest : rest ≠ []) : x ≠ y := by
  generalize ho : (none : Result Rule) = o at h
  cases h with
  | seqFail hword => exact hword.word_none_head hc
  | seqStuck _ hs => cases hs.skip_eq hl
  | @seq _ _ _ _ _ c₁ _ _ _ o hword hs hany =>
    cases hs.skip_eq hl
    have hrest' := hword.word_past.rest
    rw [hc] at hrest'
    obtain rfl : rest = c₁.rest := (List.cons.inj hrest').2
    obtain ⟨off, u⟩ := c₁
    cases u with
    | nil => exact absurd rfl hrest
    | cons z u =>
      cases hany.unique .one
      cases ho

section Repeated

variable {p : DocExpr} {P : Text → Prop} {Q : Cursor → Prop} (hnil : P []) (happend : ∀ u v, P u → P v → P (u ++ v))
  (hback : ∀ c u c', c.Past u c' → Q c' → Q c)
  (hp : ∀ c c' xs, Eval document p l k c (some (c', xs)) → Q c' → ∃ u, c.Past u c' ∧ P u)

include hnil happend hback hp

/-- What holds of every match and of texts that are put together holds of a repetition. -/
theorem Eval.more_past (hl : l ≠ .spaced) (h : Eval document (.more p) l k c (some (c', xs))) (hq : Q c') :
    ∃ u, c.Past u c' ∧ P u := by
  generalize he : Expr.more p = e at h
  generalize ho : some (c', xs) = o at h
  induction h generalizing xs with
  | moreStuck => cases ho; exact ⟨[], .refl _, hnil⟩
  | moreNone => cases ho; exact ⟨[], .refl _, hnil⟩
  | moreSome hs hfirst _ _ _ ih =>
    cases he
    cases ho
    cases hs.skip_eq hl
    obtain ⟨v, hv, hPv⟩ := ih hp hl rfl rfl
    obtain ⟨u, hu, hPu⟩ := hp _ _ _ hfirst (hback _ _ _ hv hq)
    exact ⟨u ++ v, hu.trans hv, happend u v hPu hPv⟩
  | _ => cases he

theorem Eval.many_past (hl : l ≠ .spaced) (h : Eval document (.many p) l k c (some (c', xs))) (hq : Q c') :
    ∃ u, c.Past u c' ∧ P u := by
  cases h with
  | manyNone => exact ⟨[], .refl _, hnil⟩
  | manySome hfirst hmore =>
    obtain ⟨v, hv, hPv⟩ := hmore.more_past hnil happend hback hp hl hq
    obtain ⟨u, hu, hPu⟩ := hp _ _ _ hfirst (hback _ _ _ hv hq)
    exact ⟨u ++ v, hu.trans hv, happend u v hPu hPv⟩

end Repeated

theorem Eval.many_charBut_past {stop : DocExpr} {y : Char}
    (hstop : ∀ {k c}, Eval document stop l k c none → ∀ {x rest}, c.rest = x :: rest → x ≠ y) (hl : l ≠ .spaced)
    (h : Eval document (.many (DocExpr.charBut stop)) l k c (some (c', xs))) : ∃ u, c.Past u c' ∧ y ∉ u := by
  refine h.many_past List.not_mem_nil (fun u v hu hv => ?_) (fun _ _ _ _ _ => trivial) (fun c c' xs h _ => ?_) hl trivial
  · exact fun hmem => (List.mem_append.1 hmem).elim hu hv
  · obtain ⟨x, hx, hnone⟩ := h.charBut_past hl
    exact ⟨[x], hx, fun hmem => hstop hnone hx.rest (List.mem_singleton.1 hmem).symm⟩

/-- What holds of escapes, of characters where `stop` does not match, and of texts that are put together holds of the
items of a literal.  A backslash at the very end of the text would be read as a character, so something has to follow. -/
theorem Eval.items_past {stop : DocExpr} {P : Text → Prop} (hnil : P []) (happend : ∀ u v, P u → P v → P (u ++ v))
    (hescape : ∀ x, P ['\\', x])
    (hchar : ∀ {k c}, Eval document stop l k c none → ∀ {x rest}, c.rest = x :: rest → x ≠ '\\' → P [x])
    (hl : l ≠ .spaced)
    (h : Eval document (.many (.alt (.seq (DocExpr.word "\\") (.one .any)) (DocExpr.charBut stop))) l k c
      (some (c', xs)))
    (hne : c'.rest ≠ []) : ∃ u, c.Past u c' ∧ P u := by
  refine h.many_past hnil happend (Q := fun c => c.rest ≠ []) ?_ ?_ hl hne
  · intro c u c' hu hne hnil
    rw [hu.rest] at hnil
    exact hne (List.append_eq_nil_iff.1 hnil).2
  · intro c c' xs hitem hne
    cases hitem with
    | altLeft h =>
      obtain ⟨_, _, _, hslash, hany⟩ := h.seq_tight hl
      obtain ⟨x, hx⟩ := hany.any_past
      exact ⟨['\\', x], hslash.word_past.trans hx, hescape x⟩
    | altRight h hplain =>
      obtain ⟨x, hx, hnone⟩ := hplain.charBut_past hl
      exact ⟨[x], hx, hchar hnone hx.rest (h.escape_none_head hl hx.rest hne)⟩

/-- The expression takes this text somewhere, with no layout between its parts. -/
def Covers (e : DocExpr) (u : Text) : Prop :=
  ∃ l c c' xs, l ≠ .spaced ∧ Eval document e l .here c (some (c', xs)) ∧ c.Past u c'

theorem Cursor.Past.eq {u v : Text} (hu : c.Past u c') (hv : c.Past v c') : u = v :=
  List.append_cancel_right (hu.rest.symm.trans hv.rest)

/-- A comment or a line of a string takes the rest of its line behind two characters. -/
theorem Covers.line_eq {v : Text} (h : Covers DocExpr.lineComment v ∨ Covers DocExpr.stringLine v) :
    ∃ a b w, (a = '/' ∧ b = '/' ∨ (a = '#' ∨ a = '$') ∧ b = '|') ∧ v = a :: b :: w ∧ '\n' ∉ w := by
  rcases h with ⟨l, c, c', xs, hl, h, hv⟩ | ⟨l, c, c', xs, hl, h, hv⟩
  · obtain ⟨c₁, _, _, hmark, hline⟩ := h.seq_tight hl
    obtain ⟨w, hw, hfeed⟩ := hline.many_charBut_past Eval.newline_none_head hl
    exact ⟨'/', '/', w, .inl ⟨rfl, rfl⟩, hv.eq (hmark.word_past.trans hw), hfeed⟩
  · obtain ⟨c₁, _, _, hmark, hline⟩ := h.seq_tight hl
    obtain ⟨w, hw, hfeed⟩ := hline.many_charBut_past Eval.newline_none_head hl
    cases hmark with
    | altLeft hmark => exact ⟨'#', '|', w, .inr ⟨.inl rfl, rfl⟩, hv.eq (hmark.word_past.trans hw), hfeed⟩
    | altRight _ hmark => exact ⟨'$', '|', w, .inr ⟨.inr rfl, rfl⟩, hv.eq (hmark.word_past.trans hw), hfeed⟩

/-- The scan of a string as the grammar reads it is back in code behind it. -/
theorem Covers.string_through {v : Text} (h : Covers DocExpr.stringLiteral v) (previous : Char) :
    (Scan.code.through previous v).1 = .code := by
  obtain ⟨l, c, c', xs, hl, h, hv⟩ := h
  obtain ⟨c₁, _, _, hopen, h⟩ := h.seq_tight hl
  obtain ⟨c₂, _, _, hbody, hclose⟩ := h.seq_tight hl
  have hopen := hopen.word_past
  have hclose := hclose.word_past
  have hne : c₂.rest ≠ [] := by
    rw [hclose.rest]
    exact List.cons_ne_nil _ _
  have hitems : ∃ u, c₁.Past u c₂ ∧
      ∀ previous, ((Scan.quoted '"' false).through previous u).1 = .quoted '"' false := by
    refine hbody.items_past (fun _ => rfl) (fun u v hu hv previous => ?_) (fun _ _ => rfl) ?_ hl hne
    · rw [Scan.through_append, hu, hv]
    · intro k c hstop x rest hc hslash previous
      cases hstop with
      | altRight hquote hline =>
        refine Scan.through_quoted fun y hy => ?_
        obtain rfl := List.mem_singleton.1 hy
        exact ⟨hquote.word_none_head hc, hslash, hline.newline_none_head hc⟩
  obtain ⟨u, hu, hthrough⟩ := hitems
  obtain rfl : v = '"' :: (u ++ ['"']) := hv.eq (hopen.trans (hu.trans hclose))
  show ((Scan.quoted '"' false).through '"' (u ++ ['"'])).1 = .code
  rw [Scan.through_append, hthrough]
  rfl

theorem Covers.char_through {v : Text} (h : Covers DocExpr.charLiteral v) (hlone : v ≠ ['\'', '\\', '\''])
    (hlong : ∀ y ∈ v.drop 3, y ≠ '\\' ∧ y ≠ '\n') (previous : Char) : (Scan.code.through previous v).1 = .code := by
  obtain ⟨l, c, c', xs, hl, h, hv⟩ := h
  obtain ⟨c₁, _, _, hopen, h⟩ := h.seq_tight hl
  obtain ⟨c₂, _, _, hbody, hclose⟩ := h.seq_tight hl
  have hopen := hopen.word_past
  have hclose := hclose.word_past
  cases hbody with
  | altLeft hescape =>
    obtain ⟨c₃, _, _, hslash, hchars⟩ := hescape.seq_tight hl
    obtain ⟨c₄, _, _, hfirst, hmore⟩ := hchars.seq_tight hl
    obtain ⟨x, hx, -⟩ := hfirst.charBut_past hl
    obtain ⟨w, hw, hquote⟩ := hmore.many_charBut_past (y := '\'') Eval.word_none_head hl
    obtain rfl : v = '\'' :: '\\' :: x :: (w ++ ['\'']) :=
      hv.eq (hopen.trans (hslash.word_past.trans (hx.trans (hw.trans hclose))))
    show ((Scan.quoted '\'' false).through x (w ++ ['\''])).1 = .code
    rw [Scan.through_append, Scan.through_quoted]
    · rfl
    · intro y hy
      refine ⟨?_, hlong y (List.mem_append_left _ hy)⟩
      rintro rfl
      exact hquote hy
  | altRight _ hchar =>
    obtain ⟨x, hx, hstop⟩ := hchar.charBut_past hl
    obtain rfl : v = ['\'', x, '\''] := hv.eq (hopen.trans (hx.trans hclose))
    cases hstop with
    | altRight hquote hline =>
      show ((Scan.quoted '\'' false).through '\'' ([x] ++ ['\''])).1 = .code
      rw [Scan.through_append, Scan.through_quoted]
      · rfl
      · intro y hy
        obtain rfl := List.mem_singleton.1 hy
        refine ⟨hquote.word_none_head hx.rest, ?_, hline.newline_none_head hx.rest⟩
        rintro rfl
        exact hlone rfl

theorem Covers.of_run {e : DocExpr} {u : Text} {n : Nat}
    (h : (match run document n e .token .here ⟨0, u⟩ {} with | .matched c _ _ => c.rest.isEmpty | _ => false) = true) :
    Covers e u := by
  cases hrun : run document n e .token .here ⟨0, u⟩ {} with
  | exhausted =>
    rw [hrun] at h
    cases h
  | failed =>
    rw [hrun] at h
    cases h
  | matched c xs a =>
    rw [hrun] at h
    have heval := eval_of_run document n e _ _ _ _ (some (c, xs)) (by rw [hrun]; rfl)
    obtain ⟨v, hv, -⟩ := heval.past document_bounded.empty _ rfl
    have hrest := hv.rest
    rw [List.isEmpty_iff.1 h, List.append_nil] at hrest
    obtain rfl : u = v := hrest
    exact ⟨.token, _, c, xs, nofun, heval, hv⟩

end Grammar

open Lowering Grammar

/-- Host code with no literal or comment open at its end: single characters that begin neither, literals, and comments
with their line ends. -/
inductive Clean : Text → Prop
  | nil : Clean []
  | char {u x} : Clean u → x ≠ '"' → x ≠ '\'' → (x = '/' → u.getLast? ≠ some '/') →
      (x = '|' → u.getLast? ≠ some '#' ∧ u.getLast? ≠ some '$') → Clean (u ++ [x])
  | string {u v} : Clean u → Covers DocExpr.stringLiteral v → Clean (u ++ v)
  -- a backslash between two quotes is not an escape for the grammar, and only the first one begins an escape
  | character {u v} : Clean u → Covers DocExpr.charLiteral v → v ≠ ['\'', '\\', '\''] →
      (∀ y ∈ v.drop 3, y ≠ '\\' ∧ y ≠ '\n') → Clean (u ++ v)
  | line {u v} : Clean u → Covers DocExpr.lineComment v ∨ Covers DocExpr.stringLine v → Clean (u ++ (v ++ ['\n']))

theorem Clean.chars {v : Text} (hv : ∀ x ∈ v, x ∉ ['"', '\'', '/', '|']) {u : Text} (hu : Clean u) : Clean (u ++ v) := by
  induction v generalizing u with
  | nil => rwa [List.append_nil]
  | cons x v ih =>
    have hx := hv x List.mem_cons_self
    simp only [List.mem_cons, List.not_mem_nil, or_false, not_or] at hx
    obtain ⟨hstring, hchar, hslash, hbar⟩ := hx
    rw [List.append_cons]
    refine ih (fun y hy => hv y (List.mem_cons_of_mem _ hy)) (.char hu hstring hchar ?_ ?_)
    · exact fun h => absurd h hslash
    · exact fun h => absurd h hbar

theorem through_line {a b : Char} (hab : a = '/' ∧ b = '/' ∨ (a = '#' ∨ a = '$') ∧ b = '|') {w : Text} (hw : '\n' ∉ w)
    (previous : Char) : (Scan.code.through previous (a :: b :: w ++ ['\n'])).1 = .code := by
  have hopen : (Scan.code.through previous [a, b]).1 = .comment := by
    rcases hab with ⟨rfl, rfl⟩ | ⟨rfl | rfl, rfl⟩
    · by_cases hprevious : previous = '/' <;> simp [Scan.through, Scan.step, hprevious]
    · rfl
    · rfl
  have hsplit : a :: b :: w ++ ['\n'] = [a, b] ++ (w ++ ['\n']) := rfl
  rw [hsplit, Scan.through_append, hopen, Scan.through_append, Scan.through_comment hw]
  rfl

/-- **The scan agrees with the grammar**: behind clean host code it is in code. -/
theorem Clean.through_eq {u : Text} (h : Clean u) : (Scan.code.through '\x00' u).1 = .code := by
  induction h with
  | nil => rfl
  | @char u x hu hstring hchar hslash hbar ih =>
    rw [Scan.through_append, ih, through_lastOf]
    refine congrArg Prod.fst (step_plain (not_or.2 ⟨hstring, hchar⟩) ?_)
    rintro (⟨hx, hlast⟩ | ⟨hx, hlast⟩)
    · exact hslash hx hlast
    · exact hlast.elim (hbar hx).1 (hbar hx).2
  | string _ hv ih =>
    rw [Scan.through_append, ih]
    exact hv.string_through _
  | character _ hv hlone hlong ih =>
    rw [Scan.through_append, ih]
    exact hv.char_through hlone hlong _
  | line _ hv ih =>
    obtain ⟨a, b, w, hab, rfl, hw⟩ := Covers.line_eq hv
    rw [Scan.through_append, ih]
    exact through_line hab hw _

end InlineMarkup
