import InlineMarkup.Proofs.Masking
import Mathlib.Data.List.Induction
/-!
# Proofs.Regions — literals and comments as the scan delimits them

A literal goes from a quote to the next same quote that no backslash escapes, a comment from its mark to the line end,
and a line feed that is not escaped ends a literal too.  The scan is in code behind a text exactly if every literal and
comment in it has ended (`InCode`), and it blanks the characters strictly inside of one (`Inside`), those and no others
(`keeps_iff`).  Blanks neither end nor begin anything, so a second scan goes through the same regions (`Echo`) and has
nothing left to blank.
-/
namespace InlineMarkup.Lowering

/-! ## Regions -/

/-- What stands in a literal: escapes, and characters that neither end it nor begin an escape. -/
inductive Passed (quote : Char) : Text → Prop
  | nil : Passed quote []
  | escape {u : Text} (x : Char) : Passed quote u → Passed quote (u ++ ['\\', x])
  | plain {u : Text} {x : Char} : Passed quote u → x ≠ quote → x ≠ '\\' → x ≠ '\n' → Passed quote (u ++ [x])

/-- What stands in a literal, up to anywhere in it: an escape may be open. -/
def Within (quote : Char) (u : Text) : Prop := Passed quote u ∨ ∃ v, u = v ++ ['\\'] ∧ Passed quote v

/-- No literal and no comment is open at the end of the text. -/
inductive InCode : Text → Prop
  | nil : InCode []
  | code {u : Text} {c : Char} : InCode u → ¬ IsQuote c → ¬ OpensLine u c → InCode (u ++ [c])
  | literal {u body : Text} {quote close : Char} : InCode u → IsQuote quote → Passed quote body →
      close = quote ∨ close = '\n' → InCode (u ++ quote :: (body ++ [close]))
  | line {u body : Text} {mark : Char} : InCode u → OpensLine u mark → '\n' ∉ body →
      InCode (u ++ mark :: (body ++ ['\n']))

/-- The character behind the text is strictly inside of a literal or comment. -/
inductive Inside : Text → Char → Prop
  | literal {u body : Text} {quote c : Char} : InCode u → IsQuote quote → Within quote (body ++ [c]) →
      Inside (u ++ quote :: body) c
  | line {u body : Text} {mark c : Char} : InCode u → OpensLine u mark → '\n' ∉ body ++ [c] →
      Inside (u ++ mark :: body) c

/-- The character behind the text is escaped. -/
def Escaped (u : Text) : Prop :=
  ∃ v quote body, u = v ++ quote :: (body ++ ['\\']) ∧ InCode v ∧ IsQuote quote ∧ Passed quote body

/-! ## The scan of a region -/

theorem Passed.through {quote : Char} {u : Text} (h : Passed quote u) (previous : Char) :
    ((Scan.quoted quote false).through previous u).1 = .quoted quote false := by
  induction h with
  | nil => rfl
  | escape x _ ih =>
    rw [Scan.through_append, ih]
    rfl
  | plain _ hquote hescape hline ih =>
    rw [Scan.through_append, ih]
    refine Scan.through_quoted fun y hy => ?_
    rw [List.mem_singleton.1 hy]
    exact ⟨hquote, hescape, hline⟩

theorem Within.through {quote : Char} {u : Text} (h : Within quote u) (previous : Char) :
    ∃ escaped, ((Scan.quoted quote false).through previous u).1 = .quoted quote escaped := by
  rcases h with h | ⟨v, rfl, hv⟩
  · exact ⟨false, h.through previous⟩
  · refine ⟨true, ?_⟩
    rw [Scan.through_append, hv.through]
    rfl

/-- Within a literal there is no place where it has ended. -/
theorem Within.of_snoc {quote c : Char} {u : Text} (h : Within quote (u ++ [c])) : Within quote u := by
  rcases h with h | ⟨v, hv, hpassed⟩
  · generalize hw : u ++ [c] = w at h
    cases h with
    | nil => simp at hw
    | @escape v x hpassed =>
      have hw : u ++ [c] = v ++ ['\\'] ++ [x] := by rw [hw, List.append_assoc]; rfl
      exact .inr ⟨v, (List.append_inj' hw rfl).1, hpassed⟩
    | plain hpassed =>
      obtain rfl := (List.append_inj' hw rfl).1
      exact .inl hpassed
  · obtain rfl := (List.append_inj' hv rfl).1
    exact .inl hpassed

section Behind

variable {u body : Text} {quote mark : Char} (hu : (Scan.code.through '\x00' u).1 = .code)

include hu

theorem through_literal (hquote : IsQuote quote) :
    Scan.code.through '\x00' (u ++ quote :: body) = (Scan.quoted quote false).through quote body := by
  rw [Scan.through_append, hu, Scan.through, step_quote _ hquote]

theorem through_opensLine (hopens : OpensLine u mark) :
    Scan.code.through '\x00' (u ++ mark :: body) = Scan.comment.through mark body := by
  rw [Scan.through_append, hu, through_lastOf, Scan.through, step_opensLine hopens]

end Behind

/-- **Behind code the scan is in code.** -/
theorem InCode.through {u : Text} (h : InCode u) : (Scan.code.through '\x00' u).1 = .code := by
  induction h with
  | nil => rfl
  | code _ hquote hopens ih =>
    rw [Scan.through_append, ih, through_lastOf]
    exact congrArg Prod.fst (step_plain hquote hopens)
  | @literal u body quote close _ hquote hbody hclose ih =>
    rw [through_literal ih hquote, Scan.through_append, hbody.through]
    have hescape : close ≠ '\\' := by
      rcases hclose with rfl | rfl
      · rcases hquote with rfl | rfl <;> decide
      · decide
    rcases hclose with rfl | rfl <;> simp [Scan.through, Scan.step, hescape]
  | line _ hopens hbody ih =>
    rw [through_opensLine ih hopens, Scan.through_append, Scan.through_comment hbody]
    rfl

/-- A scan and the region that it is in. -/
inductive Reached : Text → Scan → Prop
  | code {u : Text} : InCode u → Reached u .code
  | quoted {u body : Text} {quote : Char} : InCode u → IsQuote quote → Passed quote body →
      Reached (u ++ quote :: body) (.quoted quote false)
  | escaping {u body : Text} {quote : Char} : InCode u → IsQuote quote → Passed quote body →
      Reached (u ++ quote :: (body ++ ['\\'])) (.quoted quote true)
  | comment {u body : Text} {mark : Char} : InCode u → OpensLine u mark → '\n' ∉ body →
      Reached (u ++ mark :: body) .comment

/-- One character further, the scan is in the region that the character begins, goes on with or ends. -/
theorem Reached.step {u : Text} {s : Scan} (h : Reached u s) (c : Char) :
    Reached (u ++ [c]) (s.step (lastOf u) c).1 := by
  cases h with
  | code hu =>
    by_cases hquote : IsQuote c
    · rw [step_quote _ hquote]
      exact .quoted hu hquote .nil
    · by_cases hopens : OpensLine u c
      · rw [step_opensLine hopens]
        exact .comment hu hopens List.not_mem_nil
      · rw [step_plain hquote hopens]
        exact .code (.code hu hquote hopens)
  | @quoted u body quote hu hquote hbody =>
    rw [List.append_assoc, List.cons_append]
    by_cases hescape : c = '\\'
    · rw [hescape]
      exact .escaping hu hquote hbody
    · by_cases hclose : c = quote ∨ c = '\n'
      · have hstep : ((Scan.quoted quote false).step (lastOf (u ++ quote :: body)) c).1 = .code := by
          rcases hclose with rfl | rfl <;> simp [Scan.step, hescape]
        rw [hstep]
        exact .code (.literal hu hquote hbody hclose)
      · obtain ⟨hother, hline⟩ := not_or.1 hclose
        have hstep : ((Scan.quoted quote false).step (lastOf (u ++ quote :: body)) c).1 = .quoted quote false := by
          simp [Scan.step, hescape, hother, hline]
        rw [hstep]
        exact .quoted hu hquote (.plain hbody hother hescape hline)
  | escaping hu hquote hbody =>
    rw [List.append_assoc, List.cons_append, List.append_assoc]
    exact .quoted hu hquote (.escape c hbody)
  | @comment u body mark hu hopens hbody =>
    rw [List.append_assoc, List.cons_append]
    by_cases hline : c = '\n'
    · rw [hline]
      exact .code (.line hu hopens hbody)
    · have hstep : (Scan.comment.step (lastOf (u ++ mark :: body)) c).1 = .comment := by simp [Scan.step, hline]
      rw [hstep]
      refine .comment hu hopens ?_
      simp [hbody, Ne.symm hline]

/-- **The scan is in the region where the text ends.** -/
theorem reached (u : Text) : Reached u (Scan.code.through '\x00' u).1 := by
  induction u using List.reverseRecOn with
  | nil => exact .code .nil
  | append_singleton u c ih =>
    rw [Scan.through_append, through_lastOf]
    exact ih.step c

/-- In a literal, what is kept ends it; the character before it does not matter. -/
theorem step_quoted_keeps {quote previous previous' c : Char} {escaped : Bool}
    (h : ((Scan.quoted quote escaped).step previous c).2 = true) :
    ((Scan.quoted quote escaped).step previous' c).1 = .code := by
  cases escaped with
  | true => cases h
  | false =>
    unfold Scan.step at h ⊢
    dsimp only at h ⊢
    split_ifs at h ⊢
    rfl

theorem step_quoted_blanks {quote previous c : Char} {escaped : Bool}
    (h : ((Scan.quoted quote escaped).step previous c).2 = false) :
    ∃ escaped', ((Scan.quoted quote escaped).step previous c).1 = .quoted quote escaped' := by
  cases escaped with
  | true => exact ⟨false, rfl⟩
  | false =>
    unfold Scan.step at h ⊢
    dsimp only at h ⊢
    split_ifs at h ⊢
    · exact ⟨true, rfl⟩
    · exact ⟨false, rfl⟩

theorem within_of_blanked {quote previous c : Char} {body : Text} (hbody : Passed quote body)
    (h : ¬ ((Scan.quoted quote false).step previous c).2 = true) : Within quote (body ++ [c]) := by
  by_cases hescape : c = '\\'
  · rw [hescape]
    exact .inr ⟨body, rfl, hbody⟩
  · by_cases hclose : c = quote ∨ c = '\n'
    · refine absurd ?_ h
      rcases hclose with rfl | rfl <;> simp [Scan.step, hescape]
    · obtain ⟨hother, hline⟩ := not_or.1 hclose
      exact .inl (.plain hbody hother hescape hline)

theorem step_comment_keeps {previous c : Char} : (Scan.comment.step previous c).2 = true ↔ c = '\n' := by
  by_cases hc : c = '\n' <;> simp [Scan.step, hc]

/-- **The scan keeps what is not strictly inside of a literal or comment**, and nothing else. -/
theorem keeps_iff (u : Text) (c : Char) :
    ((Scan.code.through '\x00' u).1.step (lastOf u) c).2 = true ↔ ¬ Inside u c := by
  constructor
  · intro hkeeps hinside
    cases hinside with
    | @literal u body quote _ hu hquote hwithin =>
      -- the scan is in the literal before the character and behind it
      obtain ⟨escaped, hbefore⟩ := hwithin.of_snoc.through quote
      obtain ⟨_, hbehind⟩ := hwithin.through quote
      rw [Scan.through_append, hbefore] at hbehind
      rw [through_literal hu.through hquote, hbefore] at hkeeps
      have hbehind : ((Scan.quoted quote escaped).step _ c).1 = _ := hbehind
      rw [step_quoted_keeps hkeeps] at hbehind
      cases hbehind
    | line hu hopens hbody =>
      rw [List.mem_append, not_or] at hbody
      rw [through_opensLine hu.through hopens, Scan.through_comment hbody.1, step_comment_keeps] at hkeeps
      exact hbody.2 (List.mem_singleton.2 hkeeps.symm)
  · intro houtside
    by_contra hblanks
    refine houtside ?_
    have hreached := reached u
    generalize (Scan.code.through '\x00' u).1 = s at hreached hblanks
    cases hreached with
    | code => exact absurd (Scan.step_code_keeps c) hblanks
    | quoted hu hquote hbody => exact .literal hu hquote (within_of_blanked hbody hblanks)
    | escaping hu hquote hbody =>
      refine .literal hu hquote (.inl ?_)
      rw [List.append_assoc]
      exact .escape c hbody
    | comment hu hopens hbody =>
      rw [step_comment_keeps] at hblanks
      exact .line hu hopens (by simp [hbody, Ne.symm hblanks])

instance decidableInside (u : Text) (c : Char) : Decidable (Inside u c) :=
  decidable_of_iff (¬ ((Scan.code.through '\x00' u).1.step (lastOf u) c).2 = true)
    ((not_congr (keeps_iff u c)).trans Classical.not_not)

/-- A line feed inside of a literal is escaped. -/
theorem Inside.escaped {u : Text} (h : Inside u '\n') : Escaped u := by
  cases h with
  | @literal u body quote _ hu hquote hwithin =>
    rcases hwithin with hpassed | ⟨v, hv, -⟩
    · generalize hw : body ++ ['\n'] = w at hpassed
      cases hpassed with
      | nil => simp at hw
      | @escape v x hpassed =>
        have hw : body ++ ['\n'] = v ++ ['\\'] ++ [x] := by rw [hw, List.append_assoc]; rfl
        obtain rfl := (List.append_inj' hw rfl).1
        exact ⟨u, quote, v, rfl, hu, hquote, hpassed⟩
      | plain _ _ _ hline => exact absurd (List.singleton_inj.1 (List.append_inj' hw rfl).2).symm hline
    · cases (List.append_inj' hv rfl).2
  | line _ _ hbody => exact absurd (by simp) hbody

/-- **A line feed that is not escaped ends everything.** -/
theorem inCode_line {u : Text} (h : ¬ Escaped u) : InCode (u ++ ['\n']) := by
  have hreached := reached u
  generalize (Scan.code.through '\x00' u).1 = s at hreached
  cases hreached with
  | code hu =>
    refine .code hu ?_ ?_
    · rintro (h | h) <;> cases h
    · rintro (⟨h, -⟩ | ⟨h, -⟩) <;> cases h
  | quoted hu hquote hbody =>
    rw [List.append_assoc]
    exact .literal hu hquote hbody (.inr rfl)
  | escaping hu hquote hbody => exact absurd ⟨_, _, _, rfl, hu, hquote, hbody⟩ h
  | comment hu hopens hbody =>
    rw [List.append_assoc]
    exact .line hu hopens hbody

/-! ## A second scan -/

/-- Two scans, the second of which has met only blanks where the first one met what it blanked. -/
inductive Echo : Scan → Char → Scan → Char → Prop
  | code (previous : Char) : Echo .code previous .code previous
  | quoted {quote : Char} (escaped : Bool) (previous previous' : Char) : quote ≠ ' ' →
      Echo (.quoted quote escaped) previous (.quoted quote false) previous'
  | comment (previous previous' : Char) : Echo .comment previous .comment previous'

theorem maskFrom_spaces {s : Scan} (hs : ∀ previous, s.step previous ' ' = (s, false)) (n : Nat) (previous : Char)
    (w : Text) : ∃ previous', maskFrom s previous (List.replicate n ' ' ++ w) =
      List.replicate n ' ' ++ maskFrom s previous' w := by
  induction n generalizing previous with
  | zero => exact ⟨previous, rfl⟩
  | succ n ih =>
    obtain ⟨previous', h⟩ := ih ' '
    refine ⟨previous', ?_⟩
    rw [List.replicate_succ, List.cons_append, maskFrom, hs, h]
    rfl

namespace Echo

variable {s s' : Scan} {previous previous' c : Char}

theorem behind_code (previous c : Char) : Echo (Scan.code.step previous c).1 c (Scan.code.step previous c).1 c := by
  by_cases hquote : IsQuote c
  · rw [step_quote previous hquote]
    refine .quoted false c c ?_
    rcases hquote with rfl | rfl <;> decide
  · unfold Scan.step
    dsimp only
    split_ifs with h
    · exact absurd (by simpa [IsQuote] using h) hquote
    · exact .comment c c
    · exact .comment c c
    · exact .code c

/-- A character that is kept: the second scan keeps it too. -/
theorem kept (h : Echo s previous s' previous') (hkeeps : (s.step previous c).2 = true) :
    (s'.step previous' c).2 = true ∧ Echo (s.step previous c).1 c (s'.step previous' c).1 c := by
  cases h with
  | code => exact ⟨hkeeps, behind_code previous c⟩
  | quoted escaped _ _ hquote =>
    cases escaped with
    | true => cases hkeeps
    | false =>
      refine ⟨hkeeps, ?_⟩
      rw [step_quoted_keeps hkeeps, step_quoted_keeps hkeeps]
      exact .code c
  | comment =>
    obtain rfl := step_comment_keeps.1 hkeeps
    exact ⟨rfl, .code '\n'⟩

/-- A character that is blanked: the second scan goes over the blanks in the same region. -/
theorem blanked (h : Echo s previous s' previous') (hblanks : (s.step previous c).2 = false) (w : Text) :
    ∃ last, maskFrom s' previous' (List.replicate c.utf8Size ' ' ++ w) =
      List.replicate c.utf8Size ' ' ++ maskFrom s' last w ∧ Echo (s.step previous c).1 c s' last := by
  cases h with
  | code =>
    rw [Scan.step_code_keeps] at hblanks
    cases hblanks
  | @quoted quote escaped _ _ hquote =>
    obtain ⟨last, hlast⟩ := maskFrom_spaces (s := .quoted quote false) (fun p => by simp [Scan.step, Ne.symm hquote])
      c.utf8Size previous' w
    obtain ⟨escaped', hstep⟩ := step_quoted_blanks hblanks
    rw [hstep]
    exact ⟨last, hlast, .quoted escaped' c last hquote⟩
  | comment =>
    obtain ⟨last, hlast⟩ := maskFrom_spaces (s := .comment) (fun p => rfl) c.utf8Size previous' w
    have hline : c ≠ '\n' := fun hc => Bool.false_ne_true (hblanks.symm.trans (step_comment_keeps.2 hc))
    have hstep : (Scan.comment.step previous c).1 = .comment := by simp [Scan.step, hline]
    rw [hstep]
    exact ⟨last, hlast, .comment c last⟩

end Echo

/-- **A second scan changes nothing.** -/
theorem Echo.maskFrom_eq {s s' : Scan} {previous previous' : Char} (t : Text) (h : Echo s previous s' previous') :
    maskFrom s' previous' (maskFrom s previous t) = maskFrom s previous t := by
  induction t generalizing s s' previous previous' with
  | nil => rfl
  | cons c t ih =>
    rw [maskFrom]
    cases hkeeps : (s.step previous c).2 with
    | true =>
      obtain ⟨hkeeps', hnext⟩ := h.kept hkeeps
      rw [if_pos rfl, List.singleton_append, maskFrom, hkeeps', if_pos rfl, ih hnext, List.singleton_append]
    | false =>
      obtain ⟨last, hspaces, hnext⟩ := h.blanked hkeeps (maskFrom (s.step previous c).1 c t)
      rw [if_neg Bool.false_ne_true, hspaces, ih hnext]

/-! ## Masked texts -/

theorem Masked.bytes_eq {t m : Text} (h : Masked t m) : Text.bytes m = Text.bytes t := by
  induction h with
  | nil => rfl
  | kept x _ ih => rw [Text.bytes_cons, Text.bytes_cons, ih]
  | blanked x _ ih => rw [Text.bytes_append, bytes_spaces, ih, Text.bytes_cons]

theorem bytes_maskFrom (s : Scan) (previous : Char) (t : Text) : Text.bytes (maskFrom s previous t) = Text.bytes t :=
  (masked_maskFrom s previous t).bytes_eq

theorem maskLiterals_append (u : Text) (c : Char) (v : Text) : maskLiterals (u ++ c :: v) =
    maskLiterals u ++ ((if Inside u c then List.replicate c.utf8Size ' ' else [c]) ++
      maskFrom ((Scan.code.through '\x00' u).1.step (lastOf u) c).1 c v) := by
  rw [maskLiterals, maskFrom_append, through_lastOf, maskFrom, maskLiterals]
  by_cases h : Inside u c
  · have hblanks := mt (keeps_iff u c).1 (not_not.2 h)
    rw [if_pos h, if_neg hblanks]
  · rw [if_neg h, if_pos ((keeps_iff u c).2 h)]

/-- In code, a character before the text matters only if it can begin a mark. -/
theorem maskFrom_code_congr {previous previous' : Char} (h : previous ∉ ['/', '#', '$'])
    (h' : previous' ∉ ['/', '#', '$']) (t : Text) : maskFrom .code previous t = maskFrom .code previous' t := by
  cases t with
  | nil => rfl
  | cons c t =>
    simp only [List.mem_cons, List.not_mem_nil, or_false, not_or] at h h'
    simp [maskFrom, Scan.step, h, h']

/-- What masking makes of a text.  It has as many bytes (`bytes`), and every character stands at its place or, if it is
strictly inside of a literal or comment, has made room for as many spaces as it has bytes (`places`).  A line feed that
is not escaped stays, it brings the scan back to code, and what follows is masked on its own (`lines`).  Masking again
changes nothing (`again`). -/
structure Masks (t m : Text) : Prop where
  bytes : Text.bytes m = Text.bytes t
  places : ∀ u c v, t = u ++ c :: v → ∃ a b, Text.bytes a = Text.bytes u ∧ Text.bytes b = Text.bytes v ∧
    m = a ++ ((if Inside u c then List.replicate c.utf8Size ' ' else [c]) ++ b)
  lines : ∀ u v, t = u ++ '\n' :: v → ¬ Escaped u →
    InCode (u ++ ['\n']) ∧ (Scan.code.through '\x00' (u ++ ['\n'])).1 = .code ∧
      m = maskLiterals u ++ '\n' :: maskLiterals v
  again : maskLiterals m = m

/-- **Masking blanks the insides of literals and comments**, byte for byte. -/
theorem maskLiterals_masks (t : Text) : Masks t (maskLiterals t) := by
  refine ⟨bytes_maskFrom _ _ t, ?_, ?_, Echo.maskFrom_eq t (.code _)⟩
  · rintro u c v rfl
    exact ⟨_, _, bytes_maskFrom _ _ u, bytes_maskFrom _ c v, maskLiterals_append u c v⟩
  · rintro u v rfl hescaped
    have hcode := inCode_line hescaped
    refine ⟨hcode, hcode.through, ?_⟩
    have hstep : ((Scan.code.through '\x00' u).1.step (lastOf u) '\n').1 = .code := by
      have hthrough := hcode.through
      rw [Scan.through_append, through_lastOf] at hthrough
      exact hthrough
    rw [maskLiterals_append, if_neg (mt Inside.escaped hescaped), hstep,
      maskFrom_code_congr (by decide) (by decide : '\x00' ∉ ['/', '#', '$'])]
    rfl

end InlineMarkup.Lowering
