import InlineMarkup.Proofs.CallReading
import InlineMarkup.Proofs.Masking
/-!
# Proofs.CallParts — what a call was made of

The way back from a reading to its text.  In a text without layout (`isPlain`) a field comes from accesses
(`fieldAccess_past`), and a call from an operand, which its name comes from, and accesses up to its arguments
(`call_parts`, `accesses_past`).
-/
namespace InlineMarkup

open Text (bytes)
open Markup Grammar

/-! ## What names and accesses were made of -/

namespace CallTarget

section Past

variable {l : Layout} {k : Look} {c c' : Cursor} {xs : List (Parse Rule)}

theorem identWord_past (hl : l ≠ .spaced) (h : Eval document DocExpr.identWord l k c (some (c', xs))) :
    ∃ u, c.Past u c' ∧ IsWord u ∧ EndsName c'.rest := by
  obtain ⟨c₁, _, _, hfirst, hmore⟩ := h.seq_tight hl
  obtain ⟨x, hx, hstart⟩ := hfirst.chars_past hl (f := isNameStart) rfl
  obtain ⟨u, hu, hall⟩ := hmore.many_past (P := fun u => ∀ y ∈ u, isNameChar y = true)
    (fun _ hy => absurd hy List.not_mem_nil) (fun u v hu hv y hy => (List.mem_append.1 hy).elim (hu y) (hv y))
    (fun _ _ _ _ _ => trivial) (fun c c' xs h _ => by
      obtain ⟨y, hy, hchar⟩ := h.chars_past hl chars_identChar
      exact ⟨[y], hy, List.forall_mem_singleton.2 hchar⟩) hl trivial
  refine ⟨x :: u, hx.trans hu, Bool.and_eq_true_iff.2 ⟨hstart, List.all_eq_true.2 hall⟩, ?_⟩
  have hnone := (hmore.many_stops hl).unique (Eval.chars hl _ chars_identChar k c')
  exact take?_eq_none.1 (Option.map_eq_none_iff.1 hnone.symm)

theorem identifier_past (h : Eval document (document.body .identifier) .token .here c (some (c', xs))) :
    ∃ u, c.Past u c' ∧ isIdentifier u = true := by
  obtain ⟨_, _, _, hnever, hword⟩ := h.seq_tight (by decide)
  cases hnever with
  | neverNone hreserved =>
    obtain ⟨u, hu, hu', hends⟩ := identWord_past (l := .token) (by decide) hword
    refine ⟨u, hu, Bool.and_eq_true_iff.2 ⟨hu', decide_eq_true fun hmem => ?_⟩⟩
    obtain ⟨v, hv, rfl⟩ := exists_reserved u hmem
    obtain ⟨off, rest⟩ := c
    obtain rfl : rest = v.toList ++ c'.rest := hu.rest
    cases hreserved.unique (wordsEnd_found (reserved_apart v hv) hv hends .never off)

theorem behind_past (hl : l ≠ .spaced) {sep : Text}
    (h : Eval document (.many (.seq (.word sep) DocExpr.identWord)) l k c (some (c', xs))) :
    ∃ ws, c.Past (behind sep ws) c' ∧ ∀ w ∈ ws, IsWord w := by
  obtain ⟨_, hpast, ws, rfl, hws⟩ := h.many_past (P := fun u => ∃ ws, u = behind sep ws ∧ ∀ w ∈ ws, IsWord w)
    ⟨[], rfl, fun _ hw => absurd hw List.not_mem_nil⟩ (by
      rintro _ _ ⟨ws, rfl, hws⟩ ⟨vs, rfl, hvs⟩
      exact ⟨ws ++ vs, List.flatMap_append.symm, fun w hw => (List.mem_append.1 hw).elim (hws w) (hvs w)⟩)
    (fun _ _ _ _ _ => trivial) (fun c c' xs h _ => by
      obtain ⟨_, _, _, hsep, hword⟩ := h.seq_tight hl
      obtain ⟨u, hu, hword, -⟩ := identWord_past hl hword
      exact ⟨sep ++ u, hsep.word_past.trans hu, [u], by simp [behind], List.forall_mem_singleton.2 hword⟩) hl trivial
  exact ⟨ws, hpast, hws⟩

/-- A qualified name is a name, but for the words that it should not begin with. -/
theorem qualifiedName_past (h : Eval document (document.body .qualifiedName) .token k c (some (c', xs))) :
    ∃ t, c.Past t c' ∧ (IsName t ∨ ∃ w ∈ ["true".toList, "false".toList, "for".toList], ∃ u, t = w ++ (':' :: u)) := by
  cases h with
  | altLeft h =>
    obtain ⟨_, _, _, hat, h⟩ := h.seq_tight (by decide)
    obtain ⟨_, _, _, hp, h⟩ := h.seq_tight (by decide)
    obtain ⟨_, _, _, hps, h⟩ := h.seq_tight (by decide)
    obtain ⟨_, _, _, hdot, h⟩ := h.seq_tight (by decide)
    obtain ⟨_, _, _, hw, hws⟩ := h.seq_tight (by decide)
    obtain ⟨p, hp, hp', -⟩ := identWord_past (by decide) hp
    obtain ⟨ps, hps, hps'⟩ := behind_past (by decide) hps
    obtain ⟨w, hw, hw', -⟩ := identWord_past (by decide) hw
    obtain ⟨ws, hws, hws'⟩ := behind_past (by decide) hws
    exact ⟨_, hat.word_past.trans (hp.trans (hps.trans (hdot.word_past.trans (hw.trans hws)))),
      .inl (.packaged (List.forall_mem_cons.2 ⟨hp', hps'⟩) (List.forall_mem_cons.2 ⟨hw', hws'⟩))⟩
  | altRight _ h =>
    obtain ⟨_, _, _, hw, h⟩ := h.seq_tight (by decide)
    obtain ⟨_, _, _, hv, hws⟩ := h.seq_tight (by decide)
    obtain ⟨_, _, _, hcolons, hv⟩ := hv.seq_tight (by decide)
    obtain ⟨w, hw, hw', -⟩ := identWord_past (by decide) hw
    obtain ⟨v, hv, hv', -⟩ := identWord_past (by decide) hv
    obtain ⟨ws, hws, hws'⟩ := behind_past (by decide) hws
    have hpast : c.Past (w ++ behind [':', ':'] (v :: ws)) c' := by
      have := hw.trans ((hcolons.word_past.trans hv).trans hws)
      simpa [behind] using this
    by_cases hfirst : w ∈ ["true".toList, "false".toList, "for".toList]
    · exact ⟨_, hpast, .inr ⟨w, hfirst, _, rfl⟩⟩
    · exact ⟨_, hpast, .inl (.qualified (List.forall_mem_cons.2 ⟨hw', List.forall_mem_cons.2 ⟨hv', hws'⟩⟩) hfirst)⟩

/-- What numbers are made of, but for the first digit: the rest of a word, and numbers behind single dots. -/
theorem numberParts_past (hl : l ≠ .spaced) (h : Eval document (.many numberPart) l k c (some (c', xs))) :
    ∃ m as, c.Past (m ++ List.flatten as) c' ∧ (∀ x ∈ m, isNameChar x = true) ∧ ∀ a ∈ as, IsAccess a := by
  -- a part is put in front of what follows it, so the invariant says what it does there
  let Q (v : Text) : Prop := ∃ m as, v = m ++ List.flatten as ∧ (∀ x ∈ m, isNameChar x = true) ∧ ∀ a ∈ as, IsAccess a
  have hchar : ∀ x v, isNameChar x = true → Q v → Q ([x] ++ v) := by
    rintro x _ hx ⟨m, as, rfl, hm, has⟩
    exact ⟨x :: m, as, rfl, List.forall_mem_cons.2 ⟨hx, hm⟩, has⟩
  have hdigit : ∀ d v, d.isDigit = true → Q v → Q (['.', d] ++ v) := by
    rintro d _ hd ⟨m, as, rfl, hm, has⟩
    have hmember : isMember (d :: m) = true := isMember_of_digit hd hm
    exact ⟨[], (['.'] ++ d :: m) :: as, rfl, fun _ h => absurd h List.not_mem_nil,
      List.forall_mem_cons.2 ⟨⟨['.'], d :: m, by decide, hmember, rfl⟩, has⟩⟩
  obtain ⟨u, hu, hQ⟩ := h.many_past (P := fun u => ∀ v, Q v → Q (u ++ v)) (fun v hv => hv)
    (fun u v hu hv w hw => by rw [List.append_assoc]; exact hu _ (hv w hw)) (fun _ _ _ _ _ => trivial)
    (fun c c' xs h _ => by
      cases h with
      | altLeft h =>
        obtain ⟨x, hx, halnum⟩ := h.chars_past hl rfl
        exact ⟨[x], hx, fun v => hchar x v (by simp [isNameChar]; exact .inl halnum)⟩
      | altRight _ h =>
        cases h with
        | altLeft h => exact ⟨['_'], h.word_past, fun v => hchar '_' v (by decide)⟩
        | altRight _ h =>
          obtain ⟨_, _, _, hdot, hd⟩ := h.seq_tight hl
          obtain ⟨d, hd, hd'⟩ := hd.chars_past hl rfl
          exact ⟨['.', d], hdot.word_past.trans hd, fun v => hdigit d v hd'⟩) hl trivial
  have hnil : Q [] := ⟨[], [], rfl, fun _ h => absurd h List.not_mem_nil, fun _ h => absurd h List.not_mem_nil⟩
  obtain ⟨m, as, hm, hall, has⟩ := hQ [] hnil
  rw [List.append_nil] at hm
  exact ⟨m, as, hm ▸ hu, hall, has⟩

end Past

/-! ## Texts without layout -/

/-- Neither blank nor a line end, and nothing that a sign or a literal in quotes begins with. -/
def isPlain (x : Char) : Bool := decide (x ∉ [' ', '\t', '\n', '\r', '-', '!', '"', '\'', '#', '$'])

theorem isPlain_ne {x y : Char} (hx : isPlain x = true) (hy : isPlain y = false) : y ≠ x := by
  rintro rfl
  rw [hx] at hy
  cases hy

theorem reads_lastComment {u : Text} (hu : ∀ x ∈ u, isPlain x = true) (off : Nat) :
    Reads document.layout .compact ⟨off, ['/', '/'] ++ u⟩ ⟨off + bytes ['/', '/'] + bytes u, []⟩
      [.node .comment ⟨off, off + bytes ['/', '/'] + bytes u⟩ []] := by
  have htight : ∀ {l} (c : Cursor), l ≠ .spaced → Skips l c c := fun _ hl => .here (.of_ne hl)
  have hline : Reads DocExpr.restOfLine .token ⟨off + bytes ['/', '/'], u ++ []⟩
      ⟨off + bytes ['/', '/'] + bytes u, []⟩ [] := by
    refine Reads.run (by decide) (fun _ => .none_at_end (by decide +kernel) (by decide) _ _ _) u _ fun off x v hv => ?_
    have hx := hu x (hv.mem List.mem_cons_self)
    have hend : Eval document DocExpr.newline .token .never ⟨off, x :: (v ++ [])⟩ none :=
      .altRight (.of_word_none (word?_of_ne (isPlain_ne hx (by decide))))
        (.altRight (.of_word_none (word?_of_ne (isPlain_ne hx (by decide))))
          (.of_word_none (word?_of_ne (isPlain_ne hx (by decide)))))
    exact (Reads.never hend).seq (htight _ (by decide)) (.char (by decide) rfl rfl)
  rw [List.append_nil] at hline
  have hcomment := Reads.rule (r := .comment) (l := .compact) (by decide) (by decide)
    ((Reads.word ['/', '/'] .token off u).seq (htight _ (by decide)) hline)
  have hblank : Reads (.many DocExpr.blank) .compact ⟨off + bytes ['/', '/'] + bytes u, []⟩
      ⟨off + bytes ['/', '/'] + bytes u, []⟩ [] := .many_none (.none_at_end (by decide +kernel) (by decide) _ _ _)
  have hcomments := Reads.many_cons (by decide) (hcomment.seq (htight _ (by decide)) hblank)
    (.many_none (.none_at_end (by decide +kernel) (by decide) _ _ _))
  exact (Reads.many_none (blank_none_iff.2 ⟨rfl, rfl⟩)).seq (htight _ (by decide)) hcomments

section Plain

variable {c c' : Cursor} {xs : List (Parse Rule)} (hc : ∀ x ∈ c.rest, isPlain x = true)

include hc

/-- In a plain text nothing is skipped, or a comment that takes all that is left. -/
theorem skip_plain (h : Eval document (document.skip .spaced) .compact .here c (some (c', xs))) :
    (c' = c ∧ xs = []) ∨ (c'.rest = [] ∧ ∃ s, Tree.namedAll xs = [.node .comment s []]) := by
  obtain ⟨off, rest⟩ := c
  by_cases hsettled : Settled ⟨off, rest⟩
  · cases h.unique (hsettled.layout .here)
    exact .inl ⟨rfl, rfl⟩
  · have hblank : ∀ y, isPlain y = false → (Cursor.mk off rest).word? [y] = none := by
      intro y hy
      cases rest with
      | nil => rfl
      | cons x rest => exact word?_of_ne (isPlain_ne (hc x List.mem_cons_self) hy)
    cases hslashes : (Cursor.mk off rest).word? ['/', '/'] with
    | none => exact absurd ⟨hblank ' ' (by decide), hblank '\t' (by decide), hslashes⟩ hsettled
    | some c₁ =>
      obtain rfl : rest = ['/', '/'] ++ c₁.rest := (Cursor.Past.word hslashes).rest
      obtain ⟨ys, heval, hys⟩ := reads_lastComment (fun x hx => hc x (List.mem_append_right _ hx)) off
      cases h.unique heval
      exact .inr ⟨rfl, _, hys⟩

/-- A part that takes something is found where it is looked for. -/
theorem skip_plain_before {p : DocExpr} (hfits : p.fits Rule.mayBeEmpty Rule.rank layoutReach depthPerCharacter = true)
    (hempty : p.mayBeEmpty Rule.mayBeEmpty = false) {m : Cursor × List (Parse Rule)}
    (h : Eval document (document.skip .spaced) .compact .here c (some (c', xs)))
    (hp : Eval document p .spaced .here c' (some m)) : c' = c ∧ xs = [] := by
  rcases skip_plain hc h with h | ⟨hend, -⟩
  · exact h
  · obtain ⟨off, rest⟩ := c'
    obtain rfl : rest = [] := hend
    cases hp.unique (.none_at_end hfits hempty _ _ _)

theorem plain_past {u : Text} (h : c.Past u c') : ∀ x ∈ c'.rest, isPlain x = true := by
  intro x hx
  refine hc x ?_
  rw [h.rest]
  exact List.mem_append_right u hx

theorem word_plain {y : Char} {w : Text} {l : Layout} {k : Look} (hy : isPlain y = false) :
    ¬ Eval document (.word (y :: w)) l k c (some (c', xs)) := by
  intro h
  have hmem : y ∈ c.rest := by
    rw [h.word_past.rest]
    exact List.mem_append_left _ List.mem_cons_self
  exact isPlain_ne (hc y hmem) hy rfl

theorem prefixOp_plain : ¬ Eval document (.rule .prefixOp) .spaced .here c (some (c', xs)) := by
  intro h
  obtain ⟨_, -, hbody⟩ := h.rule_parts (by decide) (by decide)
  cases hbody with
  | altLeft hbody =>
    obtain ⟨_, _, _, hsign, -⟩ := hbody.seq_tight (l := .token) (by decide)
    exact word_plain hc (by decide) hsign
  | altRight _ hbody =>
    obtain ⟨_, _, _, hsign, -⟩ := hbody.seq_tight (l := .token) (by decide)
    exact word_plain hc (by decide) hsign

/-- **A literal of a plain text** is a member, perhaps with accesses behind it. -/
theorem literal_past (h : Eval document (.rule .literal) .spaced .here c (some (c', xs))) :
    ∃ m as, c.Past (m ++ List.flatten as) c' ∧ isMember m = true ∧ ∀ a ∈ as, IsAccess a := by
  obtain ⟨_, -, hbody⟩ := h.rule_parts (by decide) (by decide)
  obtain ⟨e, he, hliteral⟩ := hbody.alts_some
  simp only [List.mem_cons, List.not_mem_nil, or_false] at he
  rcases he with rfl | rfl | rfl | rfl | rfl
  · obtain ⟨_, _, _, hline, -⟩ := hliteral.seq_tight (l := .token) (by decide)
    obtain ⟨_, _, _, hmark, -⟩ := hline.seq_tight (l := .token) (by decide)
    cases hmark with
    | altLeft hmark => exact absurd hmark (word_plain hc (by decide))
    | altRight _ hmark => exact absurd hmark (word_plain hc (by decide))
  · obtain ⟨_, _, _, hquote, -⟩ := hliteral.seq_tight (l := .token) (by decide)
    exact absurd hquote (word_plain hc (by decide))
  · obtain ⟨_, _, _, hquote, -⟩ := hliteral.seq_tight (l := .token) (by decide)
    exact absurd hquote (word_plain hc (by decide))
  · obtain ⟨_, _, _, hfirst, hmore⟩ := hliteral.seq_tight (l := .token) (by decide)
    obtain ⟨d, hd, hd'⟩ := hfirst.chars_past (l := .token) (by decide) rfl
    obtain ⟨m, as, hpast, hm, has⟩ := numberParts_past (l := .token) (by decide) hmore
    exact ⟨d :: m, as, hd.trans hpast, isMember_of_digit hd' hm, has⟩
  · obtain ⟨_, _, _, hwords, hend⟩ := hliteral.seq_tight (l := .token) (by decide)
    obtain ⟨v, hv, hpast⟩ := words_some hwords
    cases hend with
    | neverNone =>
      refine ⟨v.toList, [], by simpa using Cursor.Past.word hpast, ?_, fun _ h => absurd h List.not_mem_nil⟩
      exact (by decide : ∀ v ∈ ["true", "false"], isMember v.toList = true) v hv

/-- **A field of a plain text** is an access, or several. -/
theorem fieldAccess_past (h : Eval document (document.body .fieldAccess) .spaced .here c (some (c', xs))) :
    ∃ as, c.Past (List.flatten as) c' ∧ ∀ a ∈ as, IsAccess a := by
  obtain ⟨c₁, _, c₂, _, _, hdot, hskip, hmember, -⟩ := h.seq_parts
  have hdots : ∃ dots ∈ [['.'], ['.', '.']], c.Past dots c₁ := by
    obtain ⟨_, -, hbody⟩ := hdot.rule_parts (by decide) (by decide)
    cases hbody with
    | altLeft hbody =>
      obtain ⟨_, _, _, hword, hnever⟩ := hbody.seq_tight (l := .token) (by decide)
      cases hnever with
      | neverNone => exact ⟨['.', '.'], by decide, hword.word_past⟩
    | altRight _ hbody =>
      obtain ⟨_, _, _, hword, hnever⟩ := hbody.seq_tight (l := .token) (by decide)
      cases hnever with
      | neverNone => exact ⟨['.'], by decide, hword.word_past⟩
  obtain ⟨dots, hdots, hpast⟩ := hdots
  have hc₁ := plain_past hc hpast
  obtain ⟨rfl, -⟩ := skip_plain_before hc₁ (by decide +kernel) (by decide) hskip hmember
  cases hmember with
  | altLeft hname =>
    obtain ⟨_, -, hbody⟩ := hname.rule_parts (by decide) (by decide)
    obtain ⟨u, hu, hname⟩ := identifier_past hbody
    refine ⟨[dots ++ u], by simpa using hpast.trans hu, List.forall_mem_singleton.2 ⟨dots, u, hdots, ?_, rfl⟩⟩
    exact isMember_of_isIdentifier hname
  | altRight _ hliteral =>
    obtain ⟨m, as, hm, hmember, has⟩ := literal_past hc₁ hliteral
    exact ⟨(dots ++ m) :: as, by simpa using hpast.trans hm, List.forall_mem_cons.2 ⟨⟨dots, m, hdots, hmember, rfl⟩, has⟩⟩

end Plain

/-! ## The parts of a call -/

theorem namedAll_node {r : Rule} {k : Kind} (hk : Kind.ofRule? r = some k) (start stop : Nat) (inner : List (Parse Rule)) :
    Tree.namedAll [.node r start stop inner] = [.node k ⟨start, stop⟩ (if k.isLeaf then [] else Tree.namedAll inner)] := by
  simp [Tree.namedAll, Tree.named, hk]

/-- A rule that only chooses between others leaves what the chosen one does. -/
theorem choice_parts {q : Rule} (r : Rule) (rs : List Rule) (hq : document.style q = .silent)
    (hbody : document.body q = DocExpr.alts (.rule r) (rs.map .rule)) (hrs : ∀ p ∈ r :: rs, document.style p ≠ .silent)
    {c c' : Cursor} {xs : List (Parse Rule)} (h : Eval document (.rule q) .spaced .here c (some (c', xs))) :
    ∃ p ∈ r :: rs, ∃ inner, xs = [.node p c.offset c'.offset inner] ∧
      Eval document (document.body p) ((document.style p).inside .spaced) .here c (some (c', inner)) := by
  generalize ho : some (c', xs) = o at h
  cases h with
  | node hs => exact absurd hq hs
  | silent _ h =>
    subst ho
    rw [hbody] at h
    obtain ⟨e, he, h⟩ := h.alts_some
    obtain ⟨p, hp, rfl⟩ := List.mem_map.1 (show e ∈ (r :: rs).map Expr.rule from he)
    obtain ⟨inner, hxs, hinner⟩ := h.rule_parts (hrs p hp) (by decide)
    exact ⟨p, hp, inner, hxs, hinner⟩

/-- **Fields with one more tree behind them** come from accesses up to the place of that tree. -/
theorem accesses_past {c c' : Cursor} {xs : List (Parse Rule)} {fields : List Tree} {last : Tree}
    (h : Eval document (.more (.rule .postfixOp)) .spaced .here c (some (c', xs)))
    (hc : ∀ x ∈ c.rest, isPlain x = true) (hxs : Tree.namedAll xs = fields ++ [last])
    (hfields : ∀ f ∈ fields, Tree.kind f = .fieldAccess) :
    ∃ as c₁, c.Past (List.flatten as) c₁ ∧ c₁.offset = last.span.start ∧ ∀ a ∈ as, IsAccess a := by
  generalize he : Expr.more (Expr.rule Rule.postfixOp) = e at h
  generalize ho : some (c', xs) = o at h
  generalize hl : Layout.spaced = l at h
  generalize hk : Look.here = k at h
  induction h generalizing xs fields with
  | moreStuck => cases ho; cases fields <;> cases hxs
  | moreNone => cases ho; cases fields <;> cases hxs
  | moreSome hs hp hm _ _ ih =>
    cases he
    cases ho
    subst hl hk
    obtain ⟨rfl, rfl⟩ := skip_plain_before hc (by decide +kernel) (by decide) hs hp
    obtain ⟨r, hr, inner, rfl, hbody⟩ :=
      choice_parts .callArgs [.indexAccess, .recordSuffix, .fieldAccess, .tryOp] rfl rfl (by decide) hp
    have hkinds : ∀ r ∈ [Rule.callArgs, .indexAccess, .recordSuffix, .fieldAccess, .tryOp],
        (Kind.ofRule? r).isSome = true ∧ (Kind.ofRule? r = some .fieldAccess → r = .fieldAccess) := by decide
    obtain ⟨hsome, hfield⟩ := hkinds r hr
    obtain ⟨k, hk⟩ := Option.isSome_iff_exists.1 hsome
    rw [List.nil_append, Tree.namedAll_append, namedAll_node hk] at hxs
    cases fields with
    | nil =>
      obtain ⟨rfl, -⟩ := List.cons.inj hxs
      exact ⟨[], _, .refl _, rfl, fun _ h => absurd h List.not_mem_nil⟩
    | cons f fields =>
      obtain ⟨hfk, hothers⟩ := List.forall_mem_cons.1 hfields
      obtain ⟨rfl, htail⟩ := List.cons.inj hxs
      obtain rfl : k = .fieldAccess := hfk
      obtain rfl := hfield hk
      obtain ⟨as, hpast, has⟩ := fieldAccess_past hc hbody
      obtain ⟨bs, c₁, hpast', hlast, hbs⟩ := ih (plain_past hc hpast) htail hothers rfl rfl rfl rfl
      exact ⟨as ++ bs, c₁, by rw [List.flatten_append]; exact hpast.trans hpast', hlast,
        fun a ha => (List.mem_append.1 ha).elim (has a) (hbs a)⟩
  | _ => cases he

/-- The choices for an operand but the first. -/
def primaryRules : List Rule :=
  .literal :: keywordRules ++ .arrowFn :: bracketRules ++ [.qualifiedName, .identifier]

/-- **The parts of a call**: the rule that its name comes from, and what stands behind the name. -/
theorem call_parts {t : Text} (ht : ∀ x ∈ t, isPlain x = true) {c' : Cursor} {s₁ s₂ s₃ : Span} {name last : Tree}
    {fields : List Tree} (hlast : last.kind ≠ .comment)
    (h : Reads (.rule .expression) .spaced ⟨0, t⟩ c'
      [.node .expression s₁ [.node .unary s₂ [.node .postfixed s₃ (name :: (fields ++ [last]))]]]) :
    ∃ r c₁ inner, Kind.ofRule? r = some name.kind ∧
      Eval document (.rule .primary) .spaced .here ⟨0, t⟩ (some (c₁, [.node r 0 c₁.offset inner])) ∧
      Eval document (document.body r) ((document.style r).inside .spaced) .here ⟨0, t⟩ (some (c₁, inner)) ∧
      ∃ c₂ xs, Eval document (.more (.rule .postfixOp)) .spaced .here c₁ (some (c₂, xs)) ∧
        Tree.namedAll xs = fields ++ [last] := by
  obtain ⟨ps, heval, hps⟩ := h
  -- the expression begins with an operand
  obtain ⟨_, rfl, hexpression⟩ := heval.rule_parts (by decide) (by decide)
  rw [namedAll_node (k := .expression) rfl] at hps
  obtain ⟨_, _, _, _, _, hunary, -, -, rfl⟩ := hexpression.seq_parts
  obtain ⟨_, rfl, hoperand⟩ := hunary.rule_parts (by decide) (by decide)
  rw [Tree.namedAll_append, namedAll_node (k := .unary) rfl] at hps
  injection (List.cons.inj hps).1 with _ _ hinner
  injection (List.cons.inj hinner).1 with _ _ hunder
  -- which has no sign before it
  obtain ⟨_, _, _, _, _, hsigns, hskip, hpostfixed, rfl⟩ := hoperand.seq_parts
  cases hsigns with
  | manySome hsign => exact absurd hsign (prefixOp_plain ht)
  | manyNone =>
    obtain ⟨rfl, rfl⟩ := skip_plain_before ht (by decide +kernel) (by decide) hskip hpostfixed
    obtain ⟨_, rfl, hparts⟩ := hpostfixed.rule_parts (by decide) (by decide)
    rw [List.nil_append, List.nil_append, namedAll_node (k := .postfixed) rfl] at hunder
    injection (List.cons.inj hunder).1 with _ _ htrees
    -- and begins with the name
    obtain ⟨c₁, _, _, _, _, hprimary, hskip, hmany, rfl⟩ := hparts.seq_parts
    obtain ⟨r, hr, inner, rfl, hname⟩ := choice_parts .element primaryRules rfl rfl (by decide) hprimary
    have hkinds : ∀ r ∈ .element :: primaryRules, (Kind.ofRule? r).isSome = true := by decide
    obtain ⟨k, hk⟩ := Option.isSome_iff_exists.1 (hkinds r hr)
    rw [Tree.namedAll_append, namedAll_node hk] at htrees
    obtain ⟨rfl, hrest⟩ := List.cons.inj htrees
    refine ⟨r, c₁, inner, hk, hprimary, hname, ?_⟩
    cases hmany with
    | manySome hp hm => exact ⟨_, _, .moreSome hskip hp hm, hrest⟩
    | manyNone =>
      obtain ⟨u, hu, -⟩ := hprimary.past document_bounded.empty _ rfl
      rw [List.append_nil] at hrest
      rcases skip_plain (plain_past ht hu) hskip with ⟨-, rfl⟩ | ⟨-, s, hcomment⟩
      · cases fields <;> cases hrest
      · rw [hcomment] at hrest
        obtain rfl : last = .node .comment s [] := by
          cases fields with
          | nil => exact (List.cons.inj hrest).1.symm
          | cons f fields => cases fields <;> cases (List.cons.inj hrest).2
        exact absurd rfl hlast

end CallTarget
end InlineMarkup
