import InlineMarkup.Proofs.CallParts
import InlineMarkup.Proofs.Relocation
import InlineMarkup.Settings
/-!
# Proofs.CallTargets — which builders can be called

The check of the settings accepts every builder that consists of certain characters.  With arguments behind it, such a
text is read as a call of itself exactly if it is a call target (`checked_builders_call`).  One that begins a comment is
accepted as well (`checked_accepts_comment`).
-/
namespace InlineMarkup

open Text (bytes)
open Markup Grammar CallTarget

/-! ## Reading a text in full -/

/-- The trees that reading the whole of a text by a rule leaves. -/
def Grammar.readInFull? (r : Rule) (t : Text) : Option (List Tree) :=
  ((run document (depthPerCharacter * (t.length + 1)) (.rule r) .spaced .here ⟨0, t⟩ {}).result?.join.filter
    (·.1.rest.isEmpty)).map (Tree.namedAll ·.2)

theorem Grammar.readInFull?_eq_some {r : Rule}
    (hreach : (Expr.rule r).reach Rule.mayBeEmpty Rule.rank layoutReach ≤ depthPerCharacter) {t : Text} {ts : List Tree} :
    readInFull? r t = some ts ↔ Reads (.rule r) .spaced ⟨0, t⟩ ⟨bytes t, []⟩ ts := by
  constructor
  · intro h
    obtain ⟨⟨c', ps⟩, hm, rfl⟩ := Option.map_eq_some_iff.1 h
    obtain ⟨hjoin, hend⟩ := Option.filter_eq_some_iff.1 hm
    have heval := eval_of_run document _ _ _ _ _ _ _ (Option.join_eq_some_iff.1 hjoin)
    obtain ⟨u, hu, -⟩ := heval.past document_bounded.empty _ rfl
    obtain ⟨off, rest⟩ := c'
    obtain rfl : rest = [] := List.isEmpty_iff.1 hend
    have hrest := hu.rest
    have hoff := hu.offset
    simp only [List.append_nil, Nat.zero_add] at hrest hoff
    subst hrest hoff
    exact ⟨ps, heval, rfl⟩
  · rintro ⟨ps, heval, rfl⟩
    have hrun := run_of_eval heval (room_of_fits rfl hreach .spaced .here ⟨0, t⟩) {}
    rw [readInFull?, hrun]
    rfl

/-- The text is a list of arguments between brackets. -/
def IsArguments (args : Text) : Prop := (readInFull? .callArgs args).isSome = true

/-- The text is read, with these arguments behind it, as one call of itself: a name that it begins with, fields, and
the arguments. -/
def ReadsCall (s args : Text) : Prop :=
  ∃ name fields below, Tree.kind name ∈ [Kind.identifier, .qualifiedName] ∧ (∀ f ∈ fields, Tree.kind f = .fieldAccess) ∧
    readInFull? .expression (s ++ args) = some
      [.node .expression ⟨0, bytes (s ++ args)⟩ [.node .unary ⟨0, bytes (s ++ args)⟩
        [.node .postfixed ⟨0, bytes (s ++ args)⟩
          (name :: (fields ++ [.node .callArgs ⟨bytes s, bytes (s ++ args)⟩ below]))]]]

theorem IsArguments.reads {args : Text} (h : IsArguments args) : ∃ rest, args = '(' :: rest ∧
    ∀ off, ∃ below, Reads (.rule .callArgs) .spaced ⟨off, args⟩ ⟨off + bytes args, []⟩
      [.node .callArgs ⟨off, off + bytes args⟩ below] := by
  obtain ⟨ts, hts⟩ := Option.isSome_iff_exists.1 h
  obtain ⟨ps, heval, -⟩ := (readInFull?_eq_some (by decide +kernel)).1 hts
  obtain ⟨inner, -, hbody⟩ := heval.rule_parts (by decide) (by decide)
  obtain ⟨c₁, _, _, _, _, hopen, -⟩ := hbody.seq_parts
  refine ⟨c₁.rest, hopen.word_past.rest, fun off => ?_⟩
  have hplace : (Cursor.mk 0 args).shift off = ⟨off, args⟩ := by simp [Cursor.shift]
  have hend : (Cursor.mk (bytes args) []).shift off = ⟨off + bytes args, []⟩ := by simp [Cursor.shift, Nat.add_comm]
  have hshift : Eval document (.rule .callArgs) .spaced .here ⟨off, args⟩
      (some (⟨off + bytes args, []⟩, Parse.shiftAll off ps)) := by
    rw [← hplace, ← hend]
    exact heval.shift off rfl
  obtain ⟨inner, htrees, -⟩ := hshift.rule_parts (by decide) (by decide)
  refine ⟨Tree.namedAll inner, _, hshift, ?_⟩
  rw [htrees]
  rfl

/-! ## Words that a qualified name should not begin with -/

namespace CallTarget

/-- The characters that a builder may hold. -/
def isTargetChar (x : Char) : Bool := isNameChar x || x == '.' || x == ':' || x == '/'

theorem isPlain_of_isTargetChar {x : Char} (hx : isTargetChar x = true) : isPlain x = true := by
  refine decide_eq_true fun h => ?_
  simp only [List.mem_cons, List.not_mem_nil, or_false] at h
  rcases h with rfl | rfl | rfl | rfl | rfl | rfl | rfl | rfl | rfl | rfl <;> cases hx

/-- Arguments with brackets in markup, where the head of a loop would end. -/
def loopArguments : Text := "(<a>)\x7b\x7d</a>)".toList

/-- A part of the head of a loop. -/
def headPart : DocExpr :=
  .alt (.rule .rawParen) (.alt (.rule .rawBracket) (.alt DocExpr.stringLiteral
    (DocExpr.charBut (.alt (DocExpr.word "\x7b") DocExpr.newline))))

theorem reads_headPart {x : Char} (hx : isTargetChar x = true) (off : Nat) (rest : Text) :
    Reads headPart .token ⟨off, x :: rest⟩ ⟨off + x.utf8Size, rest⟩ [] := by
  have hother : ∀ {y w} {k : Look}, isTargetChar y = false →
      Eval document (.word (y :: w)) .token k ⟨off, x :: rest⟩ none := by
    intro y w k hy
    refine .of_word_none (word?_of_ne ?_)
    rintro rfl
    rw [hx] at hy
    cases hy
  have hstop : Eval document (.alt (DocExpr.word "\x7b") DocExpr.newline) .token .never ⟨off, x :: rest⟩ none :=
    .altRight (hother (by decide)) (.altRight (hother (by decide)) (.altRight (hother (by decide)) (hother (by decide))))
  exact .right (.rule_none (.seqFail (hother (by decide)))) (.right (.rule_none (.seqFail (hother (by decide))))
    (.right (.seqFail (hother (by decide)))
      ((Reads.never hstop).seq (.here (.of_ne (by decide))) (.char (by decide) rfl rfl))))

/-- What a run finds at the beginning is found further on. -/
theorem reads_further {e : DocExpr} (he : e.anywhere Rule.anywhere = true) {l : Layout} {t rest : Text} {n m : Nat}
    (h : (run document n e l .here ⟨0, t⟩ {}).result?.join.map (·.1) = some ⟨m, rest⟩) (off : Nat) :
    ∃ ts, Reads e l ⟨off, t⟩ ⟨off + m, rest⟩ ts := by
  obtain ⟨⟨_, ps⟩, hjoin, rfl⟩ := Option.map_eq_some_iff.1 h
  have heval := (eval_of_run document _ _ _ _ _ _ _ (Option.join_eq_some_iff.1 hjoin)).shift off he
  have hplace : (Cursor.mk 0 t).shift off = ⟨off, t⟩ := by simp [Cursor.shift]
  have hend : (Cursor.mk m rest).shift off = ⟨off + m, rest⟩ := by simp [Cursor.shift, Nat.add_comm]
  rw [hplace] at heval
  exact ⟨_, Parse.shiftAll off ps, hend ▸ heval, rfl⟩

/-- **The head of a loop runs on over the name and into the arguments.** -/
theorem reads_loop {u : Text} (hu : ∀ x ∈ u, isTargetChar x = true) : ∃ c below,
    Reads (.rule .primary) .spaced ⟨0, "for".toList ++ ':' :: (u ++ loopArguments)⟩ c
      [.node .forExpr ⟨0, c.offset⟩ below] := by
  have hcolon : EndsName (':' :: (u ++ loopArguments)) := .of_char (by decide)
  have hfor : IsWord "for".toList := by decide
  obtain ⟨ts, hrest⟩ : ∃ ts, Reads (.many headPart) .token ⟨3 + ':'.utf8Size + bytes u, loopArguments⟩
      ⟨3 + ':'.utf8Size + bytes u + 5, "\x7b\x7d</a>)".toList⟩ ts :=
    reads_further (n := 100) (by decide) (by decide +kernel) _
  -- the head takes the colon, the name and the arguments up to the braces, which are the loop's block
  have hhead := Reads.rule (r := .forHead) (l := .spaced) (by decide) (by decide)
    ((reads_headPart (by decide) 3 (u ++ loopArguments)).seq (.here (.of_ne (by decide)))
      (Reads.run_append (by decide) u _ (fun _ x _ hv => reads_headPart (hu x (hv.mem List.mem_cons_self)) _ _) hrest))
  obtain ⟨us, hblock⟩ : ∃ us, Reads (.seq (.rule .block) (.opt (.seq (DocExpr.keyword .else) (.rule .block)))) .spaced
      ⟨3 + ':'.utf8Size + bytes u + 5, "\x7b\x7d</a>)".toList⟩ ⟨3 + ':'.utf8Size + bytes u + 5 + 2, "</a>)".toList⟩ us :=
    reads_further (n := 200) (by decide) (by decide +kernel) _
  have hloop := Reads.rule (r := .forExpr) (l := .spaced) (by decide) (by decide)
    ((reads_keyword .for (l := .spaced) (by decide) hcolon 0).seq (.settled (.of_char (by decide)))
      (hhead.seq (.settled (.of_char (by decide))) hblock))
  refine ⟨_, _, .silent rfl (Reads.alts [.rule .element, .rule .literal, .rule .ifExpr, .rule .matchExpr] rfl ?_ hloop)⟩
  intro e he
  simp only [List.mem_cons, List.not_mem_nil, or_false] at he
  rcases he with rfl | rfl | rfl | rfl
  · exact at_word hfor (by decide)
  · exact literal_none hfor (by decide) hcolon
  · exact .rule_none (.seqFail (keyword_none hfor .if (by decide) hcolon))
  · exact .rule_none (.seqFail (keyword_none hfor .match (by decide) hcolon))

end CallTarget

/-! ## Calls that are none -/

/-- Another reading of the operand that a call begins with is a reading of its name. -/
theorem ReadsCall.kind_mem {s args : Text} (h : ReadsCall s args) (ht : ∀ x ∈ s ++ args, isPlain x = true) {c : Cursor}
    {k : Kind} {span : Span} {below : List Tree}
    (hprimary : Reads (.rule .primary) .spaced ⟨0, s ++ args⟩ c [.node k span below]) :
    k ∈ [Kind.identifier, .qualifiedName] := by
  obtain ⟨name, fields, _, hname, -, hread⟩ := h
  obtain ⟨r, c₁, inner, hk, heval, -⟩ :=
    call_parts ht (fun h => by cases h) ((readInFull?_eq_some (by decide +kernel)).1 hread)
  obtain ⟨ps, heval', hps⟩ := hprimary
  cases heval'.unique heval
  rw [namedAll_node hk] at hps
  injection (List.cons.inj hps).1 with hkind
  rw [← hkind]
  exact hname

/-- **No call begins with a word that is read for itself before colons.** -/
theorem ReadsCall.not_reserved {w u : Text} (hw : w ∈ ["true".toList, "false".toList, "for".toList])
    (hu : ∀ x ∈ u, isTargetChar x = true) : ¬ ReadsCall (w ++ ':' :: u) loopArguments := by
  intro h
  have ht : ∀ x ∈ (w ++ ':' :: u) ++ loopArguments, isPlain x = true := by
    have hword : ∀ w ∈ ["true".toList, "false".toList, "for".toList], ∀ x ∈ w, isPlain x = true := by decide
    have hargs : ∀ x ∈ loopArguments, isPlain x = true := by decide
    intro x hx
    simp only [List.mem_append, List.mem_cons] at hx
    rcases hx with (hx | rfl | hx) | hx
    · exact hword w hw x hx
    · decide
    · exact isPlain_of_isTargetChar (hu x hx)
    · exact hargs x hx
  -- the operand is a loop or a literal, and the name of a call would be another reading of it
  have hkind : ∃ c k span below, k ∉ [Kind.identifier, .qualifiedName] ∧
      Reads (.rule .primary) .spaced ⟨0, (w ++ ':' :: u) ++ loopArguments⟩ c [.node k span below] := by
    rw [List.append_assoc, List.cons_append]
    by_cases hfor : w = "for".toList
    · obtain ⟨c, below, hloop⟩ := reads_loop hu
      exact ⟨c, _, _, below, by decide, hfor ▸ hloop⟩
    · obtain ⟨v, hv, rfl⟩ : ∃ v ∈ ["true", "false"], v.toList = w := by
        simp only [List.mem_cons, List.not_mem_nil, or_false] at hw ⊢
        rcases hw with rfl | rfl | rfl
        · exact ⟨"true", .inl rfl, rfl⟩
        · exact ⟨"false", .inr rfl, rfl⟩
        · exact absurd rfl hfor
      have hword : IsWord v.toList := (by decide : ∀ v ∈ ["true", "false"], IsWord v.toList) v hv
      have hcolon : EndsName (':' :: (u ++ loopArguments)) := .of_char (by decide)
      have hvalue := reads_truthValue hv hcolon 0
      exact ⟨_, _, _, _, by decide, .silent rfl (Reads.alts [.rule .element] rfl
        (List.forall_mem_singleton.2 (at_word hword (by decide))) hvalue)⟩
  obtain ⟨c, k, span, below, hk, hprimary⟩ := hkind
  exact hk (h.kind_mem ht hprimary)

/-- **What is read as a call is a call target.** -/
theorem ReadsCall.isCallTarget {s : Text} (hs : ∀ x ∈ s, isPlain x = true) (htail : ∀ x ∈ s.tail, isTargetChar x = true)
    (h : ReadsCall s ['(', ')']) (hloop : ReadsCall s loopArguments) : IsCallTarget s := by
  obtain ⟨name, fields, below, hname, hfields, hread⟩ := h
  have ht : ∀ x ∈ s ++ ['(', ')'], isPlain x = true := by
    intro x hx
    rcases List.mem_append.1 hx with hx | hx
    · exact hs x hx
    · exact (by decide : ∀ x ∈ ['(', ')'], isPlain x = true) x hx
  obtain ⟨r, c₁, inner, hk, heval, hbody, _, xs, hmore, hxs⟩ :=
    call_parts ht (fun h => by cases h) ((readInFull?_eq_some (by decide +kernel)).1 hread)
  obtain ⟨t, ht', ht''⟩ : ∃ t, (Cursor.mk 0 (s ++ ['(', ')'])).Past t c₁ ∧ (IsName t ∨
      ∃ w ∈ ["true".toList, "false".toList, "for".toList], ∃ u, t = w ++ (':' :: u)) := by
    have hrules : ∀ r ∈ Rule.all, ∀ k ∈ [Kind.identifier, .qualifiedName], Kind.ofRule? r = some k →
        r = .identifier ∨ r = .qualifiedName := by decide
    rcases hrules r r.mem_all _ hname hk with rfl | rfl
    · obtain ⟨u, hu, hname⟩ := identifier_past hbody
      exact ⟨u, hu, .inl (.plain hname)⟩
    · exact qualifiedName_past hbody
  obtain ⟨as, c₂, hpast, hoffset, has⟩ := accesses_past hmore (plain_past ht ht') hxs hfields
  -- the arguments begin behind the text, so the name and the accesses are all of it
  have hwhole := ht'.trans hpast
  have hbytes : bytes s = bytes (t ++ as.flatten) := (hoffset.symm.trans hwhole.offset).trans (Nat.zero_add _)
  obtain ⟨rfl, -⟩ := Text.append_inj_bytes hwhole.rest hbytes
  rcases ht'' with hname | ⟨w, hw, u, rfl⟩
  · exact ⟨t, as, hname, has, rfl⟩
  -- only behind these words do the first arguments not tell, and the others do
  · rw [List.append_assoc, List.cons_append] at hloop htail
    refine absurd hloop (not_reserved hw fun x hx => htail x ?_)
    have hne : w ≠ [] := (by decide : ∀ w ∈ ["true".toList, "false".toList, "for".toList], w ≠ []) w hw
    rw [List.tail_append_of_ne_nil hne]
    exact List.mem_append_right _ (List.mem_cons_of_mem _ hx)

/-! ## Slashes in call targets -/

namespace CallTarget

/-- Behind every slash a name goes on. -/
def SlashesLead (t : Text) : Prop := ∀ pre post, t = pre ++ '/' :: post → ∃ x v, post = x :: v ∧ isNameChar x = true

theorem SlashesLead.append {t u : Text} (ht : SlashesLead t) (hu : SlashesLead u) : SlashesLead (t ++ u) := by
  intro pre post h
  rcases List.append_eq_append_iff.1 h with ⟨v, -, hv⟩ | ⟨v, hv, hpost⟩
  · exact hu v post hv
  · cases v with
    | nil => exact hu [] post hpost.symm
    | cons y v =>
      obtain ⟨rfl, rfl⟩ := List.cons.inj hpost
      obtain ⟨x, w, rfl, hx⟩ := ht pre v hv
      exact ⟨x, w ++ u, rfl, hx⟩

theorem SlashesLead.of_notMem {t : Text} (h : '/' ∉ t) : SlashesLead t := by
  rintro pre post rfl
  exact absurd (List.mem_append_right pre List.mem_cons_self) h

theorem SlashesLead.word {w : Text} (h : ∀ x ∈ w, isNameChar x = true) : SlashesLead w :=
  .of_notMem fun hmem => by cases h '/' hmem

theorem SlashesLead.package {w : Text} (h : IsWord w) : SlashesLead (['/'] ++ w) := by
  intro pre post heq
  cases pre with
  | nil =>
    obtain ⟨x, v, rfl, hx⟩ := isWord_head h
    exact ⟨x, v, (List.cons.inj heq).2.symm, isNameChar_of_isNameStart hx⟩
  | cons y pre => exact SlashesLead.word (isWord_chars h) pre post (List.cons.inj heq).2

theorem SlashesLead.flatten : ∀ {ts : List Text}, (∀ t ∈ ts, SlashesLead t) → SlashesLead ts.flatten
  | [], _ => .of_notMem List.not_mem_nil
  | t :: ts, h => by
    obtain ⟨ht, hts⟩ := List.forall_mem_cons.1 h
    exact ht.append (flatten hts)

theorem SlashesLead.behind {sep : Text} {ws : List Text} (h : ∀ w ∈ ws, SlashesLead (sep ++ w)) :
    SlashesLead (behind sep ws) := by
  rw [CallTarget.behind, List.flatMap_def]
  refine .flatten fun t ht => ?_
  obtain ⟨w, hw, rfl⟩ := List.mem_map.1 ht
  exact h w hw

theorem SlashesLead.colons {ws : List Text} (h : ∀ w ∈ ws, IsWord w) : SlashesLead (CallTarget.behind [':', ':'] ws) :=
  .behind fun w hw => .append (.of_notMem (by decide)) (.word (isWord_chars (h w hw)))

theorem IsName.slashesLead {t : Text} (h : IsName t) : SlashesLead t := by
  cases h with
  | plain hw => exact .word (isWord_chars (Identifier.word ⟨_, hw⟩))
  | qualified hws =>
    obtain ⟨hw, hws⟩ := List.forall_mem_cons.1 hws
    exact .append (.word (isWord_chars hw)) (.colons hws)
  | packaged hps hws =>
    obtain ⟨hp, hps⟩ := List.forall_mem_cons.1 hps
    obtain ⟨hw, hws⟩ := List.forall_mem_cons.1 hws
    exact .append (.of_notMem (by decide)) (.append (.word (isWord_chars hp))
      (.append (.behind fun w hw => .package (hps w hw))
        (.append (.of_notMem (by decide)) (.append (.word (isWord_chars hw)) (.colons hws)))))

end CallTarget

/-- **No comment begins in a call target.** -/
theorem IsCallTarget.no_comment {s : Text} (h : IsCallTarget s) : ¬ ['/', '/'] <:+: s := by
  obtain ⟨name, as, hname, has, rfl⟩ := h
  have hslashes : SlashesLead (name ++ as.flatten) := by
    refine hname.slashesLead.append (.flatten fun a ha => ?_)
    obtain ⟨dots, m, hdots, hm, rfl⟩ := has a ha
    have hdots : '/' ∉ dots := (by decide : ∀ dots ∈ [['.'], ['.', '.']], '/' ∉ dots) dots hdots
    obtain ⟨x, v, rfl, hx, hv⟩ := isMember_head hm
    exact .append (.of_notMem hdots) (.word (List.forall_mem_cons.2 ⟨hx, hv⟩))
  rintro ⟨pre, post, heq⟩
  obtain ⟨x, v, hv, hx⟩ := hslashes pre ('/' :: post) (by rw [← heq]; simp)
  obtain ⟨rfl, -⟩ := List.cons.inj hv
  cases hx

/-! ## Builders -/

namespace Settings

theorem isCallable_chars {s : Text} (h : isCallable s = true) :
    (∀ x ∈ s, isPlain x = true) ∧ ∀ x ∈ s.tail, isTargetChar x = true := by
  have hall : ∀ {c : Char} {r : Text}, (!c.isDigit && (c :: r).all isTargetChar) = true →
      ∀ x ∈ c :: r, isTargetChar x = true := fun h => List.all_eq_true.1 (Bool.and_eq_true_iff.1 h).2
  cases s with
  | nil => cases h
  | cons c r =>
    by_cases hpackage : c = '@'
    · subst hpackage
      cases r with
      | nil => cases h
      | cons d r =>
        have hr := hall h
        exact ⟨List.forall_mem_cons.2 ⟨by decide, fun x hx => isPlain_of_isTargetChar (hr x hx)⟩, hr⟩
    · have hs : ∀ x ∈ c :: r, isTargetChar x = true := by
        unfold isCallable at h
        split at h
        · next heq => exact absurd (List.cons.inj heq).1 hpackage
        · exact hall h
      exact ⟨fun x hx => isPlain_of_isTargetChar (hs x hx), (List.forall_mem_cons.1 hs).2⟩

theorem isCallable_of_checked {st st' : Settings} (h : st.checked = .ok st') {s : Text}
    (hs : s ∈ [st'.builders.element, st'.builders.attr, st'.builders.text]) : isCallable s = true := by
  unfold checked at h
  split at h
  · cases h
  · next hnone =>
    obtain ⟨helement, hattr, htext⟩ : isCallable st.builders.element = true ∧ isCallable st.builders.attr = true ∧
        isCallable st.builders.text = true := by simpa [uncallable?] using hnone
    have hbuilders : st'.builders = st.builders := by
      dsimp only at h
      split at h
      · cases h
      · split at h
        · cases h
        · split at h
          · cases h
          · cases h
            rfl
    rw [hbuilders] at hs
    simp only [List.mem_cons, List.not_mem_nil, or_false] at hs
    rcases hs with rfl | rfl | rfl
    · exact helement
    · exact hattr
    · exact htext

end Settings

/-- **Which builders can be called.**  Of the builders that the check of the settings accepts, exactly the call targets
are read as calls of themselves whatever arguments stand behind them, and no comment begins in those. -/
theorem checked_builders_call {st st' : Settings} (h : st.checked = .ok st') {s : Text}
    (hs : s ∈ [st'.builders.element, st'.builders.attr, st'.builders.text]) :
    ((∀ args, IsArguments args → ReadsCall s args) ↔ IsCallTarget s) ∧ (IsCallTarget s → ¬ ['/', '/'] <:+: s) := by
  obtain ⟨hplain, htail⟩ := Settings.isCallable_chars (Settings.isCallable_of_checked h hs)
  refine ⟨⟨fun hcall => ?_, fun htarget args hargs => ?_⟩, IsCallTarget.no_comment⟩
  · have hnone : IsArguments ['(', ')'] := by unfold IsArguments; decide +kernel
    have hloop : IsArguments loopArguments := by unfold IsArguments; decide +kernel
    exact (hcall _ hnone).isCallTarget hplain htail (hcall _ hloop)
  · obtain ⟨rest, rfl, hreads⟩ := hargs.reads
    obtain ⟨name, fields, below, hname, hfields, hcall⟩ := reads_call hreads htarget
    exact ⟨name, fields, below, hname, hfields, (readInFull?_eq_some (by decide +kernel)).2 hcall⟩

/-- Settings with a builder of a package, with a type and a field. -/
def packagedBuilder : Settings := { builders := { element := "@ui/core.Html::h.x".toList } }

theorem checked_builders_call_packaged : packagedBuilder.checked = .ok packagedBuilder ∧
    IsCallTarget packagedBuilder.builders.element ∧
    ((∀ args, IsArguments args → ReadsCall packagedBuilder.builders.element args) ↔
      IsCallTarget packagedBuilder.builders.element) ∧
    (IsCallTarget packagedBuilder.builders.element → ¬ ['/', '/'] <:+: packagedBuilder.builders.element) := by
  have hchecked : packagedBuilder.checked = .ok packagedBuilder := by decide
  have hname : IsName "@ui/core.Html::h".toList :=
    @IsName.packaged "ui".toList "Html".toList ["core".toList] ["h".toList] (by decide) (by decide)
  have haccess : IsAccess ".x".toList := ⟨['.'], ['x'], by decide, by decide, rfl⟩
  exact ⟨hchecked, ⟨_, [".x".toList], hname, List.forall_mem_singleton.2 haccess, rfl⟩,
    checked_builders_call hchecked List.mem_cons_self⟩

/-- Settings whose builder begins a comment. -/
def commentBuilder : Settings := { builders := { element := "//".toList } }

/-- **A builder that begins a comment is accepted**, and no call with it is read. -/
theorem checked_accepts_comment : commentBuilder.checked = .ok commentBuilder ∧ IsArguments "()".toList ∧
    readInFull? .expression (commentBuilder.builders.element ++ "()".toList) = none ∧
    ¬ ReadsCall commentBuilder.builders.element "()".toList := by
  have hnone : readInFull? .expression (commentBuilder.builders.element ++ "()".toList) = none := by decide +kernel
  refine ⟨by decide, by unfold IsArguments; decide +kernel, hnone, ?_⟩
  rintro ⟨_, _, _, -, -, hread⟩
  rw [hnone] at hread
  cases hread

end InlineMarkup
