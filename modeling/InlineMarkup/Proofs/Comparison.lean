import InlineMarkup.Command.Run
import InlineMarkup.Proofs.Lines
import Mathlib.Data.List.Basic
/-!
# Proofs.Comparison — a printed comparison holds both texts

The walk through the table need not find a longest common subsequence, and one empty common line is lost.  What is left
are common lines all the same: they occur in both texts, in order (`Pending.Along`).  A round of the merge keeps that,
takes a line as long as there is one (`round_size_lt`), and takes every line from the front (`round_before`,
`round_after`), so the merge ends and its blocks hold both texts (`merge_ends`).  Printed line by line they still do
(`run_diff_faithful`).
-/
namespace InlineMarkup
namespace LineDiff

/-! ## Common lines -/

theorem take_succ_toList {xs : Array Text} {i : Nat} (hi : i < xs.size) :
    xs.toList.take (i + 1) = xs.toList.take i ++ [xs.getD i []] := by
  rw [List.take_add_one, Array.getElem?_toList, Array.getD_eq_getD_getElem?, Array.getElem?_eq_getElem hi]
  rfl

/-- **What a walk finds is common** to the first `i` and the first `j` lines, whatever the table holds. -/
theorem walk_sublist (as bs : Array Text) (cells : Array Nat) (n i j : Nat) (common : List Text) (hi : i ≤ as.size)
    (hj : j ≤ bs.size) : ∃ found, walk as bs cells n i j common = found ++ common ∧
      found.Sublist (as.toList.take i) ∧ found.Sublist (bs.toList.take j) := by
  -- the cells only decide which way a step goes, so nothing has to be known of them
  fun_induction walk as bs cells n i j common with
  | case1 i j common => exact ⟨[], rfl, List.nil_sublist _, List.nil_sublist _⟩
  | case2 n j common => exact ⟨[], rfl, List.nil_sublist _, List.nil_sublist _⟩
  | case3 n i common => exact ⟨[], rfl, List.nil_sublist _, List.nil_sublist _⟩
  | case4 n i j common a heq ih =>
    obtain ⟨found, hwalk, has, hbs⟩ := ih (by omega) (by omega)
    refine ⟨found ++ [a], by rw [hwalk, List.append_assoc, List.singleton_append], ?_, ?_⟩
    · rw [take_succ_toList hi]
      exact has.append (List.Sublist.refl _)
    · rw [take_succ_toList hj, ← heq]
      exact hbs.append (List.Sublist.refl _)
  | case5 n i j common a hne hzero => exact ⟨[], rfl, List.nil_sublist _, List.nil_sublist _⟩
  | case6 n i j common a hne hzero hleft ih =>
    obtain ⟨found, hwalk, has, hbs⟩ := ih hi (by omega)
    exact ⟨found, hwalk, has, hbs.trans (List.take_sublist_take_left (Nat.le_succ j))⟩
  | case7 n i j common a hne hzero hup ih =>
    obtain ⟨found, hwalk, has, hbs⟩ := ih (by omega) hj
    exact ⟨found, hwalk, has.trans (List.take_sublist_take_left (Nat.le_succ i)), hbs⟩

theorem notMem_of_mem_linesOf {t l : Text} (h : l ∈ linesOf t) : '\n' ∉ l := by
  unfold linesOf at h
  split at h
  · cases h
  · exact Text.notMem_of_mem_pieces h

theorem join_linesOf (t : Text) : Text.join ['\n'] (linesOf t) = t := by
  unfold linesOf
  split
  · next h => rw [List.isEmpty_iff.1 h, Text.join]
  · exact Text.join_pieces '\n' t

/-- Lines that are put together and cut again are lost or the same, and they are lost where there is nothing to find. -/
theorem linesOf_sublist {ls : List Text} {t : Text} (h : ls.Sublist (Text.lines t)) :
    (linesOf (Text.join ['\n'] ls)).Sublist (linesOf t) := by
  by_cases hj : Text.join ['\n'] ls = []
  -- no line, or the one empty line that is lost
  · rw [hj]
    exact List.nil_sublist _
  · have hne : ls ≠ [] := by
      rintro rfl
      exact hj rfl
    have hcut : linesOf (Text.join ['\n'] ls) = ls := by
      rw [linesOf, if_neg (by simpa using hj)]
      exact Text.pieces_join hne fun l hl => Text.notMem_of_mem_pieces (h.mem hl)
    have ht : t ≠ [] := by
      rintro rfl
      rcases List.sublist_cons_iff.1 (show ls.Sublist [[]] from h) with hnil | ⟨r, rfl, hr⟩
      · exact hne (List.sublist_nil.1 hnil)
      · rw [List.sublist_nil.1 hr] at hj
        exact hj rfl
    rw [hcut, linesOf, if_neg (by simpa using ht)]
    exact h

namespace Pending

/-- The common lines occur in both texts, in order. -/
structure Along (p : Pending) : Prop where
  before : p.common.Sublist p.before
  after : p.common.Sublist p.after

theorem along_ofTexts (before after : Text) : (ofTexts before after).Along := by
  obtain ⟨found, hwalk, hbefore, hafter⟩ := walk_sublist (Text.lines before).toArray (Text.lines after).toArray
    (table (Text.lines before) (Text.lines after)) ((Text.lines before).length + (Text.lines after).length)
    (Text.lines before).length (Text.lines after).length [] (Nat.le_refl _) (Nat.le_refl _)
  rw [List.append_nil] at hwalk
  rw [List.take_of_length_le (Nat.le_refl _)] at hbefore hafter
  have hcommon : commonText before after = Text.join ['\n'] found := by
    rw [← hwalk]
    rfl
  constructor
  · show (linesOf (commonText before after)).Sublist (linesOf before)
    rw [hcommon]
    exact linesOf_sublist hbefore
  · show (linesOf (commonText before after)).Sublist (linesOf after)
    rw [hcommon]
    exact linesOf_sublist hafter

/-! ## One round -/

/-- The lines of the blocks whose change is one of these. -/
def linesIn (kept : Change → Bool) (blocks : List Block) : List Text :=
  blocks.flatMap fun b => if kept b.1 then b.2 else []

/-- What the first text has. -/
def inBefore (c : Change) : Bool := c != .added

/-- What the second text has. -/
def inAfter (c : Change) : Bool := c != .removed

theorem inBefore_or_inAfter (c : Change) : inBefore c = true ∨ inAfter c = true := by
  cases c <;> decide

theorem linesIn_append (kept : Change → Bool) (xs ys : List Block) :
    linesIn kept (xs ++ ys) = linesIn kept xs ++ linesIn kept ys := List.flatMap_append

theorem linesIn_filter (kept : Change → Bool) (blocks : List Block) :
    linesIn kept (blocks.filter (!·.2.isEmpty)) = linesIn kept blocks := by
  induction blocks with
  | nil => rfl
  | cons b blocks ih =>
    obtain ⟨c, ls⟩ := b
    unfold linesIn at ih ⊢
    cases ls with
    | nil => simpa using ih
    | cons l ls => simpa using ih

theorem agreeing_begins (as bs cs : List Text) :
    agreeing as bs cs <+: as ∧ agreeing as bs cs <+: bs ∧ agreeing as bs cs <+: cs := by
  fun_induction agreeing as bs cs with
  | case1 a as b bs c cs heq ih =>
    obtain ⟨rfl, rfl⟩ : a = c ∧ b = c := by simpa using heq
    exact ⟨List.cons_prefix_cons.2 ⟨rfl, ih.1⟩, List.cons_prefix_cons.2 ⟨rfl, ih.2.1⟩,
      List.cons_prefix_cons.2 ⟨rfl, ih.2.2⟩⟩
  | case2 => exact ⟨List.nil_prefix, List.nil_prefix, List.nil_prefix⟩
  | case3 => exact ⟨List.nil_prefix, List.nil_prefix, List.nil_prefix⟩

variable {p : Pending}

theorem same_before (p : Pending) : p.same ++ p.rest.before = p.before :=
  List.prefix_iff_eq_append.1 (agreeing_begins p.before p.after p.common).1

theorem same_after (p : Pending) : p.same ++ p.rest.after = p.after :=
  List.prefix_iff_eq_append.1 (agreeing_begins p.before p.after p.common).2.1

theorem same_common (p : Pending) : p.same ++ p.rest.common = p.common :=
  List.prefix_iff_eq_append.1 (agreeing_begins p.before p.after p.common).2.2

theorem linesIn_before (p : Pending) :
    linesIn inBefore p.round.1 = p.same ++ p.rest.before.takeWhile p.rest.differs := by
  rw [round, linesIn_filter]
  simp [linesIn, inBefore]

theorem linesIn_after (p : Pending) :
    linesIn inAfter p.round.1 = p.same ++ p.rest.after.takeWhile p.rest.differs := by
  rw [round, linesIn_filter]
  simp [linesIn, inAfter]

/-- **A round takes the lines of the first text from the front**, as the same or removed. -/
theorem round_before (p : Pending) : linesIn inBefore p.round.1 ++ p.round.2.before = p.before := by
  rw [linesIn_before, List.append_assoc, round, List.takeWhile_append_dropWhile, same_before]

/-- **A round takes the lines of the second text from the front**, as the same or added. -/
theorem round_after (p : Pending) : linesIn inAfter p.round.1 ++ p.round.2.after = p.after := by
  rw [linesIn_after, List.append_assoc, round, List.takeWhile_append_dropWhile, same_after]

theorem along_rest (h : p.Along) : p.rest.Along := by
  have hbefore := h.before
  have hafter := h.after
  rw [← same_before p, ← same_common p, List.append_sublist_append_left] at hbefore
  rw [← same_after p, ← same_common p, List.append_sublist_append_left] at hafter
  exact ⟨hbefore, hafter⟩

/-- Lines that are not the next common one can go. -/
theorem sublist_dropWhile {ls : List Text} (h : p.common.Sublist ls) : p.common.Sublist (ls.dropWhile p.differs) := by
  induction ls with
  | nil => exact h
  | cons l ls ih =>
    rw [List.dropWhile_cons]
    split
    · next hl =>
      rcases List.sublist_cons_iff.1 h with h | ⟨r, hr, -⟩
      · exact ih h
      · rw [differs, hr] at hl
        simp at hl
    · exact h

/-- **A round leaves common lines behind.** -/
theorem along_round (h : p.Along) : p.round.2.Along :=
  ⟨sublist_dropWhile (along_rest h).before, sublist_dropWhile (along_rest h).after⟩

/-- Where no line is taken, there is none or the next common one. -/
theorem next_of_takeWhile {ls : List Text} (h : ls.takeWhile p.differs = []) :
    ls = [] ∨ ∃ l r, ls = l :: r ∧ p.common.head? = some l := by
  cases ls with
  | nil => exact .inl rfl
  | cons l r =>
    refine .inr ⟨l, r, rfl, ?_⟩
    rw [List.takeWhile_cons] at h
    split at h
    · cases h
    · next hl => simpa [differs] using hl

/-- **A round that takes no line finds none**: as long as a common line is left, both texts have it. -/
theorem isDone_of_stuck (h : p.Along) (hsame : p.same = []) (hbefore : p.before.takeWhile p.differs = [])
    (hafter : p.after.takeWhile p.differs = []) : p.isDone = true := by
  obtain ⟨before, after, common⟩ := p
  cases common with
  | nil =>
    rcases next_of_takeWhile hbefore with rfl | ⟨l, r, rfl, hl⟩
    · rcases next_of_takeWhile hafter with rfl | ⟨l, r, rfl, hl⟩
      · rfl
      · cases hl
    · cases hl
  | cons c common =>
    rcases next_of_takeWhile hbefore with rfl | ⟨a, as, rfl, ha⟩
    · cases List.sublist_nil.1 h.before
    · rcases next_of_takeWhile hafter with rfl | ⟨b, bs, rfl, hb⟩
      · cases List.sublist_nil.1 h.after
      -- both texts stand at the next common line, so the three agree on it
      · obtain rfl := Option.some.inj ha
        obtain rfl := Option.some.inj hb
        simp [same, agreeing] at hsame

/-- **A round takes a line**, as long as there is one. -/
theorem round_size_lt (h : p.Along) (hleft : p.isDone = false) : p.round.2.size < p.size := by
  refine Nat.lt_of_not_le fun hle => ?_
  have hbefore := congrArg List.length (round_before p)
  have hafter := congrArg List.length (round_after p)
  rw [List.length_append] at hbefore hafter
  simp only [size] at hle
  have hnone : linesIn inBefore p.round.1 = [] := List.length_eq_zero_iff.1 (by omega)
  have hnone' : linesIn inAfter p.round.1 = [] := List.length_eq_zero_iff.1 (by omega)
  rw [linesIn_before, List.append_eq_nil_iff] at hnone
  rw [linesIn_after, List.append_eq_nil_iff] at hnone'
  -- nothing was the same, so the round looked for differences where it began
  have hrest : p.rest = p := by simp [rest, hnone.1]
  rw [hrest] at hnone hnone'
  rw [isDone_of_stuck h hnone.1 hnone.2 hnone'.2] at hleft
  cases hleft

/-! ## The whole merge -/

theorem merge_of_isDone (n : Nat) (h : p.isDone = true) : p.merge n = some [] := by
  cases n with
  | zero => exact if_pos h
  | succ n => exact if_pos h

/-- **The merge ends** within as many rounds as there are lines, and its blocks hold both texts. -/
theorem merge_ends (n : Nat) (p : Pending) (h : p.Along) (hn : p.size ≤ n) :
    ∃ blocks, p.merge n = some blocks ∧ linesIn inBefore blocks = p.before ∧ linesIn inAfter blocks = p.after ∧
      ∀ b ∈ blocks, b.2 ≠ [] := by
  cases hdone : p.isDone with
  | true =>
    have hnil : p.before = [] ∧ p.after = [] := by simpa [isDone] using hdone
    exact ⟨[], merge_of_isDone n hdone, hnil.1.symm, hnil.2.symm, fun b hb => absurd hb List.not_mem_nil⟩
  | false =>
    have hlt := round_size_lt h hdone
    cases n with
    | zero => omega
    | succ n =>
      obtain ⟨blocks, hmerge, hbefore, hafter, hne⟩ := merge_ends n p.round.2 (along_round h) (by omega)
      refine ⟨p.round.1 ++ blocks, ?_, ?_, ?_, fun b hb => ?_⟩
      · rw [merge, hdone, hmerge]
        rfl
      · rw [linesIn_append, hbefore, round_before]
      · rw [linesIn_append, hafter, round_after]
      · rcases List.mem_append.1 hb with hb | hb
        · simpa using (List.mem_filter.1 hb).2
        · exact hne b hb

theorem mem_linesIn {kept : Change → Bool} {blocks : List Block} {b : Block} (hb : b ∈ blocks) (hk : kept b.1 = true)
    {l : Text} (hl : l ∈ b.2) : l ∈ linesIn kept blocks :=
  List.mem_flatMap.2 ⟨b, hb, by rwa [if_pos hk]⟩

end Pending

open Pending

/-- **Every two texts can be compared**, and the blocks of the comparison hold the lines of both. -/
theorem exists_blocks (before after : Text) : ∃ blocks : List Block,
    diff? before after = some (blocks.map fun b => (b.1, Text.join ['\n'] b.2)) ∧
      linesIn inBefore blocks = linesOf before ∧ linesIn inAfter blocks = linesOf after ∧
      ∀ b ∈ blocks, b.2 ≠ [] ∧ ∀ l ∈ b.2, '\n' ∉ l := by
  obtain ⟨blocks, hmerge, hbefore, hafter, hne⟩ := merge_ends _ _ (along_ofTexts before after) (Nat.le_refl _)
  have hbefore : linesIn inBefore blocks = linesOf before := hbefore
  have hafter : linesIn inAfter blocks = linesOf after := hafter
  refine ⟨blocks, ?_, hbefore, hafter, fun b hb => ⟨hne b hb, fun l hl => ?_⟩⟩
  · rw [diff?, hmerge]
    rfl
  · rcases inBefore_or_inAfter b.1 with hk | hk
    · exact notMem_of_mem_linesOf (hbefore ▸ mem_linesIn hb hk hl)
    · exact notMem_of_mem_linesOf (hafter ▸ mem_linesIn hb hk hl)

end LineDiff

namespace Command

open LineDiff (Change Block)
open LineDiff.Pending (linesIn inBefore inAfter)

/-! ## What is printed -/

/-- The lines of a printed text that begin with one of the marks, without it. -/
def markedLines (marks : List Char) (printed : Text) : List Text :=
  ((Text.lines printed).filter fun l => l.head?.any marks.contains).map List.tail

/-- The lines of a block behind their mark. -/
def blockLines (b : Block) : List Text := b.2.map ((changeMark b.1).1 :: ·)

theorem diffText_eq {before after : Text} {blocks : List Block}
    (hdiff : LineDiff.diff? before after = some (blocks.map fun b => (b.1, Text.join ['\n'] b.2)))
    (hlines : ∀ b ∈ blocks, b.2 ≠ [] ∧ ∀ l ∈ b.2, '\n' ∉ l) :
    diffText false before after = (blocks.flatMap blockLines).flatMap (· ++ ['\n']) := by
  rw [diffText, hdiff, Option.getD_some, List.flatMap_map, List.flatMap_assoc, show Colour.stop false = [] from rfl,
    List.append_nil, List.flatMap_def, List.flatMap_def]
  refine congrArg List.flatten (List.map_congr_left fun b hb => ?_)
  rw [Text.lines, Text.pieces_join (hlines b hb).1 (hlines b hb).2, blockLines, List.flatMap_map]
  rfl

theorem notMem_blockLines {b : Block} (h : ∀ l ∈ b.2, '\n' ∉ l) : ∀ l ∈ blockLines b, '\n' ∉ l := by
  intro l hl
  obtain ⟨k, hk, rfl⟩ := List.mem_map.1 hl
  rw [List.mem_cons, not_or]
  refine ⟨?_, h k hk⟩
  cases b.1 <;> decide

theorem marked_blockLines (marks : List Char) (b : Block) :
    ((blockLines b).filter fun l => l.head?.any marks.contains).map List.tail =
      if marks.contains (changeMark b.1).1 then b.2 else [] := by
  rw [blockLines, List.filter_map, List.map_map]
  by_cases hmark : (changeMark b.1).1 ∈ marks
  · simp [Function.comp_def, hmark]
  · simp [Function.comp_def, hmark]

theorem markedLines_flatMap (marks : List Char) {blocks : List Block} (h : ∀ b ∈ blocks, ∀ l ∈ b.2, '\n' ∉ l) :
    markedLines marks ((blocks.flatMap blockLines).flatMap (· ++ ['\n'])) =
      linesIn (fun c => marks.contains (changeMark c).1) blocks := by
  have hlines : ∀ l ∈ blocks.flatMap blockLines, '\n' ∉ l := by
    intro l hl
    obtain ⟨b, hb, hl⟩ := List.mem_flatMap.1 hl
    exact notMem_blockLines (h b hb) l hl
  rw [markedLines, Text.lines_flatMap hlines, List.filter_append, List.map_append, List.filter_flatMap, List.map_flatMap,
    show List.filter _ [([] : Text)] = [] from rfl, List.map_nil, List.append_nil, linesIn]
  exact congrArg (blocks.flatMap ·) (funext fun b => marked_blockLines marks b)

theorem diffText_faithful (before after : Text) :
    Text.join ['\n'] (markedLines [' ', '-'] (diffText false before after)) = before ∧
      Text.join ['\n'] (markedLines [' ', '+'] (diffText false before after)) = after := by
  obtain ⟨blocks, hdiff, hbefore, hafter, hlines⟩ := LineDiff.exists_blocks before after
  have hkept : (fun c => [' ', '-'].contains (changeMark c).1) = inBefore := funext fun c => by cases c <;> rfl
  have hkept' : (fun c => [' ', '+'].contains (changeMark c).1) = inAfter := funext fun c => by cases c <;> rfl
  rw [diffText_eq hdiff hlines]
  constructor
  · rw [markedLines_flatMap _ fun b hb => (hlines b hb).2, hkept, hbefore, LineDiff.join_linesOf]
  · rw [markedLines_flatMap _ fun b hb => (hlines b hb).2, hkept', hafter, LineDiff.join_linesOf]

/-- **A printed comparison holds both texts.**  When the lowered form of a file is compared with the file, the merge ends
after some rounds.  Of the lines that are printed, those marked as the same or removed are the file's text, and those
marked as the same or added its lowered form. -/
theorem run_diff_faithful {s : Store} {i : Invocation} {file : Path} {settings : Settings} {doc : Document} {lowered : Text}
    (hi : i.action = .translate file true) (hs : Settings.resolve s i.settings ['.'] = .ok settings)
    (hd : readDocument s file = .ok doc) (hl : (doc.translate settings).result = .ok lowered) :
    (∃ rounds blocks, (LineDiff.Pending.ofTexts doc.text lowered).merge rounds = some blocks) ∧
      Text.join ['\n'] (markedLines [' ', '-'] (run false s i).output) = doc.text ∧
      Text.join ['\n'] (markedLines [' ', '+'] (run false s i).output) = lowered := by
  have hrun : (run false s i).output = diffText false doc.text lowered := by
    have htranslate : translate false s i.settings file true =
        .ok { files := s, output := diffText false doc.text lowered } := by
      simp only [translate, hs, hd, bind, Except.bind, hl]
      rfl
    rw [run, perform, hi]
    dsimp only
    rw [htranslate]
  obtain ⟨blocks, hmerge, -⟩ :=
    LineDiff.Pending.merge_ends _ _ (LineDiff.Pending.along_ofTexts doc.text lowered) (Nat.le_refl _)
  rw [hrun]
  exact ⟨⟨_, blocks, hmerge⟩, diffText_faithful doc.text lowered⟩

/-- A file whose only line in common with its lowered form is an empty one. -/
def blankFirst : Store := ({} : Store).add ["a.mbx".toList] (.file (.text "\n<br/>".toList))

theorem run_diff_faithful_blank :
    (run false blankFirst ⟨.translate "a.mbx".toList true, none, 0⟩).output =
      "-\n-<br/>\n+\n+h(\"br\", [], [])\n+\n".toList ∧
    (∃ rounds blocks, (LineDiff.Pending.ofTexts "\n<br/>".toList "\nh(\"br\", [], [])\n".toList).merge rounds = some blocks) ∧
      Text.join ['\n'] (markedLines [' ', '-']
        (run false blankFirst ⟨.translate "a.mbx".toList true, none, 0⟩).output) = "\n<br/>".toList ∧
      Text.join ['\n'] (markedLines [' ', '+']
        (run false blankFirst ⟨.translate "a.mbx".toList true, none, 0⟩).output) = "\nh(\"br\", [], [])\n".toList := by
  refine ⟨by decide +kernel, ?_⟩
  have hread : readDocument blankFirst "a.mbx".toList = .ok ⟨"a.mbx", "\n<br/>".toList⟩ := by decide +kernel
  have hlowered : ((⟨"a.mbx", "\n<br/>".toList⟩ : Document).translate {}).result =
      .ok "\nh(\"br\", [], [])\n".toList := by decide +kernel
  exact run_diff_faithful rfl (by decide +kernel) hread hlowered

end Command
end InlineMarkup
