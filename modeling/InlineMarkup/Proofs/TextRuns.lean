import InlineMarkup.Lowering.TextRun
import InlineMarkup.Proofs.Cuts
import InlineMarkup.Proofs.Locations
/-!
# Proofs.TextRuns — what the rule of lines does to white space

The rule of lines is stated line by line; seen from the words of a text it is a rule on the runs of white space around
them (`Worded`).  A run with a line feed in it counts for one space between two words and for nothing at the ends, every
other run stays as it is, and a carriage return at the very end is dropped (`normalizeText_words`).
-/
namespace InlineMarkup.Lowering

open Text (isBlank lines trimEnd trimStart)

/-! ## Words and white space -/

def Blank (t : Text) : Prop := ∀ c ∈ t, isBlank c = true

/-- Characters, at least one, and none of them white space. -/
structure IsWord (t : Text) : Prop where
  ne_nil : t ≠ []
  solid : ∀ c ∈ t, isBlank c = false

/-- A text with a word in it, cut where its runs of white space begin and end: the run before the first word, that word,
the other words each with the run before it, and the run behind the last. -/
structure Worded where
  lead : Text
  first : Text
  others : List (Text × Text)
  trail : Text
  lead_blank : Blank lead
  first_isWord : IsWord first
  others_run : ∀ o ∈ others, o.1 ≠ [] ∧ Blank o.1 ∧ IsWord o.2
  trail_blank : Blank trail

/-- A run of white space between two words. -/
def innerRun (r : Text) : Text := if '\n' ∈ r then [' '] else r

/-- A run of white space at an end of the text. -/
def outerRun (r : Text) : Text := if '\n' ∈ r then [] else r

namespace Worded

def text (w : Worded) : Text := w.lead ++ (w.first ++ (w.others.flatMap (fun o => o.1 ++ o.2) ++ w.trail))

/-- The text after the rule of lines. -/
def normal (w : Worded) : Text :=
  outerRun w.lead ++ (w.first ++ (w.others.flatMap (fun o => innerRun o.1 ++ o.2) ++ outerRun (chomp w.trail)))

end Worded

theorem Blank.of_append {u v : Text} (h : Blank (u ++ v)) : Blank u ∧ Blank v :=
  ⟨fun c hc => h c (List.mem_append_left _ hc), fun c hc => h c (List.mem_append_right _ hc)⟩

/-- **A text is blank or can be cut at its words.** -/
theorem blank_or_worded : ∀ t : Text, Blank t ∨ ∃ w : Worded, t = w.text
  | [] => .inl fun _ hc => by cases hc
  | c :: t => by
    have hone : isBlank c = false → IsWord [c] := fun hc => ⟨List.cons_ne_nil _ _, by simpa using hc⟩
    have hnone : ∀ o ∈ ([] : List (Text × Text)), o.1 ≠ [] ∧ Blank o.1 ∧ IsWord o.2 := fun _ ho => by cases ho
    have hempty : Blank [] := fun _ hc => by cases hc
    cases hc : isBlank c with
    | true =>
      rcases blank_or_worded t with ht | ⟨w, rfl⟩
      · exact .inl (List.forall_mem_cons.2 ⟨hc, ht⟩)
      · exact .inr ⟨{ w with lead := c :: w.lead, lead_blank := List.forall_mem_cons.2 ⟨hc, w.lead_blank⟩ }, rfl⟩
    | false =>
      rcases blank_or_worded t with ht | ⟨w, rfl⟩
      · exact .inr ⟨⟨[], [c], [], t, hempty, hone hc, hnone, ht⟩, rfl⟩
      by_cases hlead : w.lead = []
      · have hfirst : IsWord (c :: w.first) := ⟨List.cons_ne_nil _ _, List.forall_mem_cons.2 ⟨hc, w.first_isWord.solid⟩⟩
        exact .inr ⟨{ w with lead := [], first := c :: w.first, lead_blank := hempty, first_isWord := hfirst },
          by simp [Worded.text, hlead]⟩
      · have hothers : ∀ o ∈ (w.lead, w.first) :: w.others, o.1 ≠ [] ∧ Blank o.1 ∧ IsWord o.2 :=
          List.forall_mem_cons.2 ⟨⟨hlead, w.lead_blank, w.first_isWord⟩, w.others_run⟩
        exact .inr ⟨⟨[], [c], (w.lead, w.first) :: w.others, w.trail, hempty, hone hc, hothers, w.trail_blank⟩,
          by simp [Worded.text]⟩

/-! ## Lines without white space at their ends -/

theorem getLast?_append_right (u : Text) {v : Text} (hv : v ≠ []) : (u ++ v).getLast? = v.getLast? := by
  rw [List.getLast?_append, List.getLast?_eq_some_getLast hv, Option.some_or]

theorem chomp_append {u : Text} (hu : u.getLast? ≠ some '\r') (v : Text) : chomp (u ++ v) = u ++ chomp v := by
  unfold chomp
  by_cases hv : v = []
  · simp [hv, hu]
  · rw [getLast?_append_right u hv]
    split
    · rw [List.dropLast_append_of_ne_nil hv]
    · rfl

theorem Blank.chomp {t : Text} (h : Blank t) : Blank (chomp t) := by
  unfold Lowering.chomp
  split
  · exact fun c hc => h c (List.dropLast_subset t hc)
  · exact h

theorem Blank.trimEnd_chomp {t : Text} (h : Blank t) : trimEnd isBlank (Lowering.chomp t) = [] :=
  Text.trimEnd_of_last (u := []) (by simp) h.chomp

theorem mem_chomp {t : Text} : '\n' ∈ chomp t ↔ '\n' ∈ t := by
  unfold chomp
  split
  · next h =>
    obtain ⟨u, rfl⟩ := List.getLast?_eq_some_iff.1 h
    simp
  · rfl

theorem IsWord.getLast? {w : Text} (hw : IsWord w) (p : Text) : ∀ x, (p ++ w).getLast? = some x → isBlank x = false := by
  intro x hx
  rw [getLast?_append_right p hw.ne_nil] at hx
  exact hw.solid x (List.mem_of_getLast? hx)

/-- Behind a word only the white space of the line loses a carriage return. -/
theorem IsWord.chomp_append {w : Text} (hw : IsWord w) (p a : Text) : chomp (p ++ w ++ a) = p ++ w ++ chomp a := by
  refine Lowering.chomp_append (fun h => ?_) a
  have := hw.getLast? p _ h
  revert this
  decide

/-! ## The lines that are kept -/

/-- What is kept of the lines of a text; `isFirst` tells whether the first of them is the first of the run. -/
def keptLines (isFirst : Bool) (t : Text) : List Text :=
  (trimInner isFirst ((lines t).map chomp)).filter (!·.isEmpty)

theorem keptLines_line (isFirst : Bool) {x : Text} (hx : '\n' ∉ x) :
    keptLines isFirst x = [if isFirst then chomp x else trimStart isBlank (chomp x)].filter (!·.isEmpty) := by
  unfold keptLines lines
  rw [Text.pieces_of_notMem hx]
  rfl

theorem keptLines_append (isFirst : Bool) {x : Text} (hx : '\n' ∉ x) (t : Text) :
    keptLines isFirst (x ++ '\n' :: t) =
      [trimEnd isBlank (if isFirst then chomp x else trimStart isBlank (chomp x))].filter (!·.isEmpty) ++
        keptLines false t := by
  unfold keptLines lines
  rw [Text.pieces_append, Text.pieces_of_notMem hx, ← List.filter_append]
  cases ht : Text.pieces '\n' t with
  | nil => exact absurd ht (Text.pieces_ne_nil '\n' t)
  | cons l ls => rfl

/-- White space before the first word of a later line leaves no trace, however many lines it goes over. -/
theorem keptLines_blank : ∀ {u : Text}, Blank u → ∀ t, keptLines false (u ++ t) = keptLines false t
  | [], _, t => rfl
  | c :: u, hu, t => by
    obtain ⟨hc, hu⟩ := List.forall_mem_cons.1 hu
    rw [← keptLines_blank hu t, List.cons_append]
    by_cases hline : c = '\n'
    · subst hline
      exact keptLines_append false List.not_mem_nil (u ++ t)
    · unfold keptLines lines
      rw [Text.pieces, if_neg hline]
      cases hls : Text.pieces '\n' (u ++ t) with
      | nil => exact absurd hls (Text.pieces_ne_nil '\n' _)
      | cons l ls =>
        have hstart : trimStart isBlank (chomp (c :: l)) = trimStart isBlank (chomp l) := by
          unfold chomp trimStart
          cases l with
          | nil =>
            by_cases hr : c = '\r'
            · simp [hr]
            · simp [hr, hc]
          | cons y l =>
            rw [List.getLast?_cons_cons]
            split
            · simp [hc]
            · simp [hc]
        simp only [List.map_cons, trimInner, Bool.false_eq_true, if_false, hstart]

/-- White space with a line feed in it, at the very beginning. -/
theorem keptLines_run {r : Text} (hr : Blank r) (hn : '\n' ∈ r) (t : Text) : keptLines true (r ++ t) = keptLines false t := by
  obtain ⟨a, b, rfl, ha⟩ := List.eq_append_cons_of_mem hn
  obtain ⟨hablank, hbblank⟩ := hr.of_append
  rw [List.append_assoc, List.cons_append, keptLines_append true ha, if_pos rfl, hablank.trimEnd_chomp,
    keptLines_blank fun c hc => hbblank c (List.mem_cons_of_mem _ hc)]
  rfl

/-! ## Words with the runs between them -/

/-- Words, each behind a run of white space. -/
def RunsAndWords (others : List (Text × Text)) : Prop := ∀ o ∈ others, Blank o.1 ∧ IsWord o.2

theorem join_cons (l : Text) {ls : List Text} (h : ls ≠ []) :
    Text.join [' '] (l :: ls) = l ++ ([' '] ++ Text.join [' '] ls) := by
  cases ls with
  | nil => exact absurd rfl h
  | cons m ms => simp [Text.join]

/-- The beginning of a line that begins with a word, or is the first one, stays. -/
theorem front_of_word {isFirst : Bool} {p w : Text} (hw : IsWord w)
    (hhead : isFirst = false → ∀ c, (p ++ w).head? = some c → isBlank c = false) (a : Text) :
    (if isFirst then chomp (p ++ w ++ a) else trimStart isBlank (chomp (p ++ w ++ a))) = p ++ w ++ chomp a := by
  rw [hw.chomp_append]
  cases isFirst with
  | true => rfl
  | false =>
    have hne : p ++ w ≠ [] := fun h => hw.ne_nil (List.append_eq_nil_iff.1 h).2
    obtain ⟨c, v, hv⟩ := List.exists_cons_of_ne_nil hne
    have hc := hhead rfl c (by rw [hv]; rfl)
    rw [hv, List.cons_append]
    simp [trimStart, hc]

theorem IsWord.notMem_line {p w a : Text} (hw : IsWord w) (hp : '\n' ∉ p) (ha : '\n' ∉ a) : '\n' ∉ p ++ w ++ a := by
  have hline : '\n' ∉ w := fun h => by
    have := hw.solid _ h
    revert this
    decide
  simp [hp, hline, ha]

/-- **A run with a line feed in it ends the line of the word before it**, and leaves no trace on the lines behind. -/
theorem keptLines_word_run {isFirst : Bool} {p w r : Text} (hw : IsWord w) (hp : '\n' ∉ p)
    (hhead : isFirst = false → ∀ c, (p ++ w).head? = some c → isBlank c = false) (hr : Blank r) (hn : '\n' ∈ r) (t : Text) :
    keptLines isFirst (p ++ w ++ (r ++ t)) = (p ++ w) :: keptLines false t := by
  obtain ⟨a, b, rfl, ha⟩ := List.eq_append_cons_of_mem hn
  obtain ⟨hablank, hbblank⟩ := hr.of_append
  have hrest : p ++ w ++ (a ++ '\n' :: b ++ t) = (p ++ w ++ a) ++ '\n' :: (b ++ t) := by simp
  have hkeep : [p ++ w].filter (!·.isEmpty) = [p ++ w] := by simp [hw.ne_nil]
  rw [hrest, keptLines_append isFirst (hw.notMem_line hp ha), front_of_word hw hhead,
    Text.trimEnd_of_last (hw.getLast? p) hablank.chomp, hkeep,
    keptLines_blank fun c hc => hbblank c (List.mem_cons_of_mem _ hc)]
  rfl

/-- **The kept lines from a word on.**  `p` is what stands before the word on its line. -/
theorem keptLines_word {trail : Text} (htrail : Blank trail) : ∀ (others : List (Text × Text)) (isFirst : Bool) (p w : Text),
    RunsAndWords others → IsWord w → '\n' ∉ p →
    (isFirst = false → ∀ c, (p ++ w).head? = some c → isBlank c = false) →
    keptLines isFirst (p ++ w ++ (others.flatMap (fun o => o.1 ++ o.2) ++ trail)) ≠ [] ∧
      Text.join [' '] (keptLines isFirst (p ++ w ++ (others.flatMap (fun o => o.1 ++ o.2) ++ trail))) =
        p ++ w ++ (others.flatMap (fun o => innerRun o.1 ++ o.2) ++ outerRun (chomp trail))
  | [], isFirst, p, w, _, hw, hp, hhead => by
    rw [List.flatMap_nil, List.nil_append, List.flatMap_nil, List.nil_append, outerRun]
    simp only [mem_chomp]
    by_cases hn : '\n' ∈ trail
    · have hend := keptLines_word_run hw hp hhead htrail hn []
      rw [List.append_nil] at hend
      rw [hend, if_pos hn]
      exact ⟨List.cons_ne_nil _ _, (List.append_nil _).symm⟩
    · have hkeep : [p ++ w ++ chomp trail].filter (!·.isEmpty) = [p ++ w ++ chomp trail] := by simp [hw.ne_nil]
      rw [keptLines_line isFirst (hw.notMem_line hp hn), front_of_word hw hhead, hkeep, if_neg hn]
      exact ⟨List.cons_ne_nil _ _, rfl⟩
  | (r, v) :: others, isFirst, p, w, hothers, hw, hp, hhead => by
    obtain ⟨⟨hr, hv⟩, hmore⟩ := List.forall_mem_cons.1 hothers
    rw [List.flatMap_cons, List.flatMap_cons, innerRun]
    by_cases hn : '\n' ∈ r
    · -- the next word begins a line
      obtain ⟨hne, hjoin⟩ := keptLines_word htrail others false [] v hmore hv List.not_mem_nil fun _ c hc =>
        hv.solid c (List.mem_of_head? hc)
      have hend := keptLines_word_run hw hp hhead hr hn (v ++ (others.flatMap (fun o => o.1 ++ o.2) ++ trail))
      simp only [List.nil_append, List.append_assoc] at hne hjoin hend ⊢
      rw [hend, if_pos hn, join_cons _ hne, hjoin]
      exact ⟨List.cons_ne_nil _ _, by simp⟩
    · -- the run stands before the next word, on the same line
      have hhead' : isFirst = false → ∀ c, (p ++ w ++ r ++ v).head? = some c → isBlank c = false := by
        intro hlater c hc
        refine hhead hlater c ?_
        have hne : p ++ w ≠ [] := fun h => hw.ne_nil (List.append_eq_nil_iff.1 h).2
        obtain ⟨x, u, hu⟩ := List.exists_cons_of_ne_nil hne
        rw [hu] at hc ⊢
        exact hc
      have := keptLines_word htrail others isFirst (p ++ w ++ r) v hmore hv (hw.notMem_line hp hn) hhead'
      rw [if_neg hn]
      simpa only [List.append_assoc] using this

/-! ## The rule of lines -/

theorem normalizeText_eq (t : Text) : normalizeText t =
    if (Text.join [' '] (keptLines true t)).all isBlank then none else some (Text.join [' '] (keptLines true t)) := rfl

/-- **The rule of lines, word by word.** -/
theorem join_keptLines (w : Worded) : Text.join [' '] (keptLines true w.text) = w.normal := by
  have hothers : RunsAndWords w.others := fun o ho => (w.others_run o ho).2
  unfold Worded.text Worded.normal
  by_cases hn : '\n' ∈ w.lead
  · rw [keptLines_run w.lead_blank hn, outerRun, if_pos hn]
    exact (keptLines_word w.trail_blank w.others false [] w.first hothers w.first_isWord List.not_mem_nil
      fun _ c hc => w.first_isWord.solid c (List.mem_of_head? hc)).2
  · have := (keptLines_word w.trail_blank w.others true w.lead w.first hothers w.first_isWord hn (by simp)).2
    rw [outerRun, if_neg hn]
    simpa only [List.append_assoc] using this

theorem normalizeText_blank {t : Text} (h : Blank t) : normalizeText t = none := by
  have hjoin : Blank (Text.join [' '] (keptLines true t)) := by
    by_cases hn : '\n' ∈ t
    · have hnone := keptLines_run h hn []
      rw [List.append_nil] at hnone
      rw [hnone]
      exact fun _ hc => by cases hc
    · rw [keptLines_line true hn, if_pos rfl]
      by_cases hempty : chomp t = []
      · rw [hempty]
        exact fun _ hc => by cases hc
      · simpa [hempty, Text.join] using h.chomp
  rw [normalizeText_eq, if_pos (List.all_eq_true.2 hjoin)]

theorem normalizeText_words (w : Worded) : normalizeText w.text = some w.normal := by
  rw [normalizeText_eq, join_keptLines, if_neg]
  intro hall
  obtain ⟨c, v, hv⟩ := List.exists_cons_of_ne_nil w.first_isWord.ne_nil
  have hc : c ∈ w.first := hv ▸ List.mem_cons_self
  have hblank := List.all_eq_true.1 hall c (by simp [Worded.normal, hc])
  rw [w.first_isWord.solid c hc] at hblank
  cases hblank

/-! ## What follows from it -/

/-- The characters of a text that are no white space. -/
def solids (t : Text) : Text := t.filter (!isBlank ·)

theorem solids_append (u v : Text) : solids (u ++ v) = solids u ++ solids v :=
  List.filter_append u v

theorem Blank.solids {r : Text} (h : Blank r) : solids r = [] :=
  List.filter_eq_nil_iff.2 fun c hc => by simp [h c hc]

theorem Blank.inner {r : Text} (h : Blank r) : Blank (innerRun r) := by
  unfold innerRun
  split
  · exact fun c hc => by rw [List.mem_singleton.1 hc]; rfl
  · exact h

theorem Blank.outer {r : Text} (h : Blank r) : Blank (outerRun r) := by
  unfold outerRun
  split
  · exact fun _ hc => by cases hc
  · exact h

theorem solids_others (f : Text → Text) (hf : ∀ {r}, Blank r → Blank (f r)) : ∀ {others : List (Text × Text)},
    RunsAndWords others → solids (others.flatMap fun o => f o.1 ++ o.2) = others.flatMap fun o => solids o.2
  | [], _ => rfl
  | (r, v) :: others, h => by
    obtain ⟨⟨hr, -⟩, hmore⟩ := List.forall_mem_cons.1 h
    rw [List.flatMap_cons, List.flatMap_cons, solids_append, solids_append, (hf hr).solids, solids_others f hf hmore]
    rfl

/-- **Everything but white space is kept, in order.** -/
theorem solids_normal (w : Worded) : solids w.normal = solids w.text := by
  have hothers : RunsAndWords w.others := fun o ho => (w.others_run o ho).2
  have hsame : solids (w.others.flatMap fun o => o.1 ++ o.2) = w.others.flatMap fun o => solids o.2 :=
    solids_others (fun r => r) (fun h => h) hothers
  unfold Worded.normal Worded.text
  simp only [solids_append, w.lead_blank.outer.solids, w.lead_blank.solids, w.trail_blank.chomp.outer.solids,
    w.trail_blank.solids, solids_others innerRun Blank.inner hothers, hsame]

theorem notMem_normal (w : Worded) : '\n' ∉ w.normal := by
  have hword : ∀ {v : Text}, IsWord v → '\n' ∉ v := fun hv h => by
    have := hv.solid _ h
    revert this
    decide
  have hinner : ∀ r, '\n' ∉ innerRun r := fun r => by
    unfold innerRun
    split
    · decide
    · assumption
  have houter : ∀ r, '\n' ∉ outerRun r := fun r => by
    unfold outerRun
    split
    · decide
    · assumption
  simp only [Worded.normal, List.mem_append, List.mem_flatMap, not_or, not_exists, not_and]
  exact ⟨houter _, hword w.first_isWord, fun o ho => ⟨hinner _, hword (w.others_run o ho).2.2⟩, houter _⟩

/-- The text with a carriage return before every line feed. -/
def withReturns (t : Text) : Text := t.flatMap fun c => if c = '\n' then ['\r', '\n'] else [c]

theorem chomp_cons {c : Char} (hc : c ≠ '\r') (t : Text) : chomp (c :: t) = c :: chomp t :=
  chomp_append (u := [c]) (by simpa using hc) t

theorem lines_withReturns : ∀ {t : Text}, '\r' ∉ t → (lines (withReturns t)).map chomp = (lines t).map chomp
  | [], _ => rfl
  | c :: t, h => by
    have ih := lines_withReturns fun ht => h (List.mem_cons_of_mem c ht)
    have hc : c ≠ '\r' := fun hc => h (hc ▸ List.mem_cons_self)
    by_cases hn : c = '\n'
    · subst hn
      have hreturn : lines (withReturns ('\n' :: t)) = ['\r'] :: lines (withReturns t) :=
        Text.pieces_append ['\r'] (withReturns t)
      have hfeed : lines ('\n' :: t) = [] :: lines t := Text.pieces_append [] t
      rw [hreturn, hfeed, List.map_cons, List.map_cons, ih]
      rfl
    · have hstep : withReturns (c :: t) = c :: withReturns t := by simp [withReturns, hn]
      unfold lines at ih ⊢
      rw [hstep, Text.pieces, Text.pieces, if_neg hn, if_neg hn]
      cases hl : Text.pieces '\n' t with
      | nil => exact absurd hl (Text.pieces_ne_nil '\n' t)
      | cons l ls =>
        cases hm : Text.pieces '\n' (withReturns t) with
        | nil => exact absurd hm (Text.pieces_ne_nil '\n' _)
        | cons m ms =>
          rw [hl, hm, List.map_cons, List.map_cons, List.cons.injEq] at ih
          rw [List.map_cons, List.map_cons, chomp_cons hc, chomp_cons hc, ih.1, ih.2]

/-- **The rule of lines.**  A text of nothing but white space is no text.  Every other text has words, with runs of white
space around them; however it is cut, a run with a line feed becomes one space between two words and nothing at the ends,
and every other run stays, but for a carriage return at the very end.  So everything but white space is kept in order, no
line feed is left, and it makes no difference whether lines end in a line feed or in a carriage return and a line feed. -/
theorem normalizeText_runs (t : Text) :
    (normalizeText t = none ↔ ∀ c ∈ t, isBlank c = true) ∧
      (normalizeText t ≠ none → ∃ w : Worded, t = w.text) ∧
      (∀ w : Worded, t = w.text → normalizeText t = some w.normal) ∧
      (∀ out, normalizeText t = some out → out.filter (!isBlank ·) = t.filter (!isBlank ·) ∧ '\n' ∉ out) ∧
      ('\r' ∉ t → normalizeText (withReturns t) = normalizeText t) := by
  have hcut : normalizeText t ≠ none → ∃ w : Worded, t = w.text := fun h =>
    (blank_or_worded t).resolve_left fun hblank => h (normalizeText_blank hblank)
  refine ⟨⟨fun hnone => ?_, normalizeText_blank⟩, hcut, fun w hw => hw ▸ normalizeText_words w, fun out hout => ?_, fun h => ?_⟩
  · refine (blank_or_worded t).resolve_right fun ⟨w, hw⟩ => ?_
    rw [hw, normalizeText_words] at hnone
    cases hnone
  · obtain ⟨w, rfl⟩ := hcut (by rw [hout]; exact Option.some_ne_none _)
    rw [normalizeText_words] at hout
    cases hout
    exact ⟨solids_normal w, notMem_normal w⟩
  · rw [normalizeText_eq, normalizeText_eq, keptLines, lines_withReturns h]
    rfl

example : normalizeText "  one\ttwo \r\n\n three  \r".toList = some "  one\ttwo three  ".toList := by decide

end InlineMarkup.Lowering
