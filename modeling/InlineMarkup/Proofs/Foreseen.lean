import InlineMarkup.Proofs.Outputs
import Mathlib.Data.List.Perm.Basic
/-!
# Proofs.Foreseen — what becomes of a file among others

Where no output is a source, what becomes of a file is what becomes of it alone, whatever turns the other files have
taken before (`outcomes_of_turns`).  So a check says what a build will do (`check_predicts`).  Where no two files have one
output either, the files end up the same in every order (`run_unordered`).
-/
namespace InlineMarkup

/-- The same files in the same places. -/
structure Store.Same (s s' : Store) : Prop where
  workingDirectory : s'.workingDirectory = s.workingDirectory
  lookup : ∀ l, s'.lookup l = s.lookup l

/-- **The report on a failed access** is of the kind for accesses, names the path, and has the fault for its cause. -/
theorem AccessFault.report_io (f : AccessFault) (p : Path) : (f.report p).kind = .io ∧
    (f.report p).message = String.ofList p ++ ": " ++ f.message ∧ (f.report p).cause = some f.message :=
  ⟨rfl, rfl, rfl⟩

theorem Store.writeText_of_locate {s : Store} {o : Path} {l : Location} (hl : s.locate o = .ok l) (t : Text) :
    s.writeText o t =
      if s.lookup l = some .directory then .error .isADirectory else .ok (s.put l (.file (.text t))) := by
  unfold writeText
  rw [hl]
  simp only [bind, Except.bind]
  split
  · next hd => rw [if_pos hd]
  · next hd => rw [if_neg hd]; rfl

namespace Batch

variable {settings : Settings} {mode : Mode} {s s₀ s' : Store} {p root : Path} {ps qs : List Path}
  {x y : Store × List (Path × Task)} {outcomes : List (Path × Except Diagnostic Translated)}

/-! ## A file alone -/

/-- What becomes of a file that is worked on alone. -/
def outcome (settings : Settings) (mode : Mode) (s : Store) (p : Path) : Option (Except Diagnostic Translated) :=
  (translateFile settings mode s p).2

theorem outcome_of_none (h : prepare settings s p = none) : outcome settings mode s p = none := by
  simp [outcome, translateFile, h]

theorem outcome_of_error {d : Diagnostic} (h : prepare settings s p = some (.error d)) :
    outcome settings mode s p = some (.error d) := by
  simp [outcome, translateFile, h]

theorem outcome_check {o : Path} {t : Text} (h : prepare settings s p = some (.ok (o, t))) :
    outcome settings .check s p = some (.ok ⟨p, o, false⟩) := by
  simp [outcome, translateFile, h]

theorem outcome_write {o : Path} {t : Text} {l : Location} (h : prepare settings s p = some (.ok (o, t)))
    (hl : s.locate o = .ok l) : outcome settings .write s p =
      some (if s.lookup l = some .directory then .error (AccessFault.isADirectory.report o) else .ok ⟨p, o, true⟩) := by
  unfold outcome translateFile
  rw [h]
  dsimp only
  rw [Store.writeText_of_locate hl]
  by_cases hd : s.lookup l = some .directory <;> simp [hd]

theorem prepare_of_outcome {t : Translated} (h : outcome settings mode s p = some (.ok t)) :
    ∃ text, prepare settings s p = some (.ok (t.output, text)) := by
  unfold outcome translateFile at h
  cases hp : prepare settings s p with
  | none => simp [hp] at h
  | some y =>
    rcases y with d | ⟨o, text⟩
    · simp [hp] at h
    · refine ⟨text, ?_⟩
      rw [hp] at h
      cases mode with
      | check =>
        obtain rfl : (⟨p, o, false⟩ : Translated) = t := Except.ok.inj (Option.some.inj h)
        rfl
      | write =>
        dsimp only at h
        cases hw : s.writeText o text with
        | error f =>
          rw [hw] at h
          cases h
        | ok s₁ =>
          rw [hw] at h
          obtain rfl : (⟨p, o, true⟩ : Translated) = t := Except.ok.inj (Option.some.inj h)
          rfl

/-! ## A file among others -/

/-- A task is where it would be if its file were alone. -/
def Task.Foreseen (settings : Settings) (mode : Mode) (s : Store) (p : Path) : Task → Prop
  | .waiting => True
  | .lowered o t => mode = .write ∧ prepare settings s p = some (.ok (o, t))
  | .done r => outcome settings mode s p = some r
  | .aborted => outcome settings mode s p = none

theorem Account.mem (h : Account settings mode s₀ ps x) {q : Path} {t : Task} (hq : (q, t) ∈ x.2) : q ∈ ps := by
  rw [← h.paths]
  exact List.mem_map.2 ⟨_, hq, rfl⟩

theorem Account.lookup_source (h : Account settings mode s₀ ps x) (hapart : Apart settings s₀ ps) (hp : p ∈ ps)
    {l : Location} (hl : s₀.locate p = .ok l) : x.1.lookup l = s₀.lookup l := by
  by_contra hchanged
  obtain ⟨q, t, hmem, hlocate⟩ := h.frame l hchanged
  obtain ⟨-, hout, -⟩ := h.fits _ hmem
  exact hapart.sources p hp q (h.mem hmem) t.output hout l hl hlocate

theorem Account.prepare_source (h : Account settings mode s₀ ps x) (hapart : Apart settings s₀ ps) (hp : p ∈ ps) :
    prepare settings x.1 p = prepare settings s₀ p := by
  obtain ⟨l, hl, -⟩ := hapart.located p hp
  exact prepare_congr hl (h.folders.locate_iff.2 hl) (h.lookup_source hapart hp hl)

/-- A file's own turn keeps it where it would be alone. -/
theorem foreseen_advance (h : Account settings mode s₀ ps x) (hapart : Apart settings s₀ ps) (hp : p ∈ ps) {t : Task}
    (ht : t.Foreseen settings mode s₀ p) : (advance settings mode x.1 p t).2.Foreseen settings mode s₀ p := by
  cases t with
  | waiting =>
    have hprepare := h.prepare_source hapart hp
    cases hfirst : prepare settings s₀ p with
    | none => simp [advance, hprepare, hfirst, Task.Foreseen, outcome_of_none hfirst]
    | some y =>
      rcases y with d | ⟨o, text⟩
      · simp [advance, hprepare, hfirst, Task.Foreseen, outcome_of_error hfirst]
      · cases mode with
        | check => simp [advance, hprepare, hfirst, Task.Foreseen, outcome_check hfirst]
        | write => simp [advance, hprepare, hfirst, Task.Foreseen]
  | lowered o text =>
    obtain ⟨rfl, hfirst⟩ := ht
    obtain ⟨-, -, -, hout⟩ := prepare_eq_ok.1 hfirst
    obtain ⟨l, hl⟩ := hapart.placed p hp o hout
    have hwrite := Store.writeText_of_locate (h.folders.locate_iff.2 hl) text
    simp only [h.folders.lookup l] at hwrite
    by_cases hd : s₀.lookup l = some .directory
    · simp [advance, hwrite, hd, Task.Foreseen, outcome_write hfirst hl]
    · simp [advance, hwrite, hd, Task.Foreseen, outcome_write hfirst hl]
  | done r => exact ht
  | aborted => exact ht

/-- **Each turn keeps all files where they would be alone.** -/
theorem foreseen_turn (hapart : Apart settings s₀ ps) (h : Turn settings mode x y) (hx : Account settings mode s₀ ps x)
    (htasks : ∀ z ∈ x.2, z.2.Foreseen settings mode s₀ z.1) : ∀ z ∈ y.2, z.2.Foreseen settings mode s₀ z.1 := by
  obtain ⟨s, pre, p, t, post⟩ := h
  intro z hz
  simp only [List.mem_append, List.mem_cons] at hz
  rcases hz with hz | rfl | hz
  · exact htasks z (by simp [hz])
  · exact foreseen_advance hx hapart (hx.mem (t := t) (by simp)) (htasks (p, t) (by simp))
  · exact htasks z (by simp [hz])

theorem foreseen_turns (hapart : Apart settings s₀ ps) (h : Turns settings mode x y) (hx : Account settings mode s₀ ps x)
    (htasks : ∀ z ∈ x.2, z.2.Foreseen settings mode s₀ z.1) : ∀ z ∈ y.2, z.2.Foreseen settings mode s₀ z.1 := by
  induction h with
  | refl => exact htasks
  | tail hturns hturn ih => exact foreseen_turn hapart hturn (account_turns hturns hx) ih

/-- **What becomes of the files of a batch**, in whatever order they take their turns. -/
theorem outcomes_of_turns (hapart : Apart settings s ps)
    (h : Turns settings mode (s, allWaiting ps) (s', allDone outcomes)) :
    outcomes.map (fun z => (z.1, some z.2)) = ps.map fun p => (p, outcome settings mode s p) := by
  have haccount := account_allWaiting settings mode s ps
  have htasks := foreseen_turns hapart h haccount (by simp [allWaiting, Task.Foreseen])
  have hpaths : outcomes.map (·.1) = ps := by
    simpa [allDone, Function.comp_def] using (account_turns h haccount).paths
  rw [← hpaths, List.map_map]
  exact List.map_congr_left fun z hz => Prod.ext rfl (htasks _ (mem_allDone.2 hz)).symm

theorem injective_some :
    Function.Injective fun z : Path × Except Diagnostic Translated => (z.1, some z.2) := by
  rintro ⟨p, r⟩ ⟨q, r'⟩ h
  simpa using h

theorem mem_outcomes (hapart : Apart settings s ps)
    (h : Turns settings mode (s, allWaiting ps) (s', allDone outcomes)) {r : Except Diagnostic Translated} :
    (p, r) ∈ outcomes ↔ p ∈ ps ∧ outcome settings mode s p = some r := by
  have hlisted : (p, some r) ∈ outcomes.map (fun z => (z.1, some z.2)) ↔ (p, r) ∈ outcomes := by simp
  rw [← hlisted, outcomes_of_turns hapart h]
  simp

theorem ends_of_error {out : Store × Except Diagnostic Report} {f : AccessFault} (h : Ends settings mode s root out)
    (hfound : s.discover root settings.inputExtension = .error f) : out = (s, .error (f.report root)) := by
  cases h with
  | inOrder hrun =>
    rw [run_of_refused hfound] at hrun ⊢
    cases hrun
    rfl
  | interleaved _ hfound' _ =>
    rw [hfound] at hfound'
    cases hfound'

theorem exists_turns {out : Store × Except Diagnostic Report} (h : Ends settings mode s root out)
    (hfound : s.discover root settings.inputExtension = .ok ps) :
    ∃ outcomes, Turns settings mode (s, allWaiting ps) (out.1, allDone outcomes) ∧ out.2 = .ok (collect outcomes) := by
  cases h with
  | inOrder hrun =>
    obtain ⟨outcomes, hall, rfl⟩ := exists_outcomes hfound hrun
    exact ⟨outcomes, turns_translateAll [] hall, rfl⟩
  | interleaved _ hfound' hturns =>
    rw [hfound] at hfound'
    cases hfound'
    exact ⟨_, hturns, rfl⟩

/-! ## Checking and building -/

theorem mem_failures {outcomes : List (Path × Except Diagnostic Translated)} {f : Failure} :
    f ∈ (collect outcomes).failures ↔ (f.path, .error f.error) ∈ outcomes := by
  simp only [collect, List.mem_filterMap, Prod.exists]
  constructor
  · rintro ⟨p, r, hmem, hr⟩
    cases r with
    | ok t => cases hr
    | error d =>
      cases hr
      exact hmem
  · intro hmem
    exact ⟨f.path, .error f.error, hmem, rfl⟩

theorem outcome_of_check_error {d : Diagnostic} (h : outcome settings .check s p = some (.error d)) :
    outcome settings .write s p = some (.error d) := by
  cases hp : prepare settings s p with
  | none =>
    rw [outcome_of_none hp] at h
    cases h
  | some y =>
    rcases y with d' | ⟨o, text⟩
    · rw [outcome_of_error hp] at h ⊢
      exact h
    · rw [outcome_check hp] at h
      cases h

theorem outcome_of_check_ok {t : Translated} (h : outcome settings .check s p = some (.ok t)) :
    t.input = p ∧ (outcome settings .write s p = some (.ok ⟨p, t.output, true⟩) ∨
      ∃ f : AccessFault, outcome settings .write s p = some (.error (f.report t.output))) := by
  obtain ⟨text, hp⟩ := prepare_of_outcome h
  rw [outcome_check hp] at h
  refine ⟨(congrArg Translated.input (Except.ok.inj (Option.some.inj h))).symm, ?_⟩
  unfold outcome translateFile
  rw [hp]
  dsimp only
  cases hw : s.writeText t.output text with
  | ok s₁ => exact .inl rfl
  | error f => exact .inr ⟨f, rfl⟩

/-- A check says what a build does: the build stops where the check does, a file that fails in the check fails in the
same way, and any other file has the same output or cannot be written there (`AccessFault.report_io`). -/
structure Predicts (check build : Except Diagnostic Report) : Prop where
  refused : ∀ d, check = .error d ↔ build = .error d
  failures : ∀ r r', check = .ok r → build = .ok r' → ∀ f ∈ r.failures, f ∈ r'.failures
  translated : ∀ r r', check = .ok r → build = .ok r' → ∀ t ∈ r.translated,
    ⟨t.input, t.output, true⟩ ∈ r'.translated ∨ ∃ f : AccessFault, ⟨t.input, f.report t.output⟩ ∈ r'.failures

/-- **A check predicts the build.** -/
theorem check_predicts (hinput : settings.inputExtension = ({} : Settings).inputExtension)
    (houtput : settings.outputExtension = ({} : Settings).outputExtension)
    {checked built : Store × Except Diagnostic Report} (hcheck : Ends settings .check s root checked)
    (hbuild : Ends settings .write s root built) : Predicts checked.2 built.2 := by
  have hset : settings.Separates := by
    obtain ⟨hslash, hnonempty, hdistinct⟩ := Settings.separates_default
    exact ⟨houtput ▸ hslash, houtput ▸ hnonempty, by rw [houtput, hinput]; exact hdistinct⟩
  cases hfound : s.discover root settings.inputExtension with
  | error f =>
    rw [ends_of_error hcheck hfound, ends_of_error hbuild hfound]
    exact ⟨fun _ => Iff.rfl, by simp, by simp⟩
  | ok ps =>
    obtain ⟨dirOf, hsources⟩ := sources_of_discover hfound
    have hapart := apart_sources hset hsources
    obtain ⟨outcomes, hturns, hreport⟩ := exists_turns hcheck hfound
    obtain ⟨outcomes', hturns', hreport'⟩ := exists_turns hbuild hfound
    rw [hreport, hreport']
    refine ⟨by simp, ?_, ?_⟩
    · rintro r r' hr hr' f hf
      obtain rfl := Except.ok.inj hr
      obtain rfl := Except.ok.inj hr'
      obtain ⟨hp, hfails⟩ := (mem_outcomes hapart hturns).1 (mem_failures.1 hf)
      exact mem_failures.2 ((mem_outcomes hapart hturns').2 ⟨hp, outcome_of_check_error hfails⟩)
    · rintro r r' hr hr' t ht
      obtain rfl := Except.ok.inj hr
      obtain rfl := Except.ok.inj hr'
      obtain ⟨p, hmem⟩ := mem_collect.1 ht
      obtain ⟨hp, hok⟩ := (mem_outcomes hapart hturns).1 hmem
      obtain ⟨rfl, hwritten | ⟨f, hfails⟩⟩ := outcome_of_check_ok hok
      · exact .inl (mem_collect.2 ⟨t.input, (mem_outcomes hapart hturns').2 ⟨hp, hwritten⟩⟩)
      · exact .inr ⟨f, mem_failures.2 ((mem_outcomes hapart hturns').2 ⟨hp, hfails⟩)⟩

/-- A file that can be lowered, one that cannot, and one whose output path is that of the folder above. -/
def checkable : Store :=
  mixed.add ["..mbx".toList] (.file (.text "let a = 1\n".toList))

theorem check_predicts_checkable : ∃ check build,
    (run {maxDepth := 3} .check checkable ".".toList).2 = some check ∧
      (run {maxDepth := 3} .write checkable ".".toList).2 = some build ∧ Predicts check build ∧
      check.toOption.map (fun r => (r.translated.map (·.output), r.failures.map fun f => (f.path, f.error.kind))) =
        some (["./..".toList, "./a.mbt".toList], [("./b.mbx".toList, .nestingLimit)]) ∧
      build.toOption.map (fun r => (r.translated.map (·.output), r.failures.map fun f => (f.path, f.error.kind))) =
        some (["./a.mbt".toList], [("./..mbx".toList, .io), ("./b.mbx".toList, .nestingLimit)]) := by
  have hcheck : (run {maxDepth := 3} .check checkable ".".toList).2.map
      (·.toOption.map fun r => (r.translated.map (·.output), r.failures.map fun f => (f.path, f.error.kind))) =
      some (some (["./..".toList, "./a.mbt".toList], [("./b.mbx".toList, .nestingLimit)])) := by decide +kernel
  have hbuild : (run {maxDepth := 3} .write checkable ".".toList).2.map
      (·.toOption.map fun r => (r.translated.map (·.output), r.failures.map fun f => (f.path, f.error.kind))) =
      some (some (["./a.mbt".toList], [("./..mbx".toList, .io), ("./b.mbx".toList, .nestingLimit)])) := by
    decide +kernel
  obtain ⟨check, hchecked, hcheck⟩ := Option.map_eq_some_iff.1 hcheck
  obtain ⟨build, hbuilt, hbuild⟩ := Option.map_eq_some_iff.1 hbuild
  exact ⟨check, build, hchecked, hbuilt, check_predicts (by rfl) (by rfl) (.inOrder hchecked) (.inOrder hbuilt), hcheck,
    hbuild⟩

/-! ## Files in any order -/

/-- The lowered form of every file that is done is where it was written. -/
def Written (settings : Settings) (s₀ : Store) (x : Store × List (Path × Task)) : Prop :=
  ∀ p t text l, (p, Task.done (.ok t)) ∈ x.2 → t.written = true → prepare settings s₀ p = some (.ok (t.output, text)) →
    s₀.locate t.output = .ok l → x.1.lookup l = some (.file (.text text))

/-- No two files have one output path. -/
def Distinct (settings : Settings) (ps : List Path) : Prop :=
  ∀ p ∈ ps, ∀ q ∈ ps, ∀ o, settings.outputPath? p = some o → settings.outputPath? q = some o → p = q

/-- What a file writes is in no other file's place. -/
theorem written_write (hapart : Apart settings s₀ ps) (hdistinct : Distinct settings ps)
    {pre post : List (Path × Task)} {o : Path} {text : Text}
    (hx : Account settings .write s₀ ps (s, pre ++ (p, .lowered o text) :: post))
    (hfirst : prepare settings s₀ p = some (.ok (o, text))) (hw : s.writeText o text = .ok s')
    (h : Written settings s₀ (s, pre ++ (p, .lowered o text) :: post)) :
    Written settings s₀ (s', pre ++ (p, .done (.ok ⟨p, o, true⟩)) :: post) := by
  obtain ⟨l, hl, hfolders, htext, hothers⟩ := Store.writeText_ok hw
  have hl₀ := hx.folders.locate_iff.1 hl
  have hp : p ∈ ps := hx.mem (t := .lowered o text) (by simp)
  obtain ⟨-, -, -, hout⟩ := prepare_eq_ok.1 hfirst
  intro q t text' l' hq ht hprepare hl'
  by_cases hqp : q = p
  · subst hqp
    rw [hfirst] at hprepare
    obtain ⟨rfl, rfl⟩ := Prod.mk.inj (Except.ok.inj (Option.some.inj hprepare))
    obtain rfl : l = l' := Except.ok.inj (hl₀.symm.trans hl')
    exact htext
  · have hq' : (q, Task.done (.ok t)) ∈ pre ++ (p, .lowered o text) :: post := by simpa [hqp] using hq
    obtain ⟨-, -, -, hout'⟩ := prepare_eq_ok.1 hprepare
    have hne : l' ≠ l := by
      rintro rfl
      have hd := (hx.folders.trans hfolders).ne_directory htext
      obtain rfl := hapart.outputs q (hx.mem hq') p hp _ _ hout' hout l' hd hl' hl₀
      exact hqp (hdistinct q (hx.mem hq') p hp _ hout' hout)
    rw [hothers l' hne]
    exact h q t text' l' hq' ht hprepare hl'

theorem Written.keep {ys zs : List (Path × Task)} (h : Written settings s₀ (s, ys))
    (hkeep : ∀ q t, (q, Task.done (.ok t)) ∈ zs → t.written = true → (q, Task.done (.ok t)) ∈ ys) :
    Written settings s₀ (s, zs) :=
  fun q t text l hq ht => h q t text l (hkeep q t hq ht) ht

theorem written_turn (hapart : Apart settings s₀ ps) (hdistinct : Distinct settings ps) (h : Turn settings mode x y)
    (hx : Account settings mode s₀ ps x) (htasks : ∀ z ∈ x.2, z.2.Foreseen settings mode s₀ z.1)
    (hwritten : Written settings s₀ x) : Written settings s₀ y := by
  obtain ⟨s, pre, p, t, post⟩ := h
  have ht : t.Foreseen settings mode s₀ p := htasks (p, t) (by simp)
  cases t with
  | waiting =>
    -- nothing is written before a file is lowered
    cases hp : prepare settings s p with
    | none =>
      simp only [advance, hp]
      exact hwritten.keep fun q u hq _ => by simpa using hq
    | some z =>
      rcases z with d | z
      · simp only [advance, hp]
        exact hwritten.keep fun q u hq _ => by simpa using hq
      · cases mode with
        | write =>
          simp only [advance, hp]
          exact hwritten.keep fun q u hq _ => by simpa using hq
        | check =>
          simp only [advance, hp]
          refine hwritten.keep fun q u hq hu => ?_
          have hne : u ≠ ⟨p, z.1, false⟩ := by
            rintro rfl
            cases hu
          simpa [hne] using hq
  | lowered o text =>
    obtain ⟨rfl, hfirst⟩ := ht
    cases hw : s.writeText o text with
    | error f =>
      simp only [advance, hw]
      exact hwritten.keep fun q u hq _ => by simpa using hq
    | ok s' =>
      simp only [advance, hw]
      exact written_write hapart hdistinct hx hfirst hw hwritten
  | done r => exact hwritten
  | aborted => exact hwritten

theorem written_turns (hapart : Apart settings s₀ ps) (hdistinct : Distinct settings ps) (h : Turns settings mode x y)
    (hx : Account settings mode s₀ ps x) (htasks : ∀ z ∈ x.2, z.2.Foreseen settings mode s₀ z.1)
    (hwritten : Written settings s₀ x) : Written settings s₀ y := by
  induction h with
  | refl => exact hwritten
  | tail hturns hturn ih =>
    exact written_turn hapart hdistinct hturn (account_turns hturns hx) (foreseen_turns hapart hturns hx htasks) ih

/-- What is in the store when all files are done: the lowered forms of those that were written, and all else as it was. -/
structure Results (settings : Settings) (mode : Mode) (s : Store) (ps : List Path) (s' : Store) : Prop where
  workingDirectory : s'.workingDirectory = s.workingDirectory
  written : ∀ p ∈ ps, ∀ t text l, outcome settings mode s p = some (.ok t) → t.written = true →
    prepare settings s p = some (.ok (t.output, text)) → s.locate t.output = .ok l →
      s'.lookup l = some (.file (.text text))
  others : ∀ l, (∀ p ∈ ps, ∀ t, outcome settings mode s p = some (.ok t) → t.written = true →
    s.locate t.output ≠ .ok l) → s'.lookup l = s.lookup l

theorem results_of_turns (hapart : Apart settings s ps) (hdistinct : Distinct settings ps)
    (h : Turns settings mode (s, allWaiting ps) (s', allDone outcomes)) : Results settings mode s ps s' := by
  have haccount := account_turns h (account_allWaiting settings mode s ps)
  have hwritten := written_turns hapart hdistinct h (account_allWaiting settings mode s ps)
    (by simp [allWaiting, Task.Foreseen]) (by simp [Written, allWaiting])
  refine ⟨haccount.folders.workingDirectory, fun p hp t text l hok ht hprepare hl => ?_, fun l hothers => ?_⟩
  · have hdone : (p, Task.done (.ok t)) ∈ allDone outcomes := mem_allDone.2 ((mem_outcomes hapart h).2 ⟨hp, hok⟩)
    exact hwritten p t text l hdone ht hprepare hl
  · by_contra hchanged
    obtain ⟨p, t, hmem, hl⟩ := haccount.frame l hchanged
    obtain ⟨-, -, hmode⟩ := haccount.fits _ hmem
    obtain ⟨hp, hok⟩ := (mem_outcomes hapart h).1 (mem_allDone.1 hmem)
    cases mode with
    | check =>
      obtain rfl : s' = s := haccount.kept (.inl rfl)
      exact hchanged rfl
    | write => exact hothers p hp t hok hmode hl

/-- **The results are the same** wherever the same files are worked on. -/
theorem Results.same {s₁ s₂ : Store} (h₁ : Results settings mode s ps s₁) (h₂ : Results settings mode s qs s₂)
    (hsame : ∀ p, p ∈ ps ↔ p ∈ qs) : Store.Same s₁ s₂ := by
  refine ⟨h₂.workingDirectory.trans h₁.workingDirectory.symm, fun l => ?_⟩
  by_cases hl : ∃ p ∈ ps, ∃ t, outcome settings mode s p = some (.ok t) ∧ t.written = true ∧ s.locate t.output = .ok l
  · obtain ⟨p, hp, t, hok, ht, hl⟩ := hl
    obtain ⟨text, hprepare⟩ := prepare_of_outcome hok
    rw [h₁.written p hp t text l hok ht hprepare hl, h₂.written p ((hsame p).1 hp) t text l hok ht hprepare hl]
  · have hnone : ∀ p ∈ ps, ∀ t, outcome settings mode s p = some (.ok t) → t.written = true →
        s.locate t.output ≠ .ok l := fun p hp t hok ht hlocate => hl ⟨p, hp, t, hok, ht, hlocate⟩
    rw [h₁.others l hnone, h₂.others l fun p hp => hnone p ((hsame p).2 hp)]

theorem distinct_of_nodup (h : (ps.filterMap settings.outputPath?).Nodup) : Distinct settings ps := by
  have hpairs := List.pairwise_filterMap.1 h
  intro p hp q hq o hout hout'
  have hsame := List.Pairwise.forall_of_forall_of_flip (R := fun p q => settings.outputPath? p = some o →
    settings.outputPath? q = some o → p = q) (fun _ _ _ _ => rfl) (hpairs.imp fun hne hp hq => absurd rfl (hne o hp o hq))
    (hpairs.imp fun hne hq hp => absurd rfl (hne o hp o hq))
  exact hsame hp hq hout hout'

/-- The order in which files are worked on makes no difference: neither one after another in another order (`orders`), nor
in turns (`turns`).  What is aborted in one order is in every order. -/
structure Unordered (settings : Settings) (mode : Mode) (s : Store) (root : Path) (ps : List Path) : Prop where
  orders : ∀ qs, qs.Perm ps → Store.Same (run settings mode s root).1 (translateAll settings mode s qs).1 ∧
    ((run settings mode s root).2 = none ↔ (translateAll settings mode s qs).2 = none) ∧
    ∀ outcomes', (translateAll settings mode s qs).2 = some outcomes' → ∃ outcomes, outcomes.Perm outcomes' ∧
      outcomes.map (·.1) = ps ∧ (run settings mode s root).2 = some (.ok (collect outcomes))
  turns : ∀ s' outcomes, Turns settings mode (s, allWaiting ps) (s', allDone outcomes) →
    Store.Same (run settings mode s root).1 s' ∧ (run settings mode s root).2 = some (.ok (collect outcomes))

/-- The same files in another order have the same outcomes, in that order. -/
theorem outcomes_perm {qs : List Path} {s₁ s₂ : Store} {outcomes' : List (Path × Except Diagnostic Translated)}
    (hapart : Apart settings s ps) (hperm : qs.Perm ps)
    (h : Turns settings mode (s, allWaiting ps) (s₁, allDone outcomes))
    (h' : Turns settings mode (s, allWaiting qs) (s₂, allDone outcomes')) : outcomes.Perm outcomes' := by
  have hapart' : Apart settings s qs := hapart.of_mem fun p => hperm.mem_iff.1
  refine (List.map_perm_map_iff injective_some).1 ?_
  rw [outcomes_of_turns hapart h, outcomes_of_turns hapart' h']
  exact (hperm.map _).symm

/-- Where turns can finish every file, the run is not aborted. -/
theorem run_ne_none (hfound : s.discover root settings.inputExtension = .ok ps) (hapart : Apart settings s ps)
    (h : Turns settings mode (s, allWaiting ps) (s', allDone outcomes)) : (run settings mode s root).2 ≠ none := by
  intro hnone
  obtain ⟨hslash, ps', hfound', p, hp, t, hlower⟩ := run_eq_none.1 hnone
  obtain rfl : ps = ps' := Except.ok.inj (hfound.symm.trans hfound')
  have haborts : outcome settings mode s p = none := outcome_of_none (prepare_eq_none.2 ⟨hslash, t, hlower⟩)
  have hmem : (p, outcome settings mode s p) ∈ outcomes.map fun z => (z.1, some z.2) := by
    rw [outcomes_of_turns hapart h]
    exact List.mem_map.2 ⟨p, hp, rfl⟩
  obtain ⟨z, -, hz⟩ := List.mem_map.1 hmem
  rw [haborts] at hz
  cases hz

/-- **Turns that finish every file give the report of the run**, and the same files. -/
theorem run_of_turns (hfound : s.discover root settings.inputExtension = .ok ps) (hapart : Apart settings s ps)
    (hdistinct : Distinct settings ps) (h : Turns settings mode (s, allWaiting ps) (s', allDone outcomes)) :
    Store.Same (run settings mode s root).1 s' ∧ (run settings mode s root).2 = some (.ok (collect outcomes)) := by
  obtain ⟨r, hr⟩ := Option.ne_none_iff_exists'.1 (run_ne_none hfound hapart h)
  obtain ⟨outcomes', hall, rfl⟩ := exists_outcomes hfound hr
  have hturns : Turns settings mode (s, allWaiting ps) _ := turns_translateAll [] hall
  obtain rfl : outcomes' = outcomes :=
    List.map_injective_iff.2 injective_some ((outcomes_of_turns hapart hturns).trans (outcomes_of_turns hapart h).symm)
  exact ⟨(results_of_turns hapart hdistinct hturns).same (results_of_turns hapart hdistinct h) fun _ => Iff.rfl, hr⟩

/-- **Files can be worked on in any order** where no output path is a file's path or another file's output path. -/
theorem run_unordered (hfound : s.discover root settings.inputExtension = .ok ps)
    (hdistinct : (ps.filterMap settings.outputPath?).Nodup) (hsources : ∀ o ∈ ps.filterMap settings.outputPath?, o ∉ ps) :
    Unordered settings mode s root ps := by
  obtain ⟨dirOf, hfiles⟩ := sources_of_discover hfound
  have hapart : Apart settings s ps := apart_of_outputs hfiles fun p hp o hout =>
    hsources o (List.mem_filterMap.2 ⟨p, hp, hout⟩)
  have hdistinct := distinct_of_nodup hdistinct
  refine ⟨fun qs hperm => ?_, fun s' outcomes h => run_of_turns hfound hapart hdistinct h⟩
  have haborts : (run settings mode s root).2 = none ↔ (translateAll settings mode s qs).2 = none := by
    rw [run_of_found hfound, Option.map_eq_none_iff, translateAll_eq_none, translateAll_eq_none]
    simp only [hperm.mem_iff]
  rcases hall : translateAll settings mode s qs with ⟨s₁, _ | outcomes'⟩
  · rw [hall] at haborts
    have hnone := haborts.2 rfl
    have hkept : (translateAll settings mode s qs).1 = s := translateAll_of_slash (run_eq_none.1 hnone).1 s qs
    rw [hall] at hkept
    refine ⟨?_, haborts, by simp⟩
    rw [run_aborted hnone, hkept]
    exact ⟨rfl, fun _ => rfl⟩
  · rw [hall] at haborts
    obtain ⟨r, hr⟩ := Option.ne_none_iff_exists'.1 (mt haborts.1 (by simp))
    obtain ⟨outcomes, hrun, rfl⟩ := exists_outcomes hfound hr
    have hturns : Turns settings mode (s, allWaiting ps) _ := turns_translateAll [] hrun
    have hturns' : Turns settings mode (s, allWaiting qs) _ := turns_translateAll [] hall
    have hmem : ∀ p ∈ qs, p ∈ ps := fun p => hperm.mem_iff.1
    have hapart' := hapart.of_mem hmem
    have hresults' := results_of_turns hapart' (fun p hp q hq => hdistinct p (hmem p hp) q (hmem q hq)) hturns'
    refine ⟨(results_of_turns hapart hdistinct hturns).same hresults' fun p => hperm.mem_iff.symm, haborts, ?_⟩
    rintro _ ⟨⟩
    exact ⟨outcomes, outcomes_perm hapart hperm hturns hturns',
      by simpa [allDone, Function.comp_def] using (account_translateAll hrun).paths, hr⟩

theorem run_unordered_checkable :
    Unordered {maxDepth := 3} .write checkable ".".toList ["./..mbx".toList, "./a.mbx".toList, "./b.mbx".toList] :=
  run_unordered (by rfl) (by decide +kernel) (by decide +kernel)

end Batch
end InlineMarkup
