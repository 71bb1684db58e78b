import InlineMarkup.Batch
import InlineMarkup.Proofs.Discovered
import InlineMarkup.Proofs.OutputPaths
import Mathlib.Logic.Relation
/-!
# Proofs.Accounting — what a batch reports and what it changes

The work on a file is two accesses to the store: its text is read and lowered, and the result is written.  Files that are
worked on in parallel take these turns in any order (`Turn`).  Each turn keeps the account of the batch (`Account`), so
the report of every run names each discovered file once, and only what it names as written has changed
(`ends_accounts`).  A run that returns nothing was aborted by a file without an output path, and it has changed nothing
(`run_eq_none`, `run_aborted`).
-/
namespace InlineMarkup.Batch

/-! ## Turns -/

/-- Where the work on a file stands. -/
inductive Task where
  | waiting
  | lowered (output : Path) (t : Text)
  | done (r : Except Diagnostic Translated)
  | aborted
  deriving DecidableEq

/-- Where the work on a file stands in the end. -/
def Task.over : Option (Except Diagnostic Translated) → Task
  | some r => .done r
  | none => .aborted

/-- The next access to the store for a file. -/
def advance (settings : Settings) (mode : Mode) (s : Store) (p : Path) : Task → Store × Task
  | .waiting =>
    match prepare settings s p with
    | none => (s, .aborted)
    | some (.error d) => (s, .done (.error d))
    | some (.ok (output, t)) =>
      match mode with
      | .check => (s, .done (.ok ⟨p, output, false⟩))
      | .write => (s, .lowered output t)
  | .lowered output t =>
    match s.writeText output t with
    | .ok s' => (s', .done (.ok ⟨p, output, true⟩))
    | .error f => (s, .done (.error (f.report output)))
  | .done r => (s, .done r)
  | .aborted => (s, .aborted)

/-- One of the files takes its turn. -/
inductive Turn (settings : Settings) (mode : Mode) : Store × List (Path × Task) → Store × List (Path × Task) → Prop
  | intro (s : Store) (pre : List (Path × Task)) (p : Path) (t : Task) (post : List (Path × Task)) :
    Turn settings mode (s, pre ++ (p, t) :: post)
      ((advance settings mode s p t).1, pre ++ (p, (advance settings mode s p t).2) :: post)

abbrev Turns (settings : Settings) (mode : Mode) := Relation.ReflTransGen (Turn settings mode)

def allWaiting (ps : List Path) : List (Path × Task) := ps.map fun p => (p, .waiting)

def allDone (outcomes : List (Path × Except Diagnostic Translated)) : List (Path × Task) :=
  outcomes.map fun x => (x.1, .done x.2)

theorem mem_allDone {outcomes : List (Path × Except Diagnostic Translated)} {p : Path} {r : Except Diagnostic Translated} :
    (p, Task.done r) ∈ allDone outcomes ↔ (p, r) ∈ outcomes := by
  simp [allDone]

/-- How a batch that returns can end: as it does one file after another, or, in parallel, after the turns of its files in
any order. -/
inductive Ends (settings : Settings) (mode : Mode) (s : Store) (root : Path) : Store × Except Diagnostic Report → Prop
  | inOrder {r : Except Diagnostic Report} (returned : (run settings mode s root).2 = some r) :
    Ends settings mode s root ((run settings mode s root).1, r)
  | interleaved {ps : List Path} {s' : Store} {outcomes : List (Path × Except Diagnostic Translated)}
    (parallel : settings.parallel = true) (found : s.discover root settings.inputExtension = .ok ps)
    (turns : Turns settings mode (s, allWaiting ps) (s', allDone outcomes)) :
    Ends settings mode s root (s', .ok (collect outcomes))

variable {settings : Settings} {mode : Mode} {s s₀ s' : Store} {p root : Path} {ps : List Path}
  {outcomes : List (Path × Except Diagnostic Translated)}

theorem advance_twice (settings : Settings) (mode : Mode) (s : Store) (p : Path) :
    advance settings mode (advance settings mode s p .waiting).1 p (advance settings mode s p .waiting).2 =
      ((translateFile settings mode s p).1, .over (translateFile settings mode s p).2) := by
  unfold translateFile
  cases hp : prepare settings s p with
  | none => simp [advance, hp, Task.over]
  | some x =>
    cases x with
    | error d => simp [advance, hp, Task.over]
    | ok y =>
      cases mode with
      | check => simp [advance, hp, Task.over]
      | write => cases hw : s.writeText y.1 y.2 <;> simp [advance, hp, hw, Task.over]

/-- **What is returned for a row of files**: something for each of them. -/
theorem translateAll_cons_eq_some : translateAll settings mode s (p :: ps) = (s', some outcomes) ↔
    ∃ s₁ r rest, translateFile settings mode s p = (s₁, some r) ∧ translateAll settings mode s₁ ps = (s', some rest) ∧
      outcomes = (p, r) :: rest := by
  rw [translateAll]
  rcases translateFile settings mode s p with ⟨s₁, _ | r⟩
  · simp
  · rcases hrest : translateAll settings mode s₁ ps with ⟨s₂, _ | rest⟩
    · simp [hrest]
    · simp [hrest, eq_comm]

/-- **One file after another is an order of turns**, whatever has been done before. -/
theorem turns_translateAll (pre : List (Path × Task)) (h : translateAll settings mode s ps = (s', some outcomes)) :
    Turns settings mode (s, pre ++ allWaiting ps) (s', pre ++ allDone outcomes) := by
  induction ps generalizing pre s outcomes with
  | nil =>
    cases h
    exact .refl
  | cons p ps ih =>
    obtain ⟨s₁, r, rest, hfile, hrest, rfl⟩ := translateAll_cons_eq_some.1 h
    have hread : Turn settings mode _ _ := .intro s pre p .waiting (allWaiting ps)
    have hwrite : Turn settings mode _ _ := .intro (advance settings mode s p .waiting).1 pre p
      (advance settings mode s p .waiting).2 (allWaiting ps)
    rw [advance_twice, hfile] at hwrite
    have hturns := ih (pre ++ [(p, .done r)]) hrest
    rw [List.append_assoc, List.append_assoc] at hturns
    exact .head hread (.head hwrite hturns)

theorem run_of_refused {f : AccessFault} (h : s.discover root settings.inputExtension = .error f) :
    run settings mode s root = (s, some (.error (f.report root))) := by
  rw [run, h]

theorem run_of_found (h : s.discover root settings.inputExtension = .ok ps) : run settings mode s root =
    ((translateAll settings mode s ps).1, (translateAll settings mode s ps).2.map fun outcomes => .ok (collect outcomes)) := by
  rw [run, h]

theorem exists_outcomes {r : Except Diagnostic Report} (hfound : s.discover root settings.inputExtension = .ok ps)
    (h : (run settings mode s root).2 = some r) : ∃ outcomes,
      translateAll settings mode s ps = ((run settings mode s root).1, some outcomes) ∧ r = .ok (collect outcomes) := by
  rw [run_of_found hfound] at h ⊢
  obtain ⟨outcomes, hall, rfl⟩ := Option.map_eq_some_iff.1 h
  exact ⟨outcomes, Prod.ext rfl hall, rfl⟩

/-! ## The account of a batch -/

/-- **What is prepared** is the lowered form of what is read, for the output path. -/
theorem prepare_eq_ok {output : Path} {written : Text} : prepare settings s p = some (.ok (output, written)) ↔
    ∃ t, s.readText p = .ok t ∧ ((⟨String.ofList p, t⟩ : Document).translate settings).result = .ok written ∧
      settings.outputPath? p = some output := by
  unfold prepare lower
  cases hread : s.readText p with
  | error f => simp [Except.mapError, bind, Except.bind]
  | ok t =>
    cases htranslate : ((⟨String.ofList p, t⟩ : Document).translate settings).result with
    | error d => simp [Except.mapError, bind, Except.bind, htranslate]
    | ok written' =>
      cases hout : settings.outputPath? p with
      | none => simp [Except.mapError, bind, Except.bind, htranslate]
      | some output' => simp [Except.mapError, bind, Except.bind, htranslate, and_comm]

theorem prepare_eq_none : prepare settings s p = none ↔
    '/' ∈ settings.outputExtension ∧ ∃ t, lower settings s p = .ok t := by
  rw [← Settings.outputPath?_eq_none (p := p)]
  unfold prepare
  cases lower settings s p <;> simp

/-- What the state of a task says about it. -/
def Task.Fits (settings : Settings) (mode : Mode) (p : Path) : Task → Prop
  | .lowered output _ => mode = .write ∧ settings.outputPath? p = some output
  | .done (.ok t) => t.input = p ∧ settings.outputPath? p = some t.output ∧ t.written = (mode == .write)
  | .aborted => '/' ∈ settings.outputExtension
  | _ => True

theorem fits_advance {t : Task} (h : t.Fits settings mode p) :
    (advance settings mode s p t).2.Fits settings mode p := by
  cases t with
  | waiting =>
    cases hp : prepare settings s p with
    | none => simp [advance, hp, Task.Fits, (prepare_eq_none.1 hp).1]
    | some x =>
      cases x with
      | error d => simp [advance, hp, Task.Fits]
      | ok y =>
        obtain ⟨-, -, -, hout⟩ := prepare_eq_ok.1 hp
        cases mode <;> simp [advance, hp, Task.Fits, hout]
  | lowered output t =>
    obtain ⟨rfl, hout⟩ := h
    cases hw : s.writeText output t <;> simp [advance, hw, Task.Fits, hout]
  | done r => exact h
  | aborted => exact h

theorem advance_waiting (settings : Settings) (mode : Mode) (s : Store) (p : Path) :
    (advance settings mode s p .waiting).1 = s := by
  cases hp : prepare settings s p with
  | none => simp [advance, hp]
  | some x =>
    cases x with
    | error d => simp [advance, hp]
    | ok y => cases mode <;> simp [advance, hp]

/-- **A turn changes nothing unless it ends the work on a file** by writing it. -/
theorem advance_cases (settings : Settings) (s : Store) {t : Task} (h : t.Fits settings mode p) :
    (advance settings mode s p t).1 = s ∨ mode = .write ∧ ∃ output text s', s.writeText output text = .ok s' ∧
      advance settings mode s p t = (s', .done (.ok ⟨p, output, true⟩)) := by
  cases t with
  | waiting => exact .inl (advance_waiting settings mode s p)
  | lowered output text =>
    cases hw : s.writeText output text with
    | error f => exact .inl (by simp [advance, hw])
    | ok s' => exact .inr ⟨h.1, output, text, s', hw, by simp [advance, hw]⟩
  | done r => exact .inl rfl
  | aborted => exact .inl rfl

/-- What the files and the store have to do with each other at any time. -/
structure Account (settings : Settings) (mode : Mode) (s₀ : Store) (ps : List Path) (x : Store × List (Path × Task)) :
    Prop where
  paths : x.2.map (·.1) = ps
  fits : ∀ y ∈ x.2, y.2.Fits settings mode y.1
  folders : Store.SameFolders s₀ x.1
  kept : mode = .check ∨ '/' ∈ settings.outputExtension → x.1 = s₀
  frame : ∀ l, x.1.lookup l ≠ s₀.lookup l →
    ∃ p t, (p, Task.done (.ok t)) ∈ x.2 ∧ s₀.locate t.output = .ok l

theorem account_allWaiting (settings : Settings) (mode : Mode) (s : Store) (ps : List Path) :
    Account settings mode s ps (s, allWaiting ps) where
  paths := by simp [allWaiting, Function.comp_def]
  fits := by simp [allWaiting, Task.Fits]
  folders := .refl s
  kept _ := rfl
  frame l h := absurd rfl h

theorem done_of_turn {pre post : List (Path × Task)} {q : Path} {t : Task} {r : Except Diagnostic Translated}
    (h : (q, Task.done r) ∈ pre ++ (p, t) :: post) :
    (q, Task.done r) ∈ pre ++ (p, (advance settings mode s p t).2) :: post := by
  simp only [List.mem_append, List.mem_cons, Prod.mk.injEq] at h ⊢
  rcases h with h | ⟨rfl, rfl⟩ | h
  · exact .inl h
  · exact .inr (.inl ⟨rfl, rfl⟩)
  · exact .inr (.inr h)

/-- **Each turn keeps the account.** -/
theorem account_turn {x y : Store × List (Path × Task)} (h : Turn settings mode x y)
    (hx : Account settings mode s₀ ps x) : Account settings mode s₀ ps y := by
  obtain ⟨s, pre, p, t, post⟩ := h
  have ht : t.Fits settings mode p := hx.fits (p, t) (by simp)
  have hpaths : (pre ++ (p, (advance settings mode s p t).2) :: post).map (·.1) = ps := by simpa using hx.paths
  have hfits : ∀ y ∈ pre ++ (p, (advance settings mode s p t).2) :: post, y.2.Fits settings mode y.1 := by
    intro y hy
    simp only [List.mem_append, List.mem_cons] at hy
    rcases hy with hy | rfl | hy
    · exact hx.fits y (by simp [hy])
    · exact fits_advance ht
    · exact hx.fits y (by simp [hy])
  have hkept : ∀ l, s.lookup l ≠ s₀.lookup l →
      ∃ q u, (q, Task.done (.ok u)) ∈ pre ++ (p, (advance settings mode s p t).2) :: post ∧ s₀.locate u.output = .ok l := by
    intro l hl
    obtain ⟨q, u, hmem, hlocate⟩ := hx.frame l hl
    exact ⟨q, u, done_of_turn hmem, hlocate⟩
  rcases advance_cases settings s ht with hsame | ⟨hmode, output, text, s', hwrite, hdone⟩
  · rw [hsame]
    exact ⟨hpaths, hfits, hx.folders, hx.kept, hkept⟩
  · obtain ⟨l, hlocate, hfolders, -, hothers⟩ := Store.writeText_ok hwrite
    rw [hdone] at hpaths hfits hkept ⊢
    refine ⟨hpaths, hfits, hx.folders.trans hfolders, ?_, fun l' hl' => ?_⟩
    · rintro (hcheck | hslash)
      · rw [hmode] at hcheck
        cases hcheck
      · obtain ⟨-, hout, -⟩ := hfits (p, .done (.ok ⟨p, output, true⟩)) (by simp)
        exact absurd hslash (Settings.not_slash_of_outputPath? hout)
    · by_cases heq : l' = l
      · exact ⟨p, ⟨p, output, true⟩, by simp, hx.folders.locate_iff.1 (heq ▸ hlocate)⟩
      · exact hkept l' (hothers l' heq ▸ hl')

theorem account_turns {x y : Store × List (Path × Task)} (h : Turns settings mode x y)
    (hx : Account settings mode s₀ ps x) : Account settings mode s₀ ps y := by
  induction h with
  | refl => exact hx
  | tail _ hturn ih => exact account_turn hturn ih

theorem account_translateAll (h : translateAll settings mode s ps = (s', some outcomes)) :
    Account settings mode s ps (s', allDone outcomes) :=
  account_turns (turns_translateAll [] h) (account_allWaiting settings mode s ps)

/-! ## Runs that are aborted -/

/-- **A parallel run that a file aborts has changed nothing**, whatever turns the files have taken. -/
theorem turns_aborted {tasks : List (Path × Task)} (h : Turns settings mode (s, allWaiting ps) (s', tasks))
    (habort : (p, Task.aborted) ∈ tasks) : s' = s := by
  have haccount := account_turns h (account_allWaiting settings mode s ps)
  exact haccount.kept (.inr (haccount.fits _ habort))

theorem translateFile_eq_none : (translateFile settings mode s p).2 = none ↔
    '/' ∈ settings.outputExtension ∧ ∃ t, lower settings s p = .ok t := by
  rw [← prepare_eq_none]
  unfold translateFile
  cases prepare settings s p with
  | none => simp
  | some x =>
    cases x with
    | error d => simp
    | ok y =>
      cases mode with
      | check => simp
      | write => cases hw : s.writeText y.1 y.2 <;> simp [hw]

theorem translateFile_of_slash {r : Option (Except Diagnostic Translated)} (h : '/' ∈ settings.outputExtension)
    (hfile : translateFile settings mode s p = (s', r)) : s' = s := by
  obtain rfl : (translateFile settings mode s p).1 = s' := congrArg Prod.fst hfile
  unfold translateFile
  cases hp : prepare settings s p with
  | none => rfl
  | some x =>
    cases x with
    | error d => rfl
    | ok y =>
      obtain ⟨-, -, -, hout⟩ := prepare_eq_ok.1 hp
      exact absurd h (Settings.not_slash_of_outputPath? hout)

theorem translateAll_of_slash (h : '/' ∈ settings.outputExtension) (s : Store) (ps : List Path) :
    (translateAll settings mode s ps).1 = s := by
  induction ps generalizing s with
  | nil => rfl
  | cons p ps ih =>
    rw [translateAll]
    rcases hfile : translateFile settings mode s p with ⟨s₁, _ | r⟩
    · exact translateFile_of_slash h hfile
    · exact (ih s₁).trans (translateFile_of_slash h hfile)

theorem translateAll_eq_none : (translateAll settings mode s ps).2 = none ↔
    '/' ∈ settings.outputExtension ∧ ∃ p ∈ ps, ∃ t, lower settings s p = .ok t := by
  induction ps generalizing s with
  | nil => simp [translateAll]
  | cons p ps ih =>
    have hfirst := @translateFile_eq_none settings mode s p
    rw [translateAll, List.exists_mem_cons_iff, and_or_left]
    rcases hfile : translateFile settings mode s p with ⟨s₁, _ | r⟩
    · rw [hfile] at hfirst
      exact iff_of_true rfl (.inl (hfirst.1 rfl))
    · rw [hfile] at hfirst
      have hnot : ¬('/' ∈ settings.outputExtension ∧ ∃ t, lower settings s p = .ok t) := fun h => by cases hfirst.2 h
      rw [or_iff_right hnot]
      dsimp only
      rw [Option.map_eq_none_iff, ih]
      -- a file that does not abort the run has changed nothing either
      refine and_congr_right fun hslash => ?_
      rw [translateFile_of_slash hslash hfile]

/-- **When a run is aborted**: the extension of outputs has a slash, and a file can be lowered. -/
theorem run_eq_none : (run settings mode s root).2 = none ↔ '/' ∈ settings.outputExtension ∧
    ∃ ps, s.discover root settings.inputExtension = .ok ps ∧ ∃ p ∈ ps, ∃ t, lower settings s p = .ok t := by
  unfold run
  cases s.discover root settings.inputExtension with
  | error f => simp
  | ok ps => simp [translateAll_eq_none]

theorem run_aborted (h : (run settings mode s root).2 = none) : (run settings mode s root).1 = s := by
  obtain ⟨hslash, ps, hfound, -⟩ := run_eq_none.1 h
  rw [run_of_found hfound]
  exact translateAll_of_slash hslash s ps

/-! ## The report -/

theorem mem_collect {outcomes : List (Path × Except Diagnostic Translated)} {t : Translated} :
    t ∈ (collect outcomes).translated ↔ ∃ p, (p, .ok t) ∈ outcomes := by
  simp only [collect, List.mem_filterMap, Prod.exists]
  constructor
  · rintro ⟨p, r, hmem, hr⟩
    cases r with
    | error d => cases hr
    | ok u =>
      cases hr
      exact ⟨p, hmem⟩
  · rintro ⟨p, hmem⟩
    exact ⟨p, .ok t, hmem, rfl⟩

def isOk (x : Path × Except Diagnostic Translated) : Bool := x.2.isOk

theorem collect_paths {outcomes : List (Path × Except Diagnostic Translated)}
    (h : ∀ p t, (p, .ok t) ∈ outcomes → t.input = p) :
    (collect outcomes).translated.map (·.input) = (outcomes.filter isOk).map (·.1) ∧
      (collect outcomes).failures.map (·.path) = (outcomes.filter fun x => !isOk x).map (·.1) := by
  induction outcomes with
  | nil => exact ⟨rfl, rfl⟩
  | cons x outcomes ih =>
    obtain ⟨p, r⟩ := x
    obtain ⟨htranslated, hfailures⟩ := ih fun q t hq => h q t (List.mem_cons_of_mem _ hq)
    cases r with
    | error d => exact ⟨htranslated, congrArg (p :: ·) hfailures⟩
    | ok t =>
      obtain rfl := h p t List.mem_cons_self
      exact ⟨congrArg (t.input :: ·) htranslated, hfailures⟩

/-- What a batch accounts for: each discovered file once and in order, and nothing has changed but what it says it has
written. -/
structure Accounts (settings : Settings) (mode : Mode) (s : Store) (root : Path)
    (out : Store × Except Diagnostic Report) : Prop where
  refused : ∀ f, s.discover root settings.inputExtension = .error f → out = (s, .error (f.report root))
  finished : ∀ ps, s.discover root settings.inputExtension = .ok ps → ∃ report, out.2 = .ok report ∧ ps.Nodup ∧
    (report.translated.map (·.input) ++ report.failures.map (·.path)).Perm ps ∧
    (report.translated.map (·.input)).Sublist ps ∧ (report.failures.map (·.path)).Sublist ps ∧
    ∀ t ∈ report.translated, settings.outputPath? t.input = some t.output ∧ t.written = (mode == .write)
  unchanged : (mode = .check ∨ ∃ d, out.2 = .error d) → out.1 = s
  places : ∀ q l, out.1.locate q = .ok l ↔ s.locate q = .ok l
  frame : ∀ l, out.1.lookup l ≠ s.lookup l → ∃ report, out.2 = .ok report ∧
    ∃ t ∈ report.translated, s.locate t.output = .ok l

theorem accounts_refused {f : AccessFault} (h : s.discover root settings.inputExtension = .error f) :
    Accounts settings mode s root (s, .error (f.report root)) where
  refused f' h' := by
    rw [h] at h'
    cases h'
    rfl
  finished ps h' := by
    rw [h] at h'
    cases h'
  unchanged _ := rfl
  places _ _ := Iff.rfl
  frame l hl := absurd rfl hl

theorem accounts_turns (hfound : s.discover root settings.inputExtension = .ok ps)
    (h : Turns settings mode (s, allWaiting ps) (s', allDone outcomes)) :
    Accounts settings mode s root (s', .ok (collect outcomes)) := by
  have haccount := account_turns h (account_allWaiting settings mode s ps)
  have hfits : ∀ p t, (p, .ok t) ∈ outcomes →
      t.input = p ∧ settings.outputPath? p = some t.output ∧ t.written = (mode == .write) := fun p t ht =>
    haccount.fits _ (mem_allDone.2 ht)
  have hpaths : outcomes.map (·.1) = ps := by simpa [allDone, Function.comp_def] using haccount.paths
  obtain ⟨htranslated, hfailures⟩ := collect_paths fun p t ht => (hfits p t ht).1
  refine ⟨fun f hf => ?_, fun ps' hps' => ?_, ?_, fun _ _ => haccount.folders.locate_iff, fun l hl => ?_⟩
  · rw [hfound] at hf
    cases hf
  · rw [hfound] at hps'
    cases hps'
    refine ⟨collect outcomes, rfl, (Store.discover_ok hfound).1, ?_, ?_, ?_, fun t ht => ?_⟩
    · rw [htranslated, hfailures, ← hpaths, ← List.map_append]
      exact (List.filter_append_perm isOk outcomes).map _
    · rw [htranslated, ← hpaths]
      exact List.filter_sublist.map _
    · rw [hfailures, ← hpaths]
      exact List.filter_sublist.map _
    · obtain ⟨p, hp⟩ := mem_collect.1 ht
      obtain ⟨rfl, hwritten⟩ := hfits p t hp
      exact hwritten
  · rintro (hcheck | ⟨d, hd⟩)
    · exact haccount.kept (.inl hcheck)
    · cases hd
  · obtain ⟨p, t, hmem, hlocate⟩ := haccount.frame l hl
    exact ⟨collect outcomes, rfl, t, mem_collect.2 ⟨p, mem_allDone.1 hmem⟩, hlocate⟩

/-- **Every run of a batch accounts for its files.** -/
theorem ends_accounts {out : Store × Except Diagnostic Report} (h : Ends settings mode s root out) :
    Accounts settings mode s root out := by
  cases h with
  | interleaved _ hfound hturns => exact accounts_turns hfound hturns
  | inOrder hrun =>
    cases hfound : s.discover root settings.inputExtension with
    | error f =>
      rw [run_of_refused hfound] at hrun ⊢
      cases hrun
      exact accounts_refused hfound
    | ok ps =>
      obtain ⟨outcomes, hall, rfl⟩ := exists_outcomes hfound hrun
      exact accounts_turns hfound (turns_translateAll [] hall)

/-- A file that can be lowered and one that cannot. -/
def mixed : Store :=
  (({} : Store).add ["a.mbx".toList] (.file (.text "let a = 1\n".toList))).add ["b.mbx".toList]
    (.file (.text "<a>text</b>".toList))

/-- Two files that can be lowered. -/
def pair : Store :=
  (({} : Store).add ["a.mbx".toList] (.file (.text "let a = 1\n".toList))).add ["b.mbx".toList]
    (.file (.text "let b = 2\n".toList))

theorem turn_first {t t' : Task} {x : Path × Task} (h : advance settings mode s p t = (s', t')) :
    Turn settings mode (s, [(p, t), x]) (s', [(p, t'), x]) := by
  have hturn : Turn settings mode _ _ := .intro s [] p t [x]
  rwa [h] at hturn

theorem turn_second {t t' : Task} {x : Path × Task} (h : advance settings mode s p t = (s', t')) :
    Turn settings mode (s, [x, (p, t)]) (s', [x, (p, t')]) := by
  have hturn : Turn settings mode _ _ := .intro s [x] p t []
  rwa [h] at hturn

/-- Both files are read before one of them is written, and the later one is written first. -/
theorem turns_pair : ∃ s', Turns {parallel := true} .write
    (pair, allWaiting ["./a.mbx".toList, "./b.mbx".toList])
    (s', allDone [("./a.mbx".toList, .ok ⟨"./a.mbx".toList, "./a.mbt".toList, true⟩),
      ("./b.mbx".toList, .ok ⟨"./b.mbx".toList, "./b.mbt".toList, true⟩)]) := by
  have hreadA : (advance {parallel := true} .write pair "./a.mbx".toList .waiting).2 =
      .lowered "./a.mbt".toList "let a = 1\n".toList := by decide +kernel
  have hreadB : (advance {parallel := true} .write pair "./b.mbx".toList .waiting).2 =
      .lowered "./b.mbt".toList "let b = 2\n".toList := by decide +kernel
  have hwriteB : (advance {parallel := true} .write pair "./b.mbx".toList
      (.lowered "./b.mbt".toList "let b = 2\n".toList)).2 =
      .done (.ok ⟨"./b.mbx".toList, "./b.mbt".toList, true⟩) := by decide +kernel
  have hwriteA : (advance {parallel := true} .write (advance {parallel := true} .write pair "./b.mbx".toList
      (.lowered "./b.mbt".toList "let b = 2\n".toList)).1 "./a.mbx".toList
      (.lowered "./a.mbt".toList "let a = 1\n".toList)).2 =
      .done (.ok ⟨"./a.mbx".toList, "./a.mbt".toList, true⟩) := by decide +kernel
  exact ⟨_, .head (turn_first (Prod.ext (advance_waiting _ _ _ _) hreadA))
    (.head (turn_second (Prod.ext (advance_waiting _ _ _ _) hreadB))
      (.head (turn_second (Prod.ext rfl hwriteB)) (.single (turn_first (Prod.ext rfl hwriteA)))))⟩

theorem ends_accounts_mixed :
    (∃ report, (run {parallel := true} .write mixed ".".toList).2 = some (.ok report) ∧
      Accounts {parallel := true} .write mixed ".".toList
        ((run {parallel := true} .write mixed ".".toList).1, .ok report) ∧
      report.translated = [⟨"./a.mbx".toList, "./a.mbt".toList, true⟩] ∧
      report.failures.map (·.path) = ["./b.mbx".toList]) ∧
    ∃ s' outcomes, Turns {parallel := true} .write (pair, allWaiting ["./a.mbx".toList, "./b.mbx".toList])
        (s', allDone outcomes) ∧
      Accounts {parallel := true} .write pair ".".toList (s', .ok (collect outcomes)) ∧
      (collect outcomes).translated = [⟨"./a.mbx".toList, "./a.mbt".toList, true⟩,
        ⟨"./b.mbx".toList, "./b.mbt".toList, true⟩] := by
  constructor
  · have hreport : (run {parallel := true} .write mixed ".".toList).2.map
        (·.toOption.map fun r => (r.translated, r.failures.map (·.path))) =
        some (some ([⟨"./a.mbx".toList, "./a.mbt".toList, true⟩], ["./b.mbx".toList])) := by decide +kernel
    obtain ⟨_ | report, hrun, hlists⟩ := Option.map_eq_some_iff.1 hreport
    · cases hlists
    · obtain ⟨htranslated, hfailures⟩ := Prod.mk.inj (Option.some.inj hlists)
      exact ⟨report, hrun, ends_accounts (.inOrder hrun), htranslated, hfailures⟩
  · obtain ⟨s', hturns⟩ := turns_pair
    exact ⟨s', _, hturns, ends_accounts (.interleaved rfl (by decide +kernel) hturns), rfl⟩

end InlineMarkup.Batch
