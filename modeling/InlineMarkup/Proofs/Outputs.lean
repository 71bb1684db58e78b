import InlineMarkup.Proofs.Accounting
import InlineMarkup.Proofs.OutputPaths
/-!
# Proofs.Outputs — what is at the output paths after a batch

No output is a source, so every file is lowered from what was there before the batch.  Two sources have one output path
when their extensions differ in the case of letters, and then the later one stays (`run_outputs`,
`run_overwrites_folded`).
-/
namespace InlineMarkup

/-- The extension of outputs is one, and what follows its last dot is not that of sources. -/
structure Settings.Separates (settings : Settings) : Prop where
  slash : '/' ∉ settings.outputExtension
  nonempty : settings.outputExtension ≠ []
  distinct : Text.sameAsciiFold (Text.afterLast '.' settings.outputExtension) settings.inputExtension = false

theorem Settings.separates_default : Settings.Separates {} where
  slash := by decide
  nonempty := by decide
  distinct := by decide

/-- No output path has the extension of sources. -/
theorem Settings.Separates.hasExtension_output {settings : Settings} (hset : settings.Separates) {p o : Path}
    (hp : p.hasExtension settings.inputExtension = true) (hout : settings.outputPath? p = some o) :
    o.hasExtension settings.inputExtension = false := by
  obtain ⟨dir, stem, e, t, h, -⟩ := Path.exists_of_hasExtension hp
  rw [h.hasExtension_output hset.slash hset.nonempty hout, hset.distinct, ite_self]

namespace Batch

variable {settings : Settings} {s s₁ s' : Store} {dirOf : Location → Path} {p q o : Path} {ps : List Path}
  {l above : Location} {n stem e : Text} {outcomes : List (Path × Except Diagnostic Translated)}

/-! ## Sources and their outputs -/

structure IsSource (settings : Settings) (s : Store) (dirOf : Location → Path) (p : Path) (above : Location)
    (stem e : Text) : Prop where
  file : s.IsFile dirOf p above (stem ++ '.' :: e)
  stem : stem ≠ []
  dot : '.' ∉ e
  extension : Text.sameAsciiFold e settings.inputExtension = true

theorem exists_isSource (hext : p.hasExtension settings.inputExtension = true) (hfile : s.IsFile dirOf p above n) :
    ∃ stem e, IsSource settings s dirOf p above stem e := by
  rw [hfile.path, Path.hasExtension_iff hfile.leads.isFolderPart hfile.leads.isName] at hext
  obtain ⟨stem, e, rfl, hstem, hdot, hfold⟩ := hext
  exact ⟨stem, e, hfile, hstem, hdot, hfold⟩

theorem sources_of_discover {root : Path} (hfound : s.discover root settings.inputExtension = .ok ps) :
    ∃ dirOf, ∀ p ∈ ps, ∃ above stem e, IsSource settings s dirOf p above stem e := by
  obtain ⟨-, dirOf, hps⟩ := Store.discover_ok hfound
  refine ⟨dirOf, fun p hp => ?_⟩
  obtain ⟨hext, above, n, hfile⟩ := hps p hp
  obtain ⟨stem, e, hsource⟩ := exists_isSource hext hfile
  exact ⟨above, stem, e, hsource⟩

theorem IsSource.hasExtension (h : IsSource settings s dirOf p above stem e) :
    p.hasExtension settings.inputExtension = true := by
  rw [h.file.path, Path.hasExtension_iff h.file.leads.isFolderPart h.file.leads.isName]
  exact ⟨stem, e, rfl, h.stem, h.dot, h.extension⟩

theorem IsSource.locate (h : IsSource settings s dirOf p above stem e) :
    s.locate p = .ok (above ++ [stem ++ '.' :: e]) := by
  rw [h.file.path]
  exact h.file.leads.locate

/-- The output path of a source leads on from the folder of the source. -/
theorem IsSource.locate_output (h : IsSource settings s dirOf p above stem e) (hout : settings.outputPath? p = some o) :
    ∃ m, '/' ∉ m ∧ o = dirOf above ++ m ∧ s.locate o = .ok (Store.onward above m) := by
  have hleads := h.file.leads
  have hslash := Settings.not_slash_of_outputPath? hout
  have hstem : '/' ∉ stem := fun hmem => Store.not_slash_of_isName hleads.isName (by simp [hmem])
  unfold Settings.outputPath? at hout
  rw [h.file.path, Path.withExtension?_append hleads.isFolderPart hleads.isName h.stem h.dot hslash] at hout
  obtain ⟨m, hm, hne, rfl⟩ : ∃ m, '/' ∉ m ∧ m ≠ [] ∧ o = dirOf above ++ m := by
    refine ⟨_, ?_, ?_, (Option.some.inj hout).symm⟩
    · split
      · decide
      · split <;> simp [hstem, hslash]
    · split <;> simp [h.stem]
  refine ⟨m, hm, rfl, ?_⟩
  rw [Store.locate_append s hleads.isFolderPart hm (by simp [hne]), hleads.folder]
  exact Store.step_eq_ok.2 ⟨hleads.directory, rfl⟩

/-- An output that goes to no folder is in the folder of its source. -/
theorem IsSource.leads_output (h : IsSource settings s dirOf p above stem e) (hout : settings.outputPath? p = some o)
    (hl : s.locate o = .ok l) (hd : s.lookup l ≠ some .directory) : ∃ m, o = dirOf above ++ m ∧ l = above ++ [m] := by
  obtain ⟨m, hm, ho, hlocate⟩ := h.locate_output hout
  obtain rfl : Store.onward above m = l := Except.ok.inj (hlocate.symm.trans hl)
  exact ⟨m, ho, Store.onward_of_isName (Store.isName_of_onward h.file.leads.directory hm hd)⟩

/-- **Where the output of a source goes**, unless to a folder. -/
theorem IsSource.output (hset : settings.Separates) (h : IsSource settings s dirOf p above stem e)
    (hout : settings.outputPath? p = some o) (hl : s.locate o = .ok l) (hd : s.lookup l ≠ some .directory) :
    o = dirOf above ++ (stem ++ '.' :: settings.outputExtension) ∧
      l = above ++ [stem ++ '.' :: settings.outputExtension] := by
  have hleads := h.file.leads
  unfold Settings.outputPath? at hout
  rw [h.file.path, Path.withExtension?_eq hleads.isFolderPart hleads.isName h.stem h.dot hset.slash hset.nonempty] at hout
  obtain rfl := Option.some.inj hout
  by_cases hdot : stem = ['.']
  · rw [if_pos hdot, Store.locate_append s hleads.isFolderPart (by decide) (by simp), hleads.folder] at hl
    obtain ⟨-, rfl⟩ := Store.step_eq_ok.1 hl
    exact absurd (Store.lookup_dropLast hleads.directory) hd
  · rw [if_neg hdot] at hl ⊢
    have hname := Path.isName_extended hleads.isName h.stem hset.slash hset.nonempty
    rw [(hleads.other hname).locate] at hl
    exact ⟨rfl, (Except.ok.inj hl).symm⟩

theorem IsSource.same (hset : settings.Separates) {o' : Path} {above' : Location} {stem' e' : Text}
    (h : IsSource settings s dirOf p above stem e) (h' : IsSource settings s dirOf q above' stem' e')
    (hout : settings.outputPath? p = some o) (hout' : settings.outputPath? q = some o')
    (hd : s.lookup l ≠ some .directory) (hl : s.locate o = .ok l) (hl' : s.locate o' = .ok l) :
    o = o' ∧ above = above' ∧ stem = stem' := by
  obtain ⟨rfl, rfl⟩ := h.output hset hout hl hd
  obtain ⟨rfl, hname⟩ := h'.output hset hout' hl' hd
  obtain ⟨rfl, hlast⟩ := List.append_inj' hname rfl
  obtain rfl := List.append_cancel_right (List.singleton_inj.1 hlast)
  exact ⟨rfl, rfl, rfl⟩

/-! ## Files that do not meet -/

/-- No output is a source, and one location has one output path. -/
structure Apart (settings : Settings) (s : Store) (ps : List Path) : Prop where
  located : ∀ p ∈ ps, ∃ l, s.locate p = .ok l ∧ s.lookup l ≠ some .directory
  placed : ∀ p ∈ ps, ∀ o, settings.outputPath? p = some o → ∃ l, s.locate o = .ok l
  sources : ∀ p ∈ ps, ∀ q ∈ ps, ∀ o, settings.outputPath? q = some o → ∀ l, s.locate p = .ok l → s.locate o ≠ .ok l
  outputs : ∀ p ∈ ps, ∀ q ∈ ps, ∀ o o', settings.outputPath? p = some o → settings.outputPath? q = some o' →
    ∀ l, s.lookup l ≠ some .directory → s.locate o = .ok l → s.locate o' = .ok l → o = o'

/-- **Files whose paths are no output paths do not meet.** -/
theorem apart_of_outputs (hps : ∀ p ∈ ps, ∃ above stem e, IsSource settings s dirOf p above stem e)
    (houtputs : ∀ p ∈ ps, ∀ o, settings.outputPath? p = some o → o ∉ ps) : Apart settings s ps where
  located p hp := by
    obtain ⟨above, stem, e, h⟩ := hps p hp
    obtain ⟨c, hc⟩ := h.file.file
    exact ⟨_, h.locate, by simp [hc]⟩
  placed p hp o hout := by
    obtain ⟨above, stem, e, h⟩ := hps p hp
    obtain ⟨m, -, -, hlocate⟩ := h.locate_output hout
    exact ⟨_, hlocate⟩
  sources p hp q hq o hout l hl ho := by
    obtain ⟨above, stem, e, h⟩ := hps p hp
    obtain ⟨above', stem', e', h'⟩ := hps q hq
    obtain ⟨c, hc⟩ := h.file.file
    obtain rfl : above ++ [stem ++ '.' :: e] = l := Except.ok.inj (h.locate.symm.trans hl)
    obtain ⟨m, ho', hm⟩ := h'.leads_output hout ho (by simp [hc])
    -- the folder and the name of a location are those of the path
    obtain ⟨rfl, hname⟩ := List.append_inj' hm rfl
    rw [← List.singleton_inj.1 hname, ← h.file.path] at ho'
    exact houtputs q hq o hout (ho' ▸ hp)
  outputs p hp q hq o o' hout hout' l hd hl hl' := by
    obtain ⟨above, stem, e, h⟩ := hps p hp
    obtain ⟨above', stem', e', h'⟩ := hps q hq
    obtain ⟨m, ho, hm⟩ := h.leads_output hout hl hd
    obtain ⟨m', ho', hm'⟩ := h'.leads_output hout' hl' hd
    obtain ⟨rfl, hname⟩ := List.append_inj' (hm.symm.trans hm') rfl
    rw [ho, ho', List.singleton_inj.1 hname]

theorem apart_sources (hset : settings.Separates)
    (hps : ∀ p ∈ ps, ∃ above stem e, IsSource settings s dirOf p above stem e) : Apart settings s ps := by
  refine apart_of_outputs hps fun p hp o hout ho => ?_
  obtain ⟨above, stem, e, h⟩ := hps p hp
  obtain ⟨above', stem', e', h'⟩ := hps o ho
  exact Bool.false_ne_true ((hset.hasExtension_output h.hasExtension hout).symm.trans h'.hasExtension)

theorem Apart.of_mem {qs : List Path} (h : Apart settings s ps) (hmem : ∀ p ∈ qs, p ∈ ps) : Apart settings s qs where
  located p hp := h.located p (hmem p hp)
  placed p hp := h.placed p (hmem p hp)
  sources p hp q hq := h.sources p (hmem p hp) q (hmem q hq)
  outputs p hp q hq := h.outputs p (hmem p hp) q (hmem q hq)

theorem Apart.tail (h : Apart settings s (p :: ps)) : Apart settings s ps :=
  h.of_mem fun _ => List.mem_cons_of_mem p

theorem Apart.congr (h : Apart settings s ps) (hs : Store.SameFolders s s') : Apart settings s' ps where
  located p hp := by
    obtain ⟨l, hl, hd⟩ := h.located p hp
    exact ⟨l, hs.locate_iff.2 hl, fun hd' => hd ((hs.lookup l).1 hd')⟩
  placed p hp o hout := by
    obtain ⟨l, hl⟩ := h.placed p hp o hout
    exact ⟨l, hs.locate_iff.2 hl⟩
  sources p hp q hq o ho l hl hl' := h.sources p hp q hq o ho l (hs.locate_iff.1 hl) (hs.locate_iff.1 hl')
  outputs p hp q hq o o' ho ho' l hd hl hl' :=
    h.outputs p hp q hq o o' ho ho' l (fun hd' => hd ((hs.lookup l).2 hd')) (hs.locate_iff.1 hl) (hs.locate_iff.1 hl')

/-! ## One file -/

/-- **What one file changes** in a batch that writes. -/
theorem translateFile_cases (settings : Settings) (s : Store) (p : Path) :
    ((translateFile settings .write s p).1 = s ∧ ∀ t, (translateFile settings .write s p).2 ≠ some (.ok t)) ∨
      ∃ output text s', prepare settings s p = some (.ok (output, text)) ∧ s.writeText output text = .ok s' ∧
        translateFile settings .write s p = (s', some (.ok ⟨p, output, true⟩)) := by
  unfold translateFile
  cases hp : prepare settings s p with
  | none => exact .inl ⟨rfl, by simp⟩
  | some x =>
    cases x with
    | error d => exact .inl ⟨rfl, by simp⟩
    | ok y =>
      cases hw : s.writeText y.1 y.2 with
      | error f => exact .inl ⟨by simp [hw], by simp [hw]⟩
      | ok s' => exact .inr ⟨y.1, y.2, s', rfl, hw, by simp [hw]⟩

theorem prepare_congr (hl : s.locate p = .ok l) (hl' : s'.locate p = .ok l) (h : s'.lookup l = s.lookup l) :
    prepare settings s' p = prepare settings s p := by
  unfold prepare lower Store.readText Store.entry
  rw [hl, hl']
  simp only [bind, Except.bind, h]

/-- The next file leaves the sources of the others as they are. -/
theorem translateFile_keeps (h : Apart settings s (p :: ps)) :
    Store.SameFolders s (translateFile settings .write s p).1 ∧
      ∀ q ∈ ps, prepare settings (translateFile settings .write s p).1 q = prepare settings s q := by
  rcases translateFile_cases settings s p with ⟨hs, -⟩ | ⟨output, text, s', hp, hw, hs⟩
  · rw [hs]
    exact ⟨.refl s, fun _ _ => rfl⟩
  · obtain ⟨l, hl, hfolders, -, hothers⟩ := Store.writeText_ok hw
    obtain ⟨-, -, -, hout⟩ := prepare_eq_ok.1 hp
    rw [hs]
    refine ⟨hfolders, fun q hq => ?_⟩
    obtain ⟨lq, hlq, -⟩ := h.located q (List.mem_cons_of_mem _ hq)
    have hne : lq ≠ l := by
      rintro rfl
      exact h.sources q (List.mem_cons_of_mem _ hq) p List.mem_cons_self output hout lq hlq hl
    exact prepare_congr hlq (hfolders.locate_iff.2 hlq) (hothers lq hne)

/-! ## All files -/

/-- The last of the files that goes to a path, and its lowered form. -/
structure LastWrite (settings : Settings) (s : Store) (files : List Translated) (o : Path) (last : Translated)
    (text : Text) : Prop where
  output : last.output = o
  split : ∃ before after, files = before ++ last :: after ∧ ∀ u ∈ after, u.output ≠ o
  prepared : prepare settings s last.input = some (.ok (o, text))

theorem LastWrite.mem {files : List Translated} {last : Translated} {text : Text}
    (h : LastWrite settings s files o last text) : last ∈ files := by
  obtain ⟨before, after, rfl, -⟩ := h.split
  exact List.mem_append_right before List.mem_cons_self

theorem LastWrite.prepend {files : List Translated} {last : Translated} {text : Text}
    (h : LastWrite settings s' files o last text) (first : List Translated)
    (hs : prepare settings s' last.input = prepare settings s last.input) :
    LastWrite settings s (first ++ files) o last text := by
  obtain ⟨before, after, hsplit, hafter⟩ := h.split
  exact ⟨h.output, ⟨first ++ before, after, by rw [hsplit, List.append_assoc], hafter⟩, hs ▸ h.prepared⟩

theorem mem_translated (hall : translateAll settings .write s ps = (s', some outcomes)) {u : Translated}
    (hu : u ∈ (collect outcomes).translated) : u.input ∈ ps ∧ settings.outputPath? u.input = some u.output := by
  have haccount := account_translateAll hall
  obtain ⟨p, hp⟩ := mem_collect.1 hu
  have hmem : (p, Task.done (.ok u)) ∈ allDone outcomes := mem_allDone.2 hp
  obtain ⟨rfl, hout, -⟩ := haccount.fits _ hmem
  refine ⟨?_, hout⟩
  rw [← haccount.paths]
  exact List.mem_map.2 ⟨_, hmem, rfl⟩

theorem exists_of_lookup_ne (hall : translateAll settings .write s ps = (s', some outcomes))
    (h : s'.lookup l ≠ s.lookup l) : ∃ u ∈ (collect outcomes).translated, s.locate u.output = .ok l := by
  obtain ⟨p, u, hmem, hl⟩ := (account_translateAll hall).frame l h
  exact ⟨u, mem_collect.2 ⟨p, mem_allDone.1 hmem⟩, hl⟩

theorem collect_cons (p : Path) (r : Except Diagnostic Translated) (outcomes : List (Path × Except Diagnostic Translated)) :
    (collect ((p, r) :: outcomes)).translated = r.toOption.toList ++ (collect outcomes).translated := by
  cases r <;> rfl

/-- What is written stays while no file goes to its path. -/
theorem lookup_after_write {text : Text} (h : Apart settings s (p :: ps))
    (hp : prepare settings s p = some (.ok (o, text))) (hw : s.writeText o text = .ok s₁)
    (hall : translateAll settings .write s₁ ps = (s', some outcomes))
    (hothers : ∀ u ∈ (collect outcomes).translated, u.output ≠ o) :
    ∃ l, s.locate o = .ok l ∧ s'.lookup l = some (.file (.text text)) := by
  obtain ⟨l, hl, hfolders, htext, -⟩ := Store.writeText_ok hw
  refine ⟨l, hl, ?_⟩
  rw [← htext]
  by_contra hchanged
  obtain ⟨u, hu, hul⟩ := exists_of_lookup_ne hall hchanged
  obtain ⟨hmem, hout⟩ := mem_translated hall hu
  obtain ⟨-, -, -, hout'⟩ := prepare_eq_ok.1 hp
  exact hothers u hu (h.outputs _ (List.mem_cons_of_mem _ hmem) p List.mem_cons_self _ _ hout hout' l
    (hfolders.ne_directory htext) (hfolders.locate_iff.1 hul) hl)

/-- **The last write stays.** -/
theorem exists_lastWrite (h : Apart settings s ps) (hall : translateAll settings .write s ps = (s', some outcomes))
    {t : Translated} (ht : t ∈ (collect outcomes).translated) :
    ∃ last text l, LastWrite settings s (collect outcomes).translated t.output last text ∧
      s.locate t.output = .ok l ∧ s'.lookup l = some (.file (.text text)) := by
  induction ps generalizing s outcomes t with
  | nil =>
    cases hall
    cases ht
  | cons p ps ih =>
    obtain ⟨s₁, r, rest, hfile, hrest, rfl⟩ := translateAll_cons_eq_some.1 hall
    obtain ⟨hfolders, hkeeps⟩ := translateFile_keeps h
    rw [hfile] at hfolders hkeeps
    rw [collect_cons] at ht ⊢
    by_cases hlater : ∃ u ∈ (collect rest).translated, u.output = t.output
    · obtain ⟨u, hu, hout⟩ := hlater
      obtain ⟨last, text, l, hlast, hl, htext⟩ := ih (h.tail.congr hfolders) hrest hu
      rw [hout] at hlast hl
      exact ⟨last, text, l, hlast.prepend _ (hkeeps _ (mem_translated hrest hlast.mem).1), hfolders.locate_iff.1 hl, htext⟩
    · have hothers : ∀ u ∈ (collect rest).translated, u.output ≠ t.output := fun u hu hout => hlater ⟨u, hu, hout⟩
      rcases translateFile_cases settings s p with ⟨-, hfails⟩ | ⟨output, text, s₂, hp, hw, hs⟩
      · rw [hfile] at hfails
        cases r with
        | error d => exact absurd rfl (hothers t ht)
        | ok u => exact absurd rfl (hfails u)
      · rw [hfile] at hs
        obtain ⟨rfl, hr⟩ := Prod.mk.inj hs
        obtain rfl := Option.some.inj hr
        obtain rfl : t = ⟨p, output, true⟩ := by
          rcases List.mem_append.1 ht with hfirst | hlater
          · exact List.mem_singleton.1 hfirst
          · exact absurd rfl (hothers t hlater)
        obtain ⟨l, hl, htext⟩ := lookup_after_write h hp hw hrest hothers
        exact ⟨_, text, l, ⟨rfl, ⟨[], _, rfl, hothers⟩, hp⟩, hl, htext⟩

/-! ## The whole batch -/

/-- What is at the output path of a file after a batch: the lowered form of what the last file that goes there held before.
The paths of the two differ at most in the case of letters in the extension. -/
structure HoldsLast (s s' : Store) (files : List Translated) (t last : Translated) : Prop where
  output : last.output = t.output
  split : ∃ before after, files = before ++ last :: after ∧ ∀ u ∈ after, u.output ≠ t.output
  inputs : ∃ stem e e', t.input = stem ++ '.' :: e ∧ last.input = stem ++ '.' :: e' ∧
    Text.sameAsciiFold e "mbx".toList = true ∧ Text.sameAsciiFold e' "mbx".toList = true
  content : ∃ text written, s.readText last.input = .ok text ∧
    ((⟨String.ofList last.input, text⟩ : Document).translate {}).result = .ok written ∧
    s'.readText t.output = .ok written

/-- **The outputs of a batch.**  A file whose output is no other's is itself the last one that goes there. -/
theorem run_outputs {root : Path} {report : Report} (h : (run {} .write s root).2 = some (.ok report)) {t : Translated}
    (ht : t ∈ report.translated) : ∃ last, HoldsLast s (run {} .write s root).1 report.translated t last := by
  cases hfound : s.discover root ({} : Settings).inputExtension with
  | error f =>
    rw [run_of_refused hfound] at h
    cases h
  | ok ps =>
    obtain ⟨outcomes, hall, hreport⟩ := exists_outcomes hfound h
    obtain rfl := Except.ok.inj hreport
    obtain ⟨dirOf, hsources⟩ := sources_of_discover hfound
    have hset := Settings.separates_default
    obtain ⟨last, written, l, hlast, hl, hthere⟩ := exists_lastWrite (apart_sources hset hsources) hall ht
    have hfolders := (account_translateAll hall).folders
    obtain ⟨htmem, htout⟩ := mem_translated hall ht
    obtain ⟨hlmem, hlout⟩ := mem_translated hall hlast.mem
    obtain ⟨above, stem, e, hsource⟩ := hsources _ htmem
    obtain ⟨above', stem', e', hsource'⟩ := hsources _ hlmem
    obtain ⟨-, rfl, rfl⟩ :=
      hsource.same hset hsource' htout hlout (hfolders.ne_directory hthere) hl (hlast.output ▸ hl)
    obtain ⟨text, htext, htranslate, -⟩ := prepare_eq_ok.1 hlast.prepared
    refine ⟨last, hlast.output, hlast.split,
      ⟨dirOf above ++ stem, e, e', ?_, ?_, hsource.extension, hsource'.extension⟩,
      text, written, htext, htranslate, Store.readText_eq_ok.2 ⟨l, hfolders.locate_iff.2 hl, hthere⟩⟩
    · rw [hsource.file.path, List.append_assoc]
    · rw [hsource'.file.path, List.append_assoc]

/-- Two files whose names differ in the case of the extension. -/
def folded : Store :=
  (({} : Store).add ["a.MBX".toList] (.file (.text "let a = 1\n".toList))).add ["a.mbx".toList]
    (.file (.text "let a = 2\n".toList))

theorem run_folded : ∃ report, (run {} .write folded ".".toList).2 = some (.ok report) ∧ report.translated =
    [⟨"./a.MBX".toList, "./a.mbt".toList, true⟩, ⟨"./a.mbx".toList, "./a.mbt".toList, true⟩] := by
  have hreport : (run {} .write folded ".".toList).2.map (·.toOption.map (·.translated)) =
      some (some [⟨"./a.MBX".toList, "./a.mbt".toList, true⟩, ⟨"./a.mbx".toList, "./a.mbt".toList, true⟩]) := by
    decide +kernel
  obtain ⟨_ | report, hrun, htranslated⟩ := Option.map_eq_some_iff.1 hreport
  · cases htranslated
  · exact ⟨report, hrun, Option.some.inj htranslated⟩

theorem run_outputs_folded : ∃ report t, (run {} .write folded ".".toList).2 = some (.ok report) ∧ t ∈ report.translated ∧
    t.input = "./a.MBX".toList ∧ ∃ last, HoldsLast folded (run {} .write folded ".".toList).1 report.translated t last := by
  obtain ⟨report, hrun, htranslated⟩ := run_folded
  have hmem : ⟨"./a.MBX".toList, "./a.mbt".toList, true⟩ ∈ report.translated := by simp [htranslated]
  exact ⟨report, _, hrun, hmem, rfl, run_outputs hrun hmem⟩

/-- **A file is lost to one whose extension is the same in lower case**: it is reported as written, and what is at its
output path is not its lowered form. -/
theorem run_overwrites_folded : ∃ report t written, (run {} .write folded ".".toList).2 = some (.ok report) ∧
    t ∈ report.translated ∧ t.written = true ∧
    (∃ text, folded.readText t.input = .ok text ∧
      ((⟨String.ofList t.input, text⟩ : Document).translate {}).result = .ok written) ∧
    (run {} .write folded ".".toList).1.readText t.output ≠ .ok written := by
  obtain ⟨report, hrun, htranslated⟩ := run_folded
  refine ⟨report, ⟨"./a.MBX".toList, "./a.mbt".toList, true⟩, "let a = 1\n".toList, hrun, by simp [htranslated], rfl,
    ⟨"let a = 1\n".toList, by decide +kernel, by decide +kernel⟩, by decide +kernel⟩

end Batch
end InlineMarkup
