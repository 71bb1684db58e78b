import InlineMarkup.Proofs.Foreseen
import InlineMarkup.Proofs.PathOrder
/-!
# Proofs.Sources — what a batch leaves of its sources

Settings are accepted when the extensions of sources and outputs differ as a whole.  What the extension of an output path
is depends on what follows the last dot alone, so this keeps outputs from being sources unless the extension of outputs
has a dot in it (`ofDocument_outputs`, `run_overwrites_source`).  Where outputs are no sources, a batch changes no file
that has the extension of sources, and the same files are found again (`keeps_of_ends`).
-/
namespace InlineMarkup

/-! ## Settings that are accepted -/

theorem Text.sameAsciiFold_comm (a b : Text) : sameAsciiFold a b = sameAsciiFold b a := by
  rw [Bool.eq_iff_iff, sameAsciiFold_iff, sameAsciiFold_iff]
  exact eq_comm

theorem Settings.checked_ok {s settings : Settings} (h : s.checked = .ok settings) :
    settings.outputExtension ≠ [] ∧ Text.sameAsciiFold settings.outputExtension settings.inputExtension = false := by
  unfold checked at h
  split at h
  · cases h
  · dsimp only at h
    split at h
    · cases h
    · next hempty =>
      split at h
      · cases h
      · next hsame =>
        split at h
        · cases h
        · cases h
          rw [Text.sameAsciiFold_comm]
          simp_all

theorem Settings.ofDocument_ok {doc : Document} {settings : Settings} (h : ofDocument doc = .ok settings) :
    ∃ s : Settings, s.checked = .ok settings := by
  unfold ofDocument at h
  split at h
  · cases h
  · next s _ =>
    cases hchecked : s.checked with
    | error f => rw [hchecked] at h; cases h
    | ok s' =>
      rw [hchecked] at h
      cases h
      exact ⟨s, hchecked⟩

/-! ## Files that are found again -/

namespace Store

variable {s : Store} {root p : Path} {l : Location} {extension : Text}

theorem eq_root_of_discover (hl : s.locate root = .ok l) (hd : s.lookup l ≠ some .directory) {ps : List Path}
    (h : s.discover root extension = .ok ps) (hp : p ∈ ps) : p = root := by
  obtain ⟨l', c, hentry, rfl⟩ | ⟨l', hentry, rfl⟩ := discover_eq_ok.1 h
  · exact List.mem_singleton.1 (List.mem_filter.1 hp).1
  · obtain ⟨hl', hd'⟩ := entry_eq_ok.1 hentry
    obtain rfl : l = l' := Except.ok.inj (hl.symm.trans hl')
    exact absurd hd' hd

end Store

namespace Batch

variable {settings : Settings} {mode : Mode} {s s' : Store} {p root : Path} {ps : List Path} {l : Location}
  {x : Store × List (Path × Task)} {out : Store × Except Diagnostic Report}

/-! ## Runs -/

/-- Nothing has changed where a path with the extension of sources leads. -/
theorem Account.lookup_extension (hnonempty : settings.outputExtension ≠ [])
    (hdistinct : Text.sameAsciiFold (Text.afterLast '.' settings.outputExtension) settings.inputExtension = false)
    (hfound : s.discover root settings.inputExtension = .ok ps) (h : Account settings mode s ps x)
    (hp : p.hasExtension settings.inputExtension = true) (hl : s.locate p = .ok l) : x.1.lookup l = s.lookup l := by
  by_contra hchanged
  obtain ⟨q, t, hmem, hlocate⟩ := h.frame l hchanged
  obtain ⟨-, hout, -⟩ := h.fits _ hmem
  have hd : s.lookup l ≠ some .directory := fun hd => hchanged (((h.folders.lookup l).2 hd).trans hd.symm)
  obtain ⟨dirOf, hps⟩ := sources_of_discover hfound
  obtain ⟨above, stem, e, hsource⟩ := hps q (h.mem hmem)
  obtain ⟨-, hwritten⟩ :=
    hsource.output ⟨Settings.not_slash_of_outputPath? hout, hnonempty, hdistinct⟩ hout hlocate hd
  obtain ⟨dir, above', n, rfl, rfl, hleads⟩ := Store.exists_leads hl hd
  -- the name that is written ends in the extension of outputs, whatever path leads to it
  obtain ⟨-, hname⟩ := List.append_inj' hwritten rfl
  obtain rfl := List.singleton_inj.1 hname
  unfold Path.hasExtension at hp
  rw [Path.extension?_of_isName hleads.isFolderPart hleads.isName, Path.cutName_extended hsource.stem] at hp
  exact Bool.false_ne_true (hdistinct.symm.trans hp)

/-- What a batch leaves of the files that have the extension of sources: they are as they were (`files`), those it has
found among them (`sources`), and the same ones are found again (`again`). -/
structure Keeps (settings : Settings) (s : Store) (root : Path) (s' : Store) : Prop where
  files : ∀ p : Path, p.hasExtension settings.inputExtension = true → ∀ x, s'.entry p = .ok x ↔ s.entry p = .ok x
  sources : ∀ ps, s.discover root settings.inputExtension = .ok ps → ∀ p ∈ ps, s'.entry p = s.entry p
  again : s'.discover root settings.inputExtension = s.discover root settings.inputExtension

theorem Keeps.refl (settings : Settings) (s : Store) (root : Path) : Keeps settings s root s where
  files _ _ _ := Iff.rfl
  sources _ _ _ _ := rfl
  again := rfl

/-- The root is a folder, or a source, or nothing has changed. -/
theorem Account.lookup_root (hfound : s.discover root settings.inputExtension = .ok ps) (h : Account settings mode s ps x)
    (hext : root.hasExtension settings.inputExtension ≠ true) (hl : s.locate root = .ok l) :
    x.1.lookup l = s.lookup l := by
  by_cases hd : s.lookup l = some .directory
  · rw [(h.folders.lookup l).2 hd, hd]
  · by_contra hchanged
    obtain ⟨q, t, hmem, -⟩ := h.frame l hchanged
    have hq := h.mem hmem
    obtain ⟨-, dirOf, hps⟩ := Store.discover_ok hfound
    exact hext (Store.eq_root_of_discover hl hd hfound hq ▸ (hps q hq).1)

/-- **A batch whose outputs are no sources keeps its sources.** -/
theorem keeps_of_ends (hnonempty : settings.outputExtension ≠ [])
    (hdistinct : Text.sameAsciiFold (Text.afterLast '.' settings.outputExtension) settings.inputExtension = false)
    (h : Ends settings mode s root out) : Keeps settings s root out.1 := by
  cases hfound : s.discover root settings.inputExtension with
  | error f =>
    rw [ends_of_error h hfound]
    exact .refl settings s root
  | ok ps =>
    obtain ⟨outcomes, hturns, -⟩ := exists_turns h hfound
    have haccount := account_turns hturns (account_allWaiting settings mode s ps)
    have hentry : ∀ p : Path, (∀ l, s.locate p = .ok l → out.1.lookup l = s.lookup l) →
        ∀ x, out.1.entry p = .ok x ↔ s.entry p = .ok x := by
      rintro p hp ⟨l, e⟩
      rw [Store.entry_eq_ok, Store.entry_eq_ok, haccount.folders.locate_iff]
      exact and_congr_right fun hl => by rw [hp l hl]
    have hfiles := fun p hp => hentry p fun l => haccount.lookup_extension hnonempty hdistinct hfound hp
    have hroot : ∀ x, out.1.entry root = .ok x ↔ s.entry root = .ok x := by
      by_cases hext : root.hasExtension settings.inputExtension = true
      · exact hfiles root hext
      · exact hentry root fun l => haccount.lookup_root hfound hext
    refine ⟨hfiles, fun ps' hfound' p hp => ?_, ?_⟩
    · obtain ⟨-, dirOf, hps⟩ := Store.discover_ok hfound'
      obtain ⟨hext, above, n, hfile⟩ := hps p hp
      obtain ⟨c, hc⟩ := hfile.file
      have hentry : s.entry p = .ok (above ++ [n], .file c) := Store.entry_eq_ok.2 ⟨hfile.path ▸ hfile.leads.locate, hc⟩
      rw [hentry]
      exact (hfiles p hext _).2 hentry
    · rw [hfound]
      exact Store.discover_congr hroot hfiles hfound

/-! ## Accepted settings -/

/-- The output path of a source: another extension in the same folder, or, for a source whose stem is a dot, the folder
above. -/
inductive Beside (settings : Settings) (p o : Path) : Prop
  | renamed (folder : List Path.Component) (stem e : Text)
    (source : p.components = folder ++ [.name (stem ++ '.' :: e)])
    (extension : Text.sameAsciiFold e settings.inputExtension = true)
    (output : o.components = folder ++ [.name (stem ++ '.' :: settings.outputExtension)])
    (matching : o.hasExtension settings.inputExtension =
      Text.sameAsciiFold (Text.afterLast '.' settings.outputExtension) settings.inputExtension)
  | above (folder : List Path.Component) (e : Text)
    (source : p.components = folder ++ [.name ('.' :: '.' :: e)])
    (extension : Text.sameAsciiFold e settings.inputExtension = true)
    (output : o.components = folder ++ [.up])
    (matching : o.hasExtension settings.inputExtension = false)

theorem beside_of_outputPath? {o : Path} (hnonempty : settings.outputExtension ≠ [])
    (hp : p.hasExtension settings.inputExtension = true) (hout : settings.outputPath? p = some o) :
    Beside settings p o := by
  have hslash := Settings.not_slash_of_outputPath? hout
  obtain ⟨dir, stem, e, t, h, hext⟩ := Path.exists_of_hasExtension hp
  obtain ⟨folder, hsource, houtput⟩ := h.components_output hslash hnonempty hout
  have hmatching := h.hasExtension_output hslash hnonempty hout settings.inputExtension
  by_cases hup : stem = ['.'] ∧ t = []
  · rw [if_pos hup] at houtput hmatching
    rw [hup.1] at hsource
    exact .above folder e hsource hext houtput hmatching
  · rw [if_neg hup] at houtput hmatching
    exact .renamed folder stem e hsource hext houtput hmatching

/-- What accepted settings say about outputs.  There is an output path unless the extension of outputs has a slash; then
the first file that can be lowered aborts a run, and nothing has changed.  The output path is beside the source.  Only what
follows a dot in that extension can be the extension of sources, and as long as it is not, sources are kept. -/
structure Guarantees (settings : Settings) : Prop where
  defined : ∀ p, settings.outputPath? p = none ↔ '/' ∈ settings.outputExtension
  aborted : ∀ mode s root, (run settings mode s root).2 = none ↔ '/' ∈ settings.outputExtension ∧
    ∃ ps, s.discover root settings.inputExtension = .ok ps ∧ ∃ p ∈ ps, ∃ t, lower settings s p = .ok t
  unchanged : ∀ mode s root, (run settings mode s root).2 = none → (run settings mode s root).1 = s
  beside : ∀ p o, p.hasExtension settings.inputExtension = true → settings.outputPath? p = some o → Beside settings p o
  dotted : Text.sameAsciiFold (Text.afterLast '.' settings.outputExtension) settings.inputExtension = true →
    '.' ∈ settings.outputExtension
  keeps : Text.sameAsciiFold (Text.afterLast '.' settings.outputExtension) settings.inputExtension = false →
    ∀ mode s root out, Ends settings mode s root out → Keeps settings s root out.1

/-- **Accepted settings keep outputs from being sources**, unless a dot in the extension of outputs hides that of
sources. -/
theorem ofDocument_outputs {doc : Document} (h : Settings.ofDocument doc = .ok settings) : Guarantees settings := by
  obtain ⟨_, hchecked⟩ := Settings.ofDocument_ok h
  obtain ⟨hnonempty, hdistinct⟩ := Settings.checked_ok hchecked
  refine ⟨fun p => Settings.outputPath?_eq_none, fun mode s root => run_eq_none, fun mode s root => run_aborted,
    fun p o => beside_of_outputPath? hnonempty, fun hsame => ?_, fun hlast mode s root out => keeps_of_ends hnonempty hlast⟩
  by_contra hdot
  rw [Text.afterLast_of_notMem hdot, hdistinct] at hsame
  cases hsame

theorem ofDocument_outputs_dotted : Guarantees {outputExtension := "gen.mbt".toList} := by
  have haccepted : Settings.ofDocument ⟨"mbx.yaml", "output_extension: gen.mbt\n".toList⟩ =
      .ok {outputExtension := "gen.mbt".toList} := by decide +kernel
  exact ofDocument_outputs haccepted

-- an accepted extension that is none, and a run that it aborts
example : Settings.ofDocument ⟨"mbx.yaml", "output_extension: gen/mbt\n".toList⟩ =
      .ok {outputExtension := "gen/mbt".toList} ∧
    (run {outputExtension := "gen/mbt".toList} .write mixed ".".toList).2 = none := by decide +kernel

/-- Two sources, one of them with the output path of the other for the extension `gen.mbx`. -/
def clashing : Store :=
  (({} : Store).add ["a.mbx".toList] (.file (.text "let a = 1\n".toList))).add ["a.gen.mbx".toList]
    (.file (.text "let a = 2\n".toList))

theorem run_overwrites_source :
    Settings.ofDocument ⟨"mbx.yaml", "output_extension: gen.mbx\n".toList⟩ = .ok {outputExtension := "gen.mbx".toList} ∧
      clashing.discover ".".toList "mbx".toList = .ok ["./a.gen.mbx".toList, "./a.mbx".toList] ∧
      clashing.readText "./a.gen.mbx".toList = .ok "let a = 2\n".toList ∧
      (run {outputExtension := "gen.mbx".toList} .write clashing ".".toList).1.readText "./a.gen.mbx".toList =
        .ok "let a = 1\n".toList ∧
      (run {outputExtension := "gen.mbx".toList} .write clashing ".".toList).1.discover ".".toList "mbx".toList =
        .ok ["./a.gen.gen.mbx".toList, "./a.gen.mbx".toList, "./a.mbx".toList] :=
  ⟨by decide +kernel, by decide +kernel, by decide +kernel, by decide +kernel, by decide +kernel⟩

end Batch
end InlineMarkup
