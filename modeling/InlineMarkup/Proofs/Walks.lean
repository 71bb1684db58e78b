import InlineMarkup.Proofs.OutputPaths
import InlineMarkup.Proofs.PathOrder
import Mathlib.Tactic.Choose
/-!
# Proofs.Walks — files come by on a walk

A walk goes through a folder entry by entry, and through everything below an entry before the next one; the order of the
entries of a folder is left open (`Walk`).  Every walk comes by every file below its root, and once by each
(`Walk.mem_iff`, `Walk.nodup`).  So what is discovered is what any walk finds, those with the extension put in order
(`discover_of_walk`), and it does not depend on the walk.
-/
namespace InlineMarkup.Store

variable {s s' : Store} {root p q : Path} {l : Location} {e : Entry} {extension : Text} {found : List Path}

/-! ## Files below a path -/

theorem below_file {c : Content} (h : s.lookup l = some (.file c)) : s.Below p l q ↔ q = p := by
  constructor
  · rintro ⟨names, c', rfl, hfile⟩
    by_cases hne : names = []
    · rw [hne, List.foldl_nil]
    · rw [lookup_above hfile hne] at h
      cases h
  · rintro rfl
    exact ⟨[], c, rfl, by rwa [List.append_nil]⟩

theorem below_folder (h : s.lookup l = some .directory) :
    s.Below p l q ↔ ∃ n, (s.lookup (l ++ [n])).isSome = true ∧ s.Below (p.join n) (l ++ [n]) q := by
  constructor
  · rintro ⟨names, c, rfl, hfile⟩
    cases names with
    | nil =>
      rw [List.append_nil, h] at hfile
      cases hfile
    | cons n names =>
      rw [List.append_cons] at hfile
      refine ⟨n, ?_, names, c, rfl, hfile⟩
      by_cases hne : names = []
      · rw [hne, List.append_nil] at hfile
        rw [hfile]
        rfl
      · rw [lookup_above hfile hne]
        rfl
  · rintro ⟨n, -, names, c, rfl, hfile⟩
    exact ⟨n :: names, c, rfl, by rwa [List.append_cons]⟩

/-! ## Walks -/

/-- A walk from a path that leads to a location, and the files that it comes by.  The entries of a folder are visited in
some order, each of them once. -/
inductive Walk (s : Store) : Path → Location → List Path → Prop
  | file {p : Path} {l : Location} {c : Content} : s.lookup l = some (.file c) → Walk s p l [p]
  | folder {p : Path} {l : Location} (names : List Text) (found : Text → List Path) :
      s.lookup l = some .directory → names.Nodup → (∀ n, n ∈ names ↔ (s.lookup (l ++ [n])).isSome = true) →
      (∀ n ∈ names, Walk s (p.join n) (l ++ [n]) (found n)) → Walk s p l (names.flatMap found)

/-- **A walk comes by all files**, and by nothing else. -/
theorem Walk.mem_iff (h : s.Walk p l found) : q ∈ found ↔ s.Below p l q := by
  induction h with
  | file hfile => rw [below_file hfile, List.mem_singleton]
  | folder names found hdirectory _ hnames _ ih =>
    rw [below_folder hdirectory, List.mem_flatMap]
    refine exists_congr fun n => ?_
    rw [← hnames n]
    exact and_congr_right fun hn => ih n hn

/-- **A walk comes by a file once.** -/
theorem Walk.nodup (h : s.Walk p l found) : s.locate p = .ok l → found.Nodup := by
  induction h with
  | file => exact fun _ => List.nodup_singleton _
  | @folder p l names found hdirectory hnodup hnames hbelow ih =>
    intro hp
    have hjoin : ∀ n ∈ names, s.locate (p.join n) = .ok (l ++ [n]) := by
      intro n hn
      obtain ⟨e, he⟩ := Option.isSome_iff_exists.1 ((hnames n).1 hn)
      have hjoins : s.locate ([n].foldl Path.join p) = .ok (l ++ [n]) := locate_joins hp he
      exact hjoins
    refine List.nodup_flatMap.2 ⟨fun n hn => ih n hn (hjoin n hn), ?_⟩
    refine hnodup.imp_of_mem fun {m n} hm hn hne q hqm hqn => ?_
    -- the path of a file leads to one location, and that is below one entry of the folder
    obtain ⟨ms, _, -, hqm⟩ := (below_iff_entry (hjoin m hm)).1 ((hbelow m hm).mem_iff.1 hqm)
    obtain ⟨ns, _, -, hqn⟩ := (below_iff_entry (hjoin n hn)).1 ((hbelow n hn).mem_iff.1 hqn)
    have heq := (Prod.mk.inj (Except.ok.inj (hqm.symm.trans hqn))).1
    rw [List.append_assoc, List.append_assoc] at heq
    exact hne (List.cons.inj (List.append_cancel_left heq)).1

/-- The names of the entries of a folder. -/
def namesIn (s : Store) (l : Location) : List Text :=
  s.entries.filterMap fun x => if x.1.dropLast = l then x.1.getLast? else none

theorem eq_of_nameIn {x : Location × Entry} {n : Text}
    (h : (if x.1.dropLast = l then x.1.getLast? else none) = some n) : x.1 = l ++ [n] := by
  split at h
  · next hl =>
    obtain ⟨l', hx⟩ := List.getLast?_eq_some_iff.1 h
    rw [hx, List.dropLast_concat] at hl
    rw [hx, hl]
  · cases h

theorem mem_namesIn {n : Text} : n ∈ s.namesIn l ↔ (s.lookup (l ++ [n])).isSome = true := by
  rw [namesIn, List.mem_filterMap, Option.isSome_iff_exists]
  constructor
  · rintro ⟨x, hx, hn⟩
    exact ⟨x.2, lookup_of_mem (eq_of_nameIn hn ▸ hx)⟩
  · rintro ⟨e, he⟩
    exact ⟨_, mem_of_lookup (by simp) he, by simp⟩

theorem nodup_namesIn (s : Store) (l : Location) : (s.namesIn l).Nodup := by
  refine List.pairwise_filterMap.2 ((List.pairwise_map.1 s.isTree.nodup).imp fun {x y} hne m hm n hn hmn => hne ?_)
  rw [eq_of_nameIn hm, eq_of_nameIn hn, hmn]

/-- There is a walk, by the levels that are left at a location. -/
theorem exists_walk_of_depth (levels : Nat) : ∀ {p : Path} {l : Location} {e : Entry},
    (∀ l' e', s.lookup l' = some e' → l'.length < l.length + levels) → s.lookup l = some e →
    ∃ found, s.Walk p l found := by
  induction levels with
  | zero => exact fun hdepth hl => absurd (hdepth _ _ hl) (Nat.lt_irrefl _)
  | succ levels ih =>
    intro p l e hdepth hl
    cases e with
    | file c => exact ⟨[p], .file hl⟩
    | directory =>
      have hbelow : ∀ n ∈ s.namesIn l, ∃ found, s.Walk (p.join n) (l ++ [n]) found := by
        intro n hn
        obtain ⟨e', he'⟩ := Option.isSome_iff_exists.1 (mem_namesIn.1 hn)
        refine ih (fun l' e' hl' => ?_) he'
        have := hdepth l' e' hl'
        rw [List.length_append, List.length_singleton]
        omega
      choose! found hfound using hbelow
      exact ⟨_, .folder (s.namesIn l) found hl (nodup_namesIn s l) (fun n => mem_namesIn) hfound⟩

/-- **Whatever is there can be walked through.** -/
theorem exists_walk (h : s.lookup l = some e) : ∃ found, s.Walk p l found := by
  refine exists_walk_of_depth ((s.entries.map Prod.fst).flatten.length + 1) (fun l' e' hl' => ?_) h
  by_cases hne : l' = []
  · rw [hne, List.length_nil]
    omega
  · have hmem : l' ∈ s.entries.map Prod.fst := List.mem_map.2 ⟨_, mem_of_lookup hne hl', rfl⟩
    have := (List.sublist_flatten_of_mem hmem).length_le
    omega

/-! ## Discovered files -/

theorem Walk.perm_pathsBelow (hroot : s.entry root = .ok (l, .directory)) (h : s.Walk root l found) :
    found.Perm (s.entries.filterMap (pathBelow? root l)) := by
  have hlocate := (entry_eq_ok.1 hroot).1
  refine (List.perm_ext_iff_of_nodup (h.nodup hlocate) (nodup_pathsBelow hlocate)).2 fun q => ?_
  rw [h.mem_iff, mem_pathsBelow hroot]

/-- **What is discovered is what a walk finds**, in order. -/
theorem discover_of_walk (hroot : s.entry root = .ok (l, e)) (h : s.Walk root l found) (extension : Text) :
    s.discover root extension = .ok (sortPaths (found.filter (·.hasExtension extension))) := by
  have hlocate := (entry_eq_ok.1 hroot).1
  cases h with
  | @file _ _ c hfile =>
    refine discover_eq_ok.2 (.inl ⟨l, c, entry_eq_ok.2 ⟨hlocate, hfile⟩, ?_⟩)
    cases hext : root.hasExtension extension <;> simp [hext, sortPaths, insertPath]
  | folder names found hl hnodup hnames hbelow =>
    have hroot := entry_eq_ok.2 ⟨hlocate, hl⟩
    have h := Walk.folder names found hl hnodup hnames hbelow
    refine discover_eq_ok.2 (.inr ⟨l, hroot, sortPaths_congr ((h.perm_pathsBelow hroot).filter _) fun p hp q hq => ?_⟩)
    exact eq_of_components hlocate (h.mem_iff.1 (List.mem_filter.1 hp).1) (h.mem_iff.1 (List.mem_filter.1 hq).1)

theorem lookup_perm (h : s'.entries.Perm s.entries) (l : Location) : s'.lookup l = s.lookup l := by
  by_cases hl : l = []
  · rw [hl, lookup_nil, lookup_nil]
  · refine Option.ext fun e => ⟨fun he => ?_, fun he => ?_⟩
    · exact lookup_of_mem (h.mem_iff.1 (mem_of_lookup hl he))
    · exact lookup_of_mem (h.mem_iff.2 (mem_of_lookup hl he))

theorem entry_perm (h : s'.entries.Perm s.entries) (hworking : s'.workingDirectory = s.workingDirectory)
    (x : Location × Entry) : s'.entry p = .ok x ↔ s.entry p = .ok x := by
  obtain ⟨l, e⟩ := x
  have hfolders : SameFolders s s' := ⟨hworking, fun l => by rw [lookup_perm h]⟩
  rw [entry_eq_ok, entry_eq_ok, hfolders.locate_iff, lookup_perm h]

/-- The file that is `names` below a root at a location, or the root itself if these are none, is called by a stem, a
dot and the extension, which has no dot and may differ in the case of its letters. -/
structure Matches (s : Store) (root : Path) (l : Location) (extension : Text) (p : Path) (names : List Text)
    (stem e : Text) : Prop where
  path : p = names.foldl Path.join root
  file : ∃ c, s.lookup (l ++ names) = some (.file c)
  name : (l ++ names).getLast? = some (stem ++ '.' :: e)
  stem : stem ≠ []
  dot : '.' ∉ e
  extension : e.map Char.toLower = extension.map Char.toLower

theorem below_hasExtension_iff (hroot : s.locate root = .ok l) :
    s.Below root l p ∧ p.hasExtension extension = true ↔ ∃ names stem e, s.Matches root l extension p names stem e := by
  constructor
  · rintro ⟨hbelow, hext⟩
    obtain ⟨names, c, hpath, hentry⟩ := (below_iff_entry hroot).1 hbelow
    obtain ⟨hlocate, hfile⟩ := entry_eq_ok.1 hentry
    obtain ⟨dir, above, n, rfl, hl, hleads⟩ := exists_leads hlocate (by simp [hfile])
    obtain ⟨stem, e, rfl, hstem, hdot, hfold⟩ := (Path.hasExtension_iff hleads.isFolderPart hleads.isName).1 hext
    exact ⟨names, stem, e, hpath, ⟨c, hfile⟩, by simp [hl], hstem, hdot, (Text.sameAsciiFold_iff _ _).1 hfold⟩
  · rintro ⟨names, stem, e, hpath, ⟨c, hfile⟩, hname, hstem, hdot, hfold⟩
    refine ⟨⟨names, c, hpath, hfile⟩, ?_⟩
    have hlocate := locate_joins hroot hfile
    rw [← hpath] at hlocate
    obtain ⟨dir, above, n, rfl, hl, hleads⟩ := exists_leads hlocate (by simp [hfile])
    rw [hl, List.getLast?_concat] at hname
    exact (Path.hasExtension_iff hleads.isFolderPart hleads.isName).2
      ⟨stem, e, Option.some.inj hname, hstem, hdot, (Text.sameAsciiFold_iff _ _).2 hfold⟩

/-- The files with an extension below a root at a location: all of them (`all`), each once (`once`), and their
components increase (`increasing`).  There is a walk (`walk`), every walk gives these paths in this order (`anyWalk`),
and so does every order in which the entries may be kept (`anyOrder`). -/
structure Finds (s : Store) (root : Path) (l : Location) (extension : Text) (ps : List Path) : Prop where
  all : ∀ p, p ∈ ps ↔ ∃ names stem e, s.Matches root l extension p names stem e
  once : ps.Nodup
  increasing : ps.Pairwise fun p q => p.key < q.key
  walk : ∃ found, s.Walk root l found
  anyWalk : ∀ found, s.Walk root l found → sortPaths (found.filter (·.hasExtension extension)) = ps
  anyOrder : ∀ s' : Store, s'.entries.Perm s.entries → s'.workingDirectory = s.workingDirectory →
    s'.discover root extension = .ok ps

/-- **Discovery is exact**, and depends on nothing but which files there are. -/
theorem discover_finds (h : s.entry root = .ok (l, e)) (extension : Text) :
    ∃ ps, s.discover root extension = .ok ps ∧ s.Finds root l extension ps := by
  obtain ⟨hroot, hl⟩ := entry_eq_ok.1 h
  obtain ⟨found, hfound⟩ := exists_walk (p := root) hl
  have hps := discover_of_walk h hfound extension
  have hperm := sortPaths_perm (found.filter (·.hasExtension extension))
  have hnodup := hperm.nodup_iff.2 ((hfound.nodup hroot).filter _)
  refine ⟨_, hps, fun p => ?_, hnodup, ?_, ⟨found, hfound⟩, fun found' hfound' => ?_, fun s' hentries hworking => ?_⟩
  · rw [hperm.mem_iff, List.mem_filter, hfound.mem_iff, below_hasExtension_iff hroot]
  · refine ((sortPaths_pairwise _).and hnodup).imp_of_mem fun {p q} hp hq hpq => lt_of_le_of_ne hpq.1 fun hkey => ?_
    have hbelow : ∀ r ∈ sortPaths (found.filter (·.hasExtension extension)), s.Below root l r := fun r hr =>
      hfound.mem_iff.1 (List.mem_filter.1 (hperm.mem_iff.1 hr)).1
    exact hpq.2 (eq_of_components hroot (hbelow p hp) (hbelow q hq) (Path.components_of_key hkey))
  · exact Except.ok.inj ((discover_of_walk h hfound' extension).symm.trans hps)
  · exact discover_congr (fun x => entry_perm hentries hworking x) (fun p _ x => entry_perm hentries hworking x) hps

/-- Files beside and below a folder, and a folder and a hidden file that are called by the extension. -/
def nested : Store :=
  [["a.mbx"], ["a", "b.tar.mbx"], ["a", "C.MbX"], ["dir.mbx", "notes.txt"], [".mbx"]].foldl
    (fun s l => s.add (l.map String.toList) (.file (.text []))) {}

theorem discover_finds_nested : nested.entry ".".toList = .ok ([], .directory) ∧
    ∃ ps, nested.discover ".".toList "mbx".toList = .ok ps ∧
      ps = ["./a/C.MbX", "./a/b.tar.mbx", "./a.mbx"].map String.toList ∧
      nested.Finds ".".toList [] "mbx".toList ps := by
  have hroot : nested.entry ".".toList = .ok ([], .directory) := by decide +kernel
  have hlist : nested.discover ".".toList "mbx".toList =
      .ok (["./a/C.MbX", "./a/b.tar.mbx", "./a.mbx"].map String.toList) := by decide +kernel
  obtain ⟨ps, hps, hfinds⟩ := discover_finds hroot "mbx".toList
  exact ⟨hroot, ps, hps, Except.ok.inj (hps.symm.trans hlist), hfinds⟩

end InlineMarkup.Store
