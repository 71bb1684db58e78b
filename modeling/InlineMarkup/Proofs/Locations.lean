import InlineMarkup.Files.Store
import InlineMarkup.Proofs.Lines
import Mathlib.Data.List.Induction
/-!
# Proofs.Locations — where paths lead and what a write changes

A path that leads to no directory is a folder's path with a name behind it, and the name alone decides which entry of the
folder it is (`Leads`).  Writing a file changes one location and no folder, so paths lead where they led
(`writeText_ok`, `SameFolders.locate_iff`).
-/
namespace InlineMarkup

/-! ## The last piece of a text -/

namespace Text

variable {c : Char}

theorem exists_last_piece (c : Char) (t : Text) :
    ∃ dir n, t = dir ++ n ∧ c ∉ n ∧ (dir = [] ∨ ∃ up, dir = up ++ [c]) := by
  by_cases h : c ∈ t
  · obtain ⟨n, up, hn, hc⟩ := List.eq_append_cons_of_mem (List.mem_reverse.2 h)
    refine ⟨up.reverse ++ [c], n.reverse, ?_, by simpa using hc, .inr ⟨_, rfl⟩⟩
    rw [← List.reverse_reverse t, hn]
    simp
  · exact ⟨[], t, rfl, h, .inl rfl⟩

/-- A text backwards, up to the last `c` and from there on. -/
theorem cut_last {dir n : Text} (hdir : dir = [] ∨ ∃ up, dir = up ++ [c]) (hn : c ∉ n) :
    (dir ++ n).reverse.takeWhile (· != c) = n.reverse ∧ (dir ++ n).reverse.dropWhile (· != c) = dir.reverse := by
  have hall : ∀ x ∈ n.reverse, (x != c) = true := by
    intro x hx
    rw [bne_iff_ne]
    rintro rfl
    exact hn (List.mem_reverse.1 hx)
  rw [List.reverse_append, List.takeWhile_append_of_pos hall, List.dropWhile_append_of_pos hall]
  rcases hdir with rfl | ⟨up, rfl⟩ <;> simp

end Text

/-! ## Entries -/

theorem isName_iff {n : Text} : isName n = true ↔ n ≠ [] ∧ n ≠ ['.'] ∧ n ≠ ['.', '.'] ∧ '/' ∉ n := by
  simp [isName, and_assoc]

namespace Store

variable {s s' : Store} {l above : Location} {e : Entry} {p dir : Path} {n : Text}

@[simp] theorem lookup_nil (s : Store) : s.lookup [] = some .directory := if_pos rfl

theorem isName_of_lookup (h : s.lookup l = some e) : ∀ n ∈ l, isName n = true := by
  by_cases hl : l = []
  · simp [hl]
  · exact (s.isTree.names _ (mem_of_lookup hl h)).2

theorem lookup_dropLast (h : s.lookup l = some e) : s.lookup l.dropLast = some .directory := by
  by_cases hl : l = []
  · simp [hl]
  · rcases s.isTree.parents _ (mem_of_lookup hl h) with htop | hparent
    · rw [htop, lookup_nil]
    · exact lookup_of_mem hparent

theorem lookup_above {names : List Text} (h : s.lookup (l ++ names) = some e) (hne : names ≠ []) :
    s.lookup l = some .directory := by
  induction names using List.reverseRecOn generalizing e with
  | nil => exact absurd rfl hne
  | append_singleton names n ih =>
    have hd := lookup_dropLast h
    rw [← List.append_assoc, List.dropLast_concat] at hd
    by_cases hnames : names = []
    · rwa [hnames, List.append_nil] at hd
    · exact ih hd hnames

theorem lookup_put (h : s.accepts l e = true) (l' : Location) :
    (s.put l e).lookup l' = if l' = l then some e else s.lookup l' := by
  have hl : l ≠ [] := by
    rintro rfl
    simp [accepts] at h
  unfold put lookup
  rw [dif_pos h]
  by_cases hl' : l' = []
  · have hne : l' ≠ l := fun heq => hl (heq.symm.trans hl')
    rw [if_pos hl', if_pos hl', if_neg hne]
  · rw [if_neg hl', if_neg hl']
    by_cases heq : l' = l
    · simp [putIn, heq]
    · have hother : ((s.entries.filter (·.1 != l)).find? (·.1 == l')) = s.entries.find? (·.1 == l') := by
        rw [List.find?_filter]
        congr 1
        funext x
        by_cases hx : x.1 = l' <;> simp [hx, heq]
      rw [if_neg heq]
      simp only [putIn]
      rw [List.find?_cons_of_neg (by simpa using Ne.symm heq), hother]

/-! ## Steps -/

/-- Where a piece of a path leads from a folder. -/
def onward (l : Location) (piece : Text) : Location :=
  if piece = [] ∨ piece = ['.'] then l else if piece = ['.', '.'] then l.dropLast else l ++ [piece]

theorem step_eq_ok {piece : Text} {l' : Location} :
    s.step l piece = .ok l' ↔ s.lookup l = some .directory ∧ l' = onward l piece := by
  unfold step onward
  cases hl : s.lookup l with
  | none => simp
  | some e =>
    cases e with
    | file c => simp
    | directory =>
      simp only [true_and]
      split
      · simp [eq_comm]
      · split <;> simp [eq_comm]

theorem onward_of_isName (h : isName n = true) : onward l n = l ++ [n] := by
  obtain ⟨hnil, hhere, hup, -⟩ := isName_iff.1 h
  simp [onward, hnil, hhere, hup]

/-- Only a name leads from a folder to what is no folder. -/
theorem isName_of_onward (hl : s.lookup l = some .directory) (hn : '/' ∉ n)
    (h : s.lookup (onward l n) ≠ some .directory) : isName n = true := by
  unfold onward at h
  split at h
  · exact absurd hl h
  · next hhere =>
    split at h
    · exact absurd (lookup_dropLast hl) h
    · next hup => simp_all [isName]

/-! ## Paths -/

/-- What can stand before a name. -/
def IsFolderPart (dir : Path) : Prop := dir = [] ∨ ∃ up, dir = up ++ ['/']

def origin (s : Store) (p : Path) : Location := if p.head? = some '/' then [] else s.workingDirectory

theorem locate_eq (s : Store) (hp : p ≠ []) : s.locate p = (Text.pieces '/' p).foldlM s.step (s.origin p) := by
  unfold locate
  split
  · exact absurd rfl hp
  · next r =>
    -- the empty piece before the first slash stays at the top
    have htop : s.step [] [] = .ok [] := step_eq_ok.2 ⟨lookup_nil s, rfl⟩
    rw [Text.pieces, if_pos rfl, List.foldlM_cons, origin, List.head?_cons, if_pos rfl, htop]
    rfl
  · next hslash =>
    unfold origin
    rw [if_neg]
    intro hhead
    obtain ⟨r, rfl⟩ := List.head?_eq_some_iff.1 hhead
    exact hslash r rfl

/-- The folder that a path begins with. -/
def folder (s : Store) (dir : Path) : Except AccessFault Location :=
  if dir = [] then .ok s.workingDirectory else (Text.pieces '/' dir.dropLast).foldlM s.step (s.origin dir)

theorem locate_append (s : Store) (hdir : IsFolderPart dir) (hn : '/' ∉ n) (hne : dir ++ n ≠ []) :
    s.locate (dir ++ n) = s.folder dir >>= (s.step · n) := by
  rw [locate_eq s hne]
  rcases hdir with rfl | ⟨up, rfl⟩
  · have horigin : s.origin n = s.workingDirectory := by
      unfold origin
      rw [if_neg]
      exact fun hhead => hn (List.mem_of_mem_head? hhead)
    rw [List.nil_append, Text.pieces_of_notMem hn, horigin, folder, if_pos rfl, List.foldlM_cons]
    exact bind_pure _
  · have horigin : s.origin (up ++ ['/'] ++ n) = s.origin (up ++ ['/']) := by
      cases up <;> rfl
    rw [horigin, folder, if_neg (by simp), List.dropLast_concat, List.append_assoc, List.singleton_append,
      Text.pieces_append, Text.pieces_of_notMem hn, List.foldlM_append]
    simp

/-- A folder's path and a name in it. -/
structure Leads (s : Store) (dir : Path) (above : Location) (n : Text) : Prop where
  isFolderPart : IsFolderPart dir
  folder : s.folder dir = .ok above
  directory : s.lookup above = some .directory
  isName : isName n = true

theorem Leads.other (h : s.Leads dir above n) {m : Text} (hm : InlineMarkup.isName m = true) : s.Leads dir above m :=
  { h with isName := hm }

theorem not_slash_of_isName (h : isName n = true) : '/' ∉ n := (isName_iff.1 h).2.2.2

theorem ne_nil_of_isName (h : isName n = true) : n ≠ [] := (isName_iff.1 h).1

theorem Leads.locate (h : s.Leads dir above n) : s.locate (dir ++ n) = .ok (above ++ [n]) := by
  have hne : dir ++ n ≠ [] := fun hnil => ne_nil_of_isName h.isName (List.append_eq_nil_iff.1 hnil).2
  rw [locate_append s h.isFolderPart (not_slash_of_isName h.isName) hne, h.folder]
  exact step_eq_ok.2 ⟨h.directory, (onward_of_isName h.isName).symm⟩

/-- **A path that leads to no folder ends in a name.** -/
theorem exists_leads (h : s.locate p = .ok l) (hl : s.lookup l ≠ some .directory) :
    ∃ dir above n, p = dir ++ n ∧ l = above ++ [n] ∧ s.Leads dir above n := by
  obtain ⟨dir, n, rfl, hn, hdir⟩ := Text.exists_last_piece '/' p
  have hne : dir ++ n ≠ [] := by
    intro hnil
    rw [hnil] at h
    cases h
  rw [locate_append s hdir hn hne] at h
  cases hfolder : s.folder dir with
  | error f => rw [hfolder] at h; cases h
  | ok above =>
    rw [hfolder] at h
    obtain ⟨hdirectory, rfl⟩ := step_eq_ok.1 h
    have hname := isName_of_onward hdirectory hn hl
    exact ⟨dir, above, n, rfl, onward_of_isName hname, hdir, hfolder, hdirectory, hname⟩

theorem entry_eq_ok : s.entry p = .ok (l, e) ↔ s.locate p = .ok l ∧ s.lookup l = some e := by
  unfold entry
  cases hl : s.locate p with
  | error f => exact iff_of_false nofun (by simp)
  | ok l' =>
    cases he : s.lookup l' with
    | none => exact iff_of_false (by simp [bind, Except.bind, he]) (by rintro ⟨hok, h⟩; cases hok; simp_all)
    | some e' =>
      simp only [bind, Except.bind, he, pure, Except.pure, Except.ok.injEq, Prod.mk.injEq]
      exact ⟨by rintro ⟨rfl, rfl⟩; exact ⟨rfl, he⟩, by rintro ⟨rfl, h⟩; exact ⟨rfl, Option.some.inj (he.symm.trans h)⟩⟩

theorem readText_eq_ok {t : Text} :
    s.readText p = .ok t ↔ ∃ l, s.locate p = .ok l ∧ s.lookup l = some (.file (.text t)) := by
  unfold readText
  cases hentry : s.entry p with
  | error f =>
    refine iff_of_false nofun ?_
    rintro ⟨l, hl⟩
    rw [entry_eq_ok.2 hl] at hentry
    cases hentry
  | ok x =>
    obtain ⟨l, e⟩ := x
    obtain ⟨hl, he⟩ := entry_eq_ok.1 hentry
    have hthere : (∃ l, s.locate p = .ok l ∧ s.lookup l = some (.file (.text t))) ↔ e = .file (.text t) := by
      simp [hl, he]
    rw [hthere]
    cases e with
    | directory => simp [bind, Except.bind]
    | file c => cases c <;> simp [bind, Except.bind, pure, Except.pure]

/-! ## Joined paths -/

/-- What stands before a name that is joined to a path. -/
def joint (p : Path) : Path := if p.isEmpty || p.getLast? == some '/' then p else p ++ ['/']

theorem join_eq (p : Path) (n : Text) : p.join n = joint p ++ n := by
  unfold Path.join joint
  split <;> simp

/-- **A name below a folder's path leads into the folder.** -/
theorem leads_joint (h : s.locate p = .ok above) (hd : s.lookup above = some .directory) (hn : isName n = true) :
    s.Leads (joint p) above n := by
  have hne : p ≠ [] := by
    rintro rfl
    cases h
  unfold joint
  by_cases hlast : p.getLast? = some '/'
  · obtain ⟨up, rfl⟩ := List.getLast?_eq_some_iff.1 hlast
    rw [if_pos (by simp)]
    have hfolder : s.folder (up ++ ['/']) >>= (s.step · []) = .ok above := by
      rw [← h, ← locate_append s (.inr ⟨up, rfl⟩) (by simp) (by simp), List.append_nil]
    cases hf : s.folder (up ++ ['/']) with
    | error f => rw [hf] at hfolder; cases hfolder
    | ok l =>
      rw [hf] at hfolder
      obtain ⟨-, rfl⟩ := step_eq_ok.1 hfolder
      exact ⟨.inr ⟨up, rfl⟩, hf, hd, hn⟩
  · rw [if_neg (by simp [hne, hlast])]
    refine ⟨.inr ⟨p, rfl⟩, ?_, hd, hn⟩
    have horigin : s.origin (p ++ ['/']) = s.origin p := by
      cases p with
      | nil => exact absurd rfl hne
      | cons x p => rfl
    rw [folder, if_neg (by simp), List.dropLast_concat, horigin, ← locate_eq s hne, h]

theorem locate_joins {names : List Text} (h : s.locate p = .ok l) (he : s.lookup (l ++ names) = some e) :
    s.locate (names.foldl Path.join p) = .ok (l ++ names) := by
  induction names generalizing p l with
  | nil => rwa [List.append_nil]
  | cons n names ih =>
    have hd := lookup_above he (List.cons_ne_nil n names)
    have hn : isName n = true := isName_of_lookup he n (by simp)
    have hjoin : s.locate (p.join n) = .ok (l ++ [n]) := by
      rw [join_eq]
      exact (leads_joint h hd hn).locate
    rw [List.append_cons] at he ⊢
    exact ih hjoin he

/-! ## Writing -/

structure SameFolders (s s' : Store) : Prop where
  workingDirectory : s'.workingDirectory = s.workingDirectory
  lookup : ∀ l, s'.lookup l = some .directory ↔ s.lookup l = some .directory

theorem SameFolders.refl (s : Store) : SameFolders s s := ⟨rfl, fun _ => Iff.rfl⟩

theorem SameFolders.trans {s'' : Store} (h : SameFolders s s') (h' : SameFolders s' s'') : SameFolders s s'' :=
  ⟨h'.workingDirectory.trans h.workingDirectory, fun l => (h'.lookup l).trans (h.lookup l)⟩

theorem SameFolders.ne_directory (h : SameFolders s s') {c : Content} (hl : s'.lookup l = some (.file c)) :
    s.lookup l ≠ some .directory := by
  intro hd
  rw [(h.lookup l).2 hd] at hl
  cases hl

theorem SameFolders.steps (h : SameFolders s s') {pieces : List Text} {l' : Location} :
    pieces.foldlM s'.step l = .ok l' ↔ pieces.foldlM s.step l = .ok l' := by
  induction pieces generalizing l with
  | nil => exact Iff.rfl
  | cons piece pieces ih =>
    simp only [List.foldlM_cons]
    by_cases hl : s.lookup l = some .directory
    · rw [step_eq_ok.2 ⟨hl, rfl⟩, step_eq_ok.2 ⟨(h.lookup l).2 hl, rfl⟩]
      exact ih
    · have hfails : ∀ {t : Store}, t.lookup l ≠ some .directory → t.step l piece >>= pieces.foldlM t.step ≠ .ok l' := by
        intro t ht hok
        cases hstep : t.step l piece with
        | error f => rw [hstep] at hok; cases hok
        | ok l₁ => exact ht (step_eq_ok.1 hstep).1
      exact iff_of_false (hfails fun hl' => hl ((h.lookup l).1 hl')) (hfails hl)

/-- **Paths lead where they led** while the folders are the same. -/
theorem SameFolders.locate_iff (h : SameFolders s s') : s'.locate p = .ok l ↔ s.locate p = .ok l := by
  by_cases hp : p = []
  · subst hp
    exact Iff.rfl
  · have horigin : s'.origin p = s.origin p := by
      unfold origin
      rw [h.workingDirectory]
    rw [locate_eq s hp, locate_eq s' hp, horigin]
    exact h.steps

/-- **What a write does**: the file is there, and nothing else has changed. -/
theorem writeText_ok {t : Text} (h : s.writeText p t = .ok s') :
    ∃ l, s.locate p = .ok l ∧ SameFolders s s' ∧ s'.lookup l = some (.file (.text t)) ∧
      ∀ l', l' ≠ l → s'.lookup l' = s.lookup l' := by
  unfold writeText at h
  cases hl : s.locate p with
  | error f => rw [hl] at h; cases h
  | ok l =>
    rw [hl] at h
    by_cases hd : s.lookup l = some .directory
    · simp [bind, Except.bind, hd] at h
    obtain ⟨dir, above, n, -, rfl, hleads⟩ := exists_leads hl hd
    have haccepts : s.accepts (above ++ [n]) (.file (.text t)) = true := by
      simpa [accepts, hd, hleads.directory, hleads.isName] using isName_of_lookup hleads.directory
    have hput : s.put (above ++ [n]) (.file (.text t)) = s' := by
      simp only [bind, Except.bind] at h
      exact Except.ok.inj h
    have hlookup := lookup_put haccepts
    rw [hput] at hlookup
    refine ⟨above ++ [n], rfl, ⟨?_, fun l' => ?_⟩, by rw [hlookup, if_pos rfl], fun l' hne => by rw [hlookup, if_neg hne]⟩
    · rw [← hput, put, dif_pos haccepts]
    · rw [hlookup]
      split
      · next heq => simp [heq, hd]
      · exact Iff.rfl

end Store
end InlineMarkup
