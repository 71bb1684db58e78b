import InlineMarkup.Proofs.Components
import InlineMarkup.Settings
import Mathlib.Data.List.Basic
/-!
# Proofs.OutputPaths — the name of a file and of what it is lowered to

A file name with an extension is a stem, a dot and the extension, and the output path has another extension behind the
same stem (`withExtension?_eq`, `IsExtended.withExtension?`).  The one exception is a stem that is itself a dot: taking off
the extension leaves the folder above.  The extension that an output path has is what follows the last dot of the one
that was put there (`cutName_extended`).
-/
namespace InlineMarkup

/-- What follows the last `c` of a text, or all of it. -/
def Text.afterLast (c : Char) (t : Text) : Text := (t.reverse.takeWhile (· != c)).reverse

theorem Text.afterLast_of_notMem {c : Char} {t : Text} (h : c ∉ t) : afterLast c t = t := by
  have htake := (cut_last (.inl rfl) h).1
  rw [List.nil_append] at htake
  rw [afterLast, htake, List.reverse_reverse]

theorem Text.sameAsciiFold_iff (a b : Text) : sameAsciiFold a b = true ↔ a.map Char.toLower = b.map Char.toLower := by
  induction a generalizing b with
  | nil => cases b <;> simp [sameAsciiFold]
  | cons x a ih =>
    cases b with
    | nil => simp [sameAsciiFold]
    | cons y b => simp [sameAsciiFold, ih]

namespace Path

open Store (IsFolderPart)

variable {dir : Path} {n stem e extension : Text}

/-! ## Folder and name -/

theorem dropTrailing_of_name (hslash : '/' ∉ n) (hne : n ≠ []) (hdot : n ≠ ['.']) (r : Text) :
    dropTrailing (n.reverse ++ r) = n.reverse ++ r := by
  obtain ⟨m, x, rfl⟩ := (List.eq_nil_or_concat' n).resolve_left hne
  rw [List.reverse_append, List.reverse_singleton, List.singleton_append, List.cons_append]
  unfold dropTrailing
  split
  · next heq =>
    obtain ⟨rfl, -⟩ := List.cons.inj heq
    simp at hslash
  · next heq =>
    obtain ⟨rfl, htail⟩ := List.cons.inj heq
    -- the name is longer than a dot, so its own character stands behind the dot
    rcases List.eq_nil_or_concat' m with rfl | ⟨m, y, rfl⟩
    · exact absurd rfl hdot
    · rw [List.reverse_append, List.reverse_singleton, List.singleton_append, List.cons_append] at htail
      obtain ⟨rfl, -⟩ := List.cons.inj htail
      simp at hslash
  · rfl

theorem splitName?_append (hdir : IsFolderPart dir) (hslash : '/' ∉ n) (hne : n ≠ []) (hdot : n ≠ ['.']) :
    splitName? (dir ++ n) = if n = ['.', '.'] then none else some (dir, n) := by
  unfold splitName?
  rw [List.reverse_append, dropTrailing_of_name hslash hne hdot, ← List.reverse_append]
  obtain ⟨htake, hdrop⟩ := Text.cut_last hdir hslash
  dsimp only
  rw [htake, hdrop, List.reverse_reverse, List.reverse_reverse]
  simp [hne, hdot]

theorem splitName?_of_isName (hdir : IsFolderPart dir) (hn : isName n = true) : splitName? (dir ++ n) = some (dir, n) := by
  obtain ⟨hnil, hhere, hup, hslash⟩ := isName_iff.1 hn
  rw [splitName?_append hdir hslash hnil hhere, if_neg hup]

/-! ## Stem and extension -/

theorem cutName_eq (hstem : stem ≠ []) (he : '.' ∉ e) : cutName (stem ++ '.' :: e) = (stem, some e) := by
  obtain ⟨htake, hdrop⟩ := Text.cut_last (.inr ⟨stem, rfl⟩) he
  rw [List.append_assoc, List.singleton_append] at htake hdrop
  unfold cutName
  rw [htake, hdrop, List.reverse_append, List.reverse_singleton, List.singleton_append]
  have hne : stem.reverse ≠ [] := by simpa using hstem
  cases hr : stem.reverse with
  | nil => exact absurd hr hne
  | cons x r => simp [← hr]

theorem exists_stem (h : (cutName n).2 = some e) : ∃ stem, n = stem ++ '.' :: e ∧ stem ≠ [] ∧ '.' ∉ e := by
  obtain ⟨dir, e', rfl, he', hdir⟩ := Text.exists_last_piece '.' n
  rcases hdir with rfl | ⟨stem, rfl⟩
  · unfold cutName at h
    rw [(Text.cut_last (.inl rfl) he').2] at h
    cases h
  · rw [List.append_assoc, List.singleton_append] at h ⊢
    have hstem : stem ≠ [] := by
      rintro rfl
      have hdrop : ('.' :: e').reverse.dropWhile (· != '.') = ['.'] := (Text.cut_last (.inr ⟨[], rfl⟩) he').2
      unfold cutName at h
      rw [List.nil_append, hdrop] at h
      cases h
    rw [cutName_eq hstem he'] at h
    cases h
    exact ⟨stem, rfl, hstem, he'⟩

theorem extension?_of_isName (hdir : IsFolderPart dir) (hn : isName n = true) : extension? (dir ++ n) = (cutName n).2 := by
  unfold extension?
  rw [splitName?_of_isName hdir hn]
  rfl

theorem extension?_append (hdir : IsFolderPart dir) (hn : isName (stem ++ '.' :: e) = true) (hstem : stem ≠ [])
    (he : '.' ∉ e) : extension? (dir ++ (stem ++ '.' :: e)) = some e := by
  rw [extension?_of_isName hdir hn, cutName_eq hstem he]

/-- **Which paths have an extension**: their name is a stem, a dot and the extension. -/
theorem hasExtension_iff (hdir : IsFolderPart dir) (hn : isName n = true) : hasExtension (dir ++ n) extension = true ↔
    ∃ stem e, n = stem ++ '.' :: e ∧ stem ≠ [] ∧ '.' ∉ e ∧ Text.sameAsciiFold e extension = true := by
  unfold hasExtension
  rw [extension?_of_isName hdir hn]
  constructor
  · intro hext
    cases he : (cutName n).2 with
    | none => rw [he] at hext; cases hext
    | some e =>
      rw [he] at hext
      obtain ⟨stem, hstem⟩ := exists_stem he
      exact ⟨stem, e, hstem.1, hstem.2.1, hstem.2.2, hext⟩
  · rintro ⟨stem, e, rfl, hstem, hdot, hfold⟩
    rw [cutName_eq hstem hdot]
    exact hfold

theorem extension?_tail {t : Text} (ht : IsTail t) (p : Path) : extension? (p ++ t) = extension? p := by
  unfold extension?
  rw [splitName?_tail ht]

/-! ## Another extension -/

theorem isName_extended (hn : isName (stem ++ '.' :: e) = true) (hstem : stem ≠ []) (hslash : '/' ∉ extension)
    (hne : extension ≠ []) : isName (stem ++ '.' :: extension) = true := by
  have hlength : 3 ≤ (stem ++ '.' :: extension).length := by
    have := List.length_pos_iff.2 hstem
    have := List.length_pos_iff.2 hne
    rw [List.length_append, List.length_cons]
    omega
  have hshort : ∀ t : Text, t.length < 3 → stem ++ '.' :: extension ≠ t := by
    rintro t ht rfl
    omega
  have hslash' := Store.not_slash_of_isName hn
  simp only [List.mem_append, List.mem_cons, not_or] at hslash'
  exact isName_iff.2 ⟨hshort _ (by simp), hshort _ (by simp), hshort _ (by simp), by simp [hslash, hslash']⟩

/-- Another extension behind the stem of a name: none leaves no dot. -/
theorem withExtension?_append (hdir : IsFolderPart dir) (hn : isName (stem ++ '.' :: e) = true) (hstem : stem ≠ [])
    (he : '.' ∉ e) (hslash : '/' ∉ extension) :
    withExtension? (dir ++ (stem ++ '.' :: e)) extension =
      some (dir ++ if stem = ['.'] then ['.', '.'] else stem ++ if extension.isEmpty then [] else '.' :: extension) := by
  have hkept : (dir ++ (stem ++ '.' :: e)).take ((dir ++ (stem ++ '.' :: e)).length - e.length) = dir ++ (stem ++ ['.']) := by
    have hcut : dir ++ (stem ++ '.' :: e) = (dir ++ (stem ++ ['.'])) ++ e := by simp
    rw [hcut, List.length_append, Nat.add_sub_cancel, List.take_left]
  have hslash' : '/' ∉ stem ++ ['.'] := by
    have := Store.not_slash_of_isName hn
    simp_all
  unfold withExtension?
  rw [if_neg (by simpa using hslash), extension?_append hdir hn hstem he]
  dsimp only
  rw [hkept, setExtension, splitName?_append hdir hslash' (by simp) (by simpa using hstem)]
  by_cases hdot : stem = ['.']
  · simp [hdot]
  · have htwo : stem ++ ['.'] ≠ ['.', '.'] := fun h => hdot (List.append_inj_left' h rfl)
    rw [if_neg htwo, if_neg hdot]
    dsimp only
    rw [cutName_eq hstem (by simp), List.append_assoc]

/-- **The output path**: another extension behind the same stem. -/
theorem withExtension?_eq (hdir : IsFolderPart dir) (hn : isName (stem ++ '.' :: e) = true) (hstem : stem ≠ [])
    (he : '.' ∉ e) (hslash : '/' ∉ extension) (hne : extension ≠ []) :
    withExtension? (dir ++ (stem ++ '.' :: e)) extension =
      some (dir ++ if stem = ['.'] then ['.', '.'] else stem ++ '.' :: extension) := by
  have hempty : extension.isEmpty = false := by simpa using hne
  rw [withExtension?_append hdir hn hstem he hslash, hempty]
  rfl

/-- Behind the name there may be slashes.  Then some of the old extension is kept at first, and its dot is the last one. -/
theorem withExtension?_tail {t : Text} (hdir : IsFolderPart dir) (hn : isName (stem ++ '.' :: e) = true)
    (hstem : stem ≠ []) (he : '.' ∉ e) (ht : IsTail t) (htail : t ≠ []) (hslash : '/' ∉ extension) (hne : extension ≠ []) :
    withExtension? (dir ++ (stem ++ '.' :: e) ++ t) extension = some (dir ++ (stem ++ '.' :: extension)) := by
  have hkept : (dir ++ (stem ++ '.' :: e) ++ t).take ((dir ++ (stem ++ '.' :: e) ++ t).length - e.length) =
      dir ++ (stem ++ '.' :: e.take t.length) ++ t.take (t.length - e.length) := by
    have hcut : dir ++ (stem ++ '.' :: e) ++ t = (dir ++ (stem ++ ['.'])) ++ (e ++ t) := by simp
    have hlength : ((dir ++ (stem ++ ['.'])) ++ (e ++ t)).length - e.length = (dir ++ (stem ++ ['.'])).length + t.length := by
      simp only [List.length_append]
      omega
    rw [hcut, hlength, List.take_length_add_append, List.take_append]
    simp
  have hname : isName (stem ++ '.' :: e.take t.length) = true := by
    by_cases hnil : e = []
    · rwa [hnil, List.take_nil, ← hnil]
    · refine isName_extended hn hstem (fun hmem => ?_) ?_
      · exact Store.not_slash_of_isName hn (by simp [List.mem_of_mem_take hmem])
      · simpa using ⟨htail, hnil⟩
  unfold withExtension?
  rw [if_neg (by simpa using hslash), extension?_tail ht, extension?_append hdir hn hstem he]
  dsimp only
  rw [hkept, setExtension, splitName?_tail (ht.take _), splitName?_of_isName hdir hname]
  dsimp only
  rw [cutName_eq hstem fun hmem => he (List.mem_of_mem_take hmem)]
  simp [hne]

/-- A path whose name has an extension, taken apart. -/
structure IsExtended (p dir : Path) (stem e t : Text) : Prop where
  path : p = dir ++ (stem ++ '.' :: e) ++ t
  folder : IsFolderPart dir
  name : isName (stem ++ '.' :: e) = true
  stem : stem ≠ []
  dot : '.' ∉ e
  tail : IsTail t

theorem exists_isExtended {p : Path} (h : p.extension? = some e) : ∃ dir stem t, IsExtended p dir stem e t := by
  unfold extension? at h
  obtain ⟨⟨dir, n⟩, hsplit, hcut⟩ := Option.bind_eq_some_iff.1 h
  obtain ⟨t, ht, hp, hdir, hn⟩ := splitName?_eq_some hsplit
  obtain ⟨stem, rfl, hstem, he⟩ := exists_stem hcut
  exact ⟨dir, stem, t, hp, hdir, hn, hstem, he, ht⟩

/-- **The output path of any path that has an extension.** -/
theorem IsExtended.withExtension? {p : Path} {t : Text} (h : IsExtended p dir stem e t) (hslash : '/' ∉ extension)
    (hne : extension ≠ []) : p.withExtension? extension =
      some (dir ++ if stem = ['.'] ∧ t = [] then ['.', '.'] else stem ++ '.' :: extension) := by
  by_cases htail : t = []
  · rw [h.path, htail, List.append_nil, withExtension?_eq h.folder h.name h.stem h.dot hslash hne]
    simp
  · rw [h.path, withExtension?_tail h.folder h.name h.stem h.dot h.tail htail hslash hne, if_neg fun h => htail h.2]

theorem withExtension?_eq_none {p : Path} : p.withExtension? extension = none ↔ '/' ∈ extension := by
  unfold Path.withExtension?
  by_cases hslash : '/' ∈ extension <;> simp [hslash]

/-- What follows the last dot of an extension that was put behind a stem is the extension of the name. -/
theorem cutName_extended (hstem : stem ≠ []) (extension : Text) :
    (cutName (stem ++ '.' :: extension)).2 = some (Text.afterLast '.' extension) := by
  obtain ⟨first, last, rfl, hlast, hfirst⟩ := Text.exists_last_piece '.' extension
  rw [Text.afterLast, (Text.cut_last hfirst hlast).1, List.reverse_reverse]
  rcases hfirst with rfl | ⟨up, rfl⟩
  · rw [List.nil_append, cutName_eq hstem hlast]
  · have hcut : stem ++ '.' :: (up ++ ['.'] ++ last) = (stem ++ '.' :: up) ++ '.' :: last := by simp
    rw [hcut, cutName_eq (by simp) hlast]

/-- **The extension of an output path.** -/
theorem IsExtended.hasExtension_output {p o : Path} {t : Text} (h : IsExtended p dir stem e t) (hslash : '/' ∉ extension)
    (hne : extension ≠ []) (hout : p.withExtension? extension = some o) (x : Text) :
    o.hasExtension x = if stem = ['.'] ∧ t = [] then false else Text.sameAsciiFold (Text.afterLast '.' extension) x := by
  rw [h.withExtension? hslash hne] at hout
  obtain rfl := Option.some.inj hout
  by_cases hup : stem = ['.'] ∧ t = []
  · have hnone : extension? (dir ++ ['.', '.']) = none := by
      unfold extension?
      rw [splitName?_append h.folder (by decide) (by simp) (by simp)]
      rfl
    rw [if_pos hup, if_pos hup, hasExtension, hnone]
  · rw [if_neg hup, if_neg hup, hasExtension,
      extension?_of_isName h.folder (isName_extended h.name h.stem hslash hne), cutName_extended h.stem]

/-- **An output path leads into the folder of its source**, or is the folder above. -/
theorem IsExtended.components_output {p o : Path} {t : Text} (h : IsExtended p dir stem e t) (hslash : '/' ∉ extension)
    (hne : extension ≠ []) (hout : p.withExtension? extension = some o) :
    ∃ folder, p.components = folder ++ [.name (stem ++ '.' :: e)] ∧
      o.components = folder ++ [if stem = ['.'] ∧ t = [] then .up else .name (stem ++ '.' :: extension)] := by
  obtain ⟨folder, hfolder⟩ := exists_components h.folder
  have hname : ∀ {n : Text}, isName n = true → components (dir ++ n) = folder ++ [.name n] := by
    intro n hn
    obtain ⟨hnil, hhere, hup, hslash⟩ := isName_iff.1 hn
    rw [hfolder n hslash hnil hhere, if_neg hup]
  refine ⟨folder, ?_, ?_⟩
  · rw [h.path, components_tail h.tail (by simp), hname h.name]
  · rw [h.withExtension? hslash hne] at hout
    obtain rfl := Option.some.inj hout
    by_cases hup : stem = ['.'] ∧ t = []
    · rw [if_pos hup, if_pos hup, hfolder ['.', '.'] (by decide) (by simp) (by simp), if_pos rfl]
    · rw [if_neg hup, if_neg hup, hname (isName_extended h.name h.stem hslash hne)]

theorem exists_of_hasExtension {p : Path} {x : Text} (h : p.hasExtension x = true) :
    ∃ dir stem e t, IsExtended p dir stem e t ∧ Text.sameAsciiFold e x = true := by
  unfold hasExtension at h
  cases he : p.extension? with
  | none => rw [he] at h; cases h
  | some e =>
    rw [he] at h
    obtain ⟨dir, stem, t, hp⟩ := exists_isExtended he
    exact ⟨dir, stem, e, t, hp, h⟩

end Path

/-- **There is an output path** unless the extension of outputs has a slash. -/
theorem Settings.outputPath?_eq_none {settings : Settings} {p : Path} :
    settings.outputPath? p = none ↔ '/' ∈ settings.outputExtension :=
  Path.withExtension?_eq_none

theorem Settings.not_slash_of_outputPath? {settings : Settings} {p o : Path} (hout : settings.outputPath? p = some o) :
    '/' ∉ settings.outputExtension := by
  intro hslash
  rw [outputPath?_eq_none.2 hslash] at hout
  cases hout

end InlineMarkup
