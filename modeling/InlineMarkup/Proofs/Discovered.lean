import InlineMarkup.Files.Store
import InlineMarkup.Proofs.Locations
import Mathlib.Data.List.Nodup
/-!
# Proofs.Discovered — the paths of discovered files

Every discovered path leads to a file with the extension, and no path is found twice.  What stands before the name is the
same for all files of a folder (`discover_ok`).
-/
namespace InlineMarkup.Store

variable {s : Store} {root p : Path} {l : Location} {extension : Text}

theorem insertPath_perm (p : Path) (qs : List Path) : (insertPath p qs).Perm (p :: qs) := by
  induction qs with
  | nil => exact .refl _
  | cons q qs ih =>
    unfold insertPath
    split
    · exact (ih.cons q).trans (.swap p q qs)
    · exact .refl _

theorem sortPaths_perm (ps : List Path) : (sortPaths ps).Perm ps := by
  induction ps with
  | nil => exact .refl _
  | cons p ps ih => exact (insertPath_perm p _).trans (ih.cons p)

theorem below?_eq_some {l l' : Location} {names : List Text} (h : below? l l' = some names) :
    l' = l ++ names ∧ names ≠ [] := by
  fun_induction below? l l' with
  | case1 => cases h
  | case2 l' hne =>
    cases h
    exact ⟨rfl, hne⟩
  | case3 => cases h
  | case4 a as bs ih =>
    obtain ⟨rfl, hne⟩ := ih h
    exact ⟨rfl, hne⟩
  | case5 => cases h

theorem pathBelow?_eq_some {x : Location × Entry} (h : pathBelow? root l x = some p) :
    ∃ names c, x = (l ++ names, .file c) ∧ names ≠ [] ∧ p = names.foldl Path.join root := by
  obtain ⟨l', e⟩ := x
  cases e with
  | directory => cases h
  | file c =>
    obtain ⟨names, hbelow, rfl⟩ := Option.map_eq_some_iff.1 h
    obtain ⟨rfl, hne⟩ := below?_eq_some hbelow
    exact ⟨names, c, rfl, hne, rfl⟩

/-- **A path below a root leads to its file.** -/
theorem locate_pathBelow (hroot : s.locate root = .ok l) {x : Location × Entry} (hx : x ∈ s.entries)
    (h : pathBelow? root l x = some p) : s.locate p = .ok x.1 := by
  obtain ⟨names, c, rfl, -, rfl⟩ := pathBelow?_eq_some h
  exact locate_joins hroot (lookup_of_mem hx)

theorem nodup_pathsBelow (hroot : s.locate root = .ok l) : (s.entries.filterMap (pathBelow? root l)).Nodup := by
  refine List.pairwise_filterMap.2 ?_
  refine (List.pairwise_map.1 s.isTree.nodup).imp_of_mem fun {x y} hx hy hne p hp q hq hpq => hne ?_
  subst hpq
  -- one path leads to one location
  exact Except.ok.inj ((locate_pathBelow hroot hx hp).symm.trans (locate_pathBelow hroot hy hq))

/-- The path of a file: what leads to its folder, and its name. -/
structure IsFile (s : Store) (dirOf : Location → Path) (p : Path) (above : Location) (n : Text) : Prop where
  path : p = dirOf above ++ n
  leads : s.Leads (dirOf above) above n
  file : ∃ c, s.lookup (above ++ [n]) = some (.file c)

/-- What leads to a folder below a root that is at a location. -/
def folderPath (root : Path) (l above : Location) : Path := joint ((above.drop l.length).foldl Path.join root)

theorem isFile_pathBelow (hroot : s.locate root = .ok l) {x : Location × Entry} (hx : x ∈ s.entries)
    (h : pathBelow? root l x = some p) :
    ∃ above n, s.IsFile (folderPath root l) p above n := by
  obtain ⟨names, c, rfl, hne, rfl⟩ := pathBelow?_eq_some h
  obtain ⟨names, n, rfl⟩ := (List.eq_nil_or_concat' names).resolve_left hne
  have hfile := lookup_of_mem hx
  rw [← List.append_assoc] at hfile
  have hd := lookup_above hfile (List.cons_ne_nil n [])
  refine ⟨l ++ names, n, ?_, ?_, c, hfile⟩
  · rw [List.foldl_append, folderPath, List.drop_left, List.foldl_cons, List.foldl_nil, join_eq]
  · rw [folderPath, List.drop_left]
    exact leads_joint (locate_joins hroot hd) hd (isName_of_lookup hfile n (by simp))

theorem discover_eq_ok {ps : List Path} : s.discover root extension = .ok ps ↔
    (∃ l c, s.entry root = .ok (l, .file c) ∧ ps = [root].filter (·.hasExtension extension)) ∨
      ∃ l, s.entry root = .ok (l, .directory) ∧
        ps = sortPaths ((s.entries.filterMap (pathBelow? root l)).filter (·.hasExtension extension)) := by
  unfold discover
  cases s.entry root with
  | error f => simp [bind, Except.bind]
  | ok x =>
    obtain ⟨l, e⟩ := x
    cases e with
    | file c =>
      refine ⟨fun h => .inl ⟨l, c, rfl, (Except.ok.inj h).symm⟩, ?_⟩
      rintro (⟨_, _, -, rfl⟩ | ⟨_, hd, -⟩)
      · rfl
      · cases hd
    | directory =>
      refine ⟨fun h => .inr ⟨l, rfl, (Except.ok.inj h).symm⟩, ?_⟩
      rintro (⟨_, _, hf, -⟩ | ⟨_, hd, rfl⟩)
      · cases hf
      · cases hd
        rfl

/-- **What is discovered.** -/
theorem discover_ok {ps : List Path} (h : s.discover root extension = .ok ps) :
    ps.Nodup ∧ ∃ dirOf, ∀ p ∈ ps, p.hasExtension extension = true ∧ ∃ above n, s.IsFile dirOf p above n := by
  obtain ⟨l, c, hentry, rfl⟩ | ⟨l, hentry, rfl⟩ := discover_eq_ok.1 h
  · obtain ⟨hroot, hfile⟩ := entry_eq_ok.1 hentry
    obtain ⟨dir, above, n, rfl, rfl, hleads⟩ := exists_leads hroot (by simp [hfile])
    refine ⟨(List.nodup_singleton _).filter _, fun _ => dir, fun p hp => ?_⟩
    obtain ⟨hmem, hext⟩ := List.mem_filter.1 hp
    obtain rfl := List.mem_singleton.1 hmem
    exact ⟨hext, above, n, rfl, hleads, c, hfile⟩
  · have hroot := (entry_eq_ok.1 hentry).1
    have hperm := sortPaths_perm ((s.entries.filterMap (pathBelow? root l)).filter (·.hasExtension extension))
    refine ⟨hperm.nodup_iff.2 ((nodup_pathsBelow hroot).filter _), folderPath root l, fun p hp => ?_⟩
    obtain ⟨hmem, hext⟩ := List.mem_filter.1 (hperm.mem_iff.1 hp)
    obtain ⟨x, hx, hbelow⟩ := List.mem_filterMap.1 hmem
    exact ⟨hext, isFile_pathBelow hroot hx hbelow⟩

end InlineMarkup.Store
