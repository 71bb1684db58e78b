import InlineMarkup.Proofs.Components
import InlineMarkup.Proofs.Discovered
import Mathlib.Data.List.Lex
/-!
# Proofs.PathOrder — paths in order

Paths are compared by their components, and names by their code points.  Both are the lexicographic order of lists of
numbers (`Path.lt_iff`), so paths in order are in one order only, as long as no two of them have the same components
(`sortPaths_congr`).  Paths below one root never have (`eq_of_components`).
-/
namespace InlineMarkup

theorem Text.lt_iff (a b : Text) : Text.lt a b = true ↔ a.map Char.toNat < b.map Char.toNat := by
  fun_induction Text.lt a b with
  | case1 => simp
  | case2 => simp
  | case3 => simp
  | case4 a as b bs hlt => simp [List.cons_lt_cons_iff, hlt]
  | case5 a as b bs hle hlt =>
    have hne : a.toNat ≠ b.toNat := Nat.ne_of_gt hlt
    simp [List.cons_lt_cons_iff, hle, hne]
  | case6 a as b bs hle hge ih =>
    have heq : a.toNat = b.toNat := Nat.le_antisymm (Nat.not_lt.1 hge) (Nat.not_lt.1 hle)
    simp [heq, ih]

namespace Path

/-- What a component is compared by. -/
def Component.key : Component → List Nat
  | .name n => 3 :: n.map Char.toNat
  | c => [c.rank]

theorem Component.lt_iff (a b : Component) : a.lt b = true ↔ a.key < b.key := by
  cases a <;> cases b <;> simp [Component.lt, Component.key, Component.rank, List.cons_lt_cons_iff, Text.lt_iff]

theorem Component.key_injective : Function.Injective Component.key := by
  intro a b h
  cases a <;> cases b <;> simp [Component.key, Component.rank] at h
  case root.root | here.here | up.up => rfl
  case name.name m n =>
    have hcode : Function.Injective Char.toNat := fun _ _ => Char.toNat_inj.1
    rw [List.map_injective_iff.2 hcode h]

/-- What a path is compared by. -/
def key (p : Path) : List (List Nat) := p.components.map Component.key

theorem componentsLt_iff (as bs : List Component) :
    componentsLt as bs = true ↔ as.map Component.key < bs.map Component.key := by
  fun_induction componentsLt as bs with
  | case1 => simp
  | case2 => simp
  | case3 => simp
  | case4 a as b bs hlt => simp [List.cons_lt_cons_iff, (Component.lt_iff a b).1 hlt]
  | case5 a as b bs hle hlt =>
    have hlt := (Component.lt_iff b a).1 hlt
    simp [List.cons_lt_cons_iff, hlt.not_gt, hlt.ne']
  | case6 a as b bs hle hge ih =>
    rw [Component.lt_iff] at hle hge
    have heq := le_antisymm (not_lt.1 hge) (not_lt.1 hle)
    simp [heq, ih]

theorem lt_iff (p q : Path) : p.lt q = true ↔ p.key < q.key := componentsLt_iff _ _

theorem components_of_key {p q : Path} (h : p.key = q.key) : p.components = q.components :=
  List.map_injective_iff.2 Component.key_injective h

end Path

namespace Store

theorem insertPath_pairwise (p : Path) {qs : List Path} (h : qs.Pairwise fun a b => a.key ≤ b.key) :
    (insertPath p qs).Pairwise fun a b => a.key ≤ b.key := by
  induction qs with
  | nil => simp [insertPath]
  | cons q qs ih =>
    obtain ⟨hq, hqs⟩ := List.pairwise_cons.1 h
    unfold insertPath
    split
    · next hlt =>
      refine List.pairwise_cons.2 ⟨fun r hr => ?_, ih hqs⟩
      rcases List.mem_cons.1 ((insertPath_perm p qs).mem_iff.1 hr) with rfl | hr
      · exact ((Path.lt_iff q r).1 hlt).le
      · exact hq r hr
    · next hle =>
      rw [Path.lt_iff, not_lt] at hle
      refine List.pairwise_cons.2 ⟨fun r hr => ?_, h⟩
      rcases List.mem_cons.1 hr with rfl | hr
      · exact hle
      · exact hle.trans (hq r hr)

/-- **Paths that are put in order are in order.** -/
theorem sortPaths_pairwise (ps : List Path) : (sortPaths ps).Pairwise fun a b => a.key ≤ b.key := by
  induction ps with
  | nil => exact .nil
  | cons p ps ih => exact insertPath_pairwise p ih

/-- **There is one order of the same paths**, if their components tell them apart. -/
theorem sortPaths_congr {ps qs : List Path} (hperm : ps.Perm qs)
    (hcomponents : ∀ p ∈ ps, ∀ q ∈ ps, p.components = q.components → p = q) : sortPaths ps = sortPaths qs := by
  have hsorted : (sortPaths ps).Perm (sortPaths qs) := (sortPaths_perm ps).trans (hperm.trans (sortPaths_perm qs).symm)
  refine hsorted.eq_of_pairwise (fun p q hp hq hle hge => ?_) (sortPaths_pairwise ps) (sortPaths_pairwise qs)
  have hp := (sortPaths_perm ps).mem_iff.1 hp
  have hq := hperm.mem_iff.2 ((sortPaths_perm qs).mem_iff.1 hq)
  exact hcomponents p hp q hq (Path.components_of_key (le_antisymm hle hge))

/-! ## Paths below a root -/

variable {s s' : Store} {root p q : Path} {l : Location} {extension : Text}

theorem below?_append (l : Location) {names : List Text} (hne : names ≠ []) : below? l (l ++ names) = some names := by
  induction l with
  | nil =>
    cases names with
    | nil => exact absurd rfl hne
    | cons n names => rfl
  | cons a l ih => rw [List.cons_append, below?, if_pos rfl, ih]

/-- The path of a file below a path that leads to a location, or that path itself if it leads to a file. -/
def Below (s : Store) (p : Path) (l : Location) (q : Path) : Prop :=
  ∃ names c, q = names.foldl Path.join p ∧ s.lookup (l ++ names) = some (.file c)

theorem below_iff_entry (hroot : s.locate root = .ok l) :
    s.Below root l p ↔ ∃ names c, p = names.foldl Path.join root ∧ s.entry p = .ok (l ++ names, .file c) := by
  refine exists_congr fun names => exists_congr fun c => and_congr_right fun hp => ?_
  rw [entry_eq_ok]
  refine ⟨fun hfile => ⟨?_, hfile⟩, fun h => h.2⟩
  rw [hp]
  exact locate_joins hroot hfile

theorem mem_pathsBelow (hroot : s.entry root = .ok (l, .directory)) :
    p ∈ s.entries.filterMap (pathBelow? root l) ↔ s.Below root l p := by
  rw [List.mem_filterMap]
  constructor
  · rintro ⟨x, hx, hbelow⟩
    obtain ⟨names, c, rfl, -, hp⟩ := pathBelow?_eq_some hbelow
    exact ⟨names, c, hp, lookup_of_mem hx⟩
  · rintro ⟨names, c, rfl, hfile⟩
    have hne : names ≠ [] := by
      rintro rfl
      rw [List.append_nil, (entry_eq_ok.1 hroot).2] at hfile
      cases hfile
    exact ⟨_, mem_of_lookup (by simp [hne]) hfile, by simp [pathBelow?, below?_append l hne]⟩

/-- Paths below a root are told apart by their components. -/
theorem eq_of_components (hroot : s.locate root = .ok l) (hp : s.Below root l p) (hq : s.Below root l q)
    (h : p.components = q.components) : p = q := by
  have hne : root ≠ [] := by
    rintro rfl
    cases hroot
  obtain ⟨names, c, rfl, hfile⟩ := hp
  obtain ⟨names', c', rfl, hfile'⟩ := hq
  rw [Path.components_joins hne fun n hn => isName_of_lookup hfile n (by simp [hn]),
    Path.components_joins hne fun n hn => isName_of_lookup hfile' n (by simp [hn])] at h
  have hnames : names = names' :=
    List.map_injective_iff.2 (fun _ _ => Path.Component.name.inj) (List.append_cancel_left h)
  rw [hnames]

/-- **The same files are found** when none with the extension has changed. -/
theorem discover_congr (hroot : ∀ x, s'.entry root = .ok x ↔ s.entry root = .ok x)
    (hfiles : ∀ p : Path, p.hasExtension extension = true → ∀ x, s'.entry p = .ok x ↔ s.entry p = .ok x)
    {ps : List Path} (h : s.discover root extension = .ok ps) : s'.discover root extension = .ok ps := by
  obtain ⟨l, c, hentry, rfl⟩ | ⟨l, hentry, rfl⟩ := discover_eq_ok.1 h
  · exact discover_eq_ok.2 (.inl ⟨l, c, (hroot _).2 hentry, rfl⟩)
  · have hentry' := (hroot _).2 hentry
    have hl := (entry_eq_ok.1 hentry).1
    have hl' := (entry_eq_ok.1 hentry').1
    refine discover_eq_ok.2 (.inr ⟨l, hentry', sortPaths_congr ?_ ?_⟩)
    · refine (List.perm_ext_iff_of_nodup ((nodup_pathsBelow hl).filter _) ((nodup_pathsBelow hl').filter _)).2 fun p => ?_
      rw [List.mem_filter, List.mem_filter, mem_pathsBelow hentry, mem_pathsBelow hentry', below_iff_entry hl,
        below_iff_entry hl']
      refine and_congr_left fun hext => ?_
      simp only [hfiles p hext]
    · intro p hp q hq
      exact eq_of_components hl ((mem_pathsBelow hentry).1 (List.mem_filter.1 hp).1)
        ((mem_pathsBelow hentry).1 (List.mem_filter.1 hq).1)

end Store
end InlineMarkup
