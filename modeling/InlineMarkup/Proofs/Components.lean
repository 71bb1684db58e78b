import InlineMarkup.Proofs.Locations
/-!
# Proofs.Components — paths as folders and names

A path with a file name is what leads to the folder, the name, and slashes and single dots behind it, which stand for
nothing (`splitName?_eq_some`).  The name is the last component, and joining a name to a path adds a component.
-/
namespace InlineMarkup.Path

open Store (IsFolderPart)

variable {p dir : Path} {n t : Text}

/-! ## Components -/

def ofPieces : List Text → List Component
  | [] => []
  | first :: more => (component? first true).toList ++ more.filterMap (component? · false)

theorem components_eq (hp : p ≠ []) : p.components = ofPieces (Text.pieces '/' p) := by
  cases p with
  | nil => exact absurd rfl hp
  | cons c p =>
    unfold components
    dsimp only
    cases Text.pieces '/' (c :: p) <;> rfl

theorem ofPieces_append {ps : List Text} (hps : ps ≠ []) (qs : List Text) :
    ofPieces (ps ++ qs) = ofPieces ps ++ qs.filterMap (component? · false) := by
  cases ps with
  | nil => exact absurd rfl hps
  | cons first more => simp [ofPieces]

theorem components_slash (hp : p ≠ []) (t : Text) :
    components (p ++ '/' :: t) = p.components ++ (Text.pieces '/' t).filterMap (component? · false) := by
  rw [components_eq (by simp), components_eq hp, Text.pieces_append, ofPieces_append (Text.pieces_ne_nil '/' p)]

theorem component?_root : component? [] true = some .root := rfl

theorem component?_nil : component? [] false = none := rfl

theorem component?_of_isName (hn : isName n = true) (isFirst : Bool) : component? n isFirst = some (.name n) := by
  obtain ⟨hnil, hhere, hup, -⟩ := isName_iff.1 hn
  simp [component?, hnil, hhere, hup]

theorem components_name (hp : p ≠ []) (hn : isName n = true) : components (p ++ '/' :: n) = p.components ++ [.name n] := by
  rw [components_slash hp, Text.pieces_of_notMem (Store.not_slash_of_isName hn)]
  simp [component?_of_isName hn]

theorem components_join (hp : p ≠ []) (hn : isName n = true) : (p.join n).components = p.components ++ [.name n] := by
  unfold join
  by_cases hlast : p.getLast? = some '/'
  · rw [if_pos (by simp [hlast])]
    obtain ⟨up, rfl⟩ := List.getLast?_eq_some_iff.1 hlast
    rw [List.append_assoc, List.singleton_append]
    by_cases hup : up = []
    · subst hup
      rw [components_eq (by simp), List.nil_append, Text.pieces, if_pos rfl,
        Text.pieces_of_notMem (Store.not_slash_of_isName hn)]
      simp [ofPieces, component?_of_isName hn, components, Text.pieces, component?_root, component?_nil]
    · rw [components_name hup hn, components_slash hup]
      simp [Text.pieces, component?]
  · rw [if_neg (by simp [hp, hlast])]
    exact components_name hp hn

theorem join_ne_nil (p : Path) (hn : isName n = true) : p.join n ≠ [] := by
  have hne := Store.ne_nil_of_isName hn
  rw [Store.join_eq]
  simp [hne]

theorem components_joins {names : List Text} (hp : p ≠ []) (hnames : ∀ n ∈ names, isName n = true) :
    components (names.foldl join p) = p.components ++ names.map .name := by
  induction names generalizing p with
  | nil => simp
  | cons n names ih =>
    have hn := hnames n List.mem_cons_self
    rw [List.foldl_cons, ih (join_ne_nil p hn) fun m hm => hnames m (List.mem_cons_of_mem _ hm), components_join hp hn]
    simp

/-- **The last component**, behind what leads to a folder. -/
theorem exists_components (hdir : IsFolderPart dir) : ∃ cs, ∀ n, '/' ∉ n → n ≠ [] → n ≠ ['.'] →
    components (dir ++ n) = cs ++ [if n = ['.', '.'] then .up else .name n] := by
  have hlast : ∀ n : Text, n ≠ [] → n ≠ ['.'] → ∀ isFirst, component? n isFirst =
      some (if n = ['.', '.'] then .up else .name n) := by
    intro n hne hdot isFirst
    unfold component?
    rw [if_neg hne, if_neg hdot]
    split <;> rfl
  rcases hdir with rfl | ⟨up, rfl⟩
  · refine ⟨[], fun n hslash hne hdot => ?_⟩
    rw [List.nil_append, components_eq hne, Text.pieces_of_notMem hslash]
    simp [ofPieces, hlast n hne hdot]
  · by_cases hup : up = []
    · refine ⟨[.root], fun n hslash hne hdot => ?_⟩
      subst hup
      rw [List.nil_append, List.singleton_append, components_eq (by simp), Text.pieces, if_pos rfl,
        Text.pieces_of_notMem hslash]
      simp [ofPieces, hlast n hne hdot, component?_root]
    · refine ⟨up.components, fun n hslash hne hdot => ?_⟩
      rw [List.append_assoc, List.singleton_append, components_slash hup, Text.pieces_of_notMem hslash]
      simp [hlast n hne hdot]

/-! ## What stands behind a name -/

/-- Slashes, and single dots behind them. -/
inductive IsTail : Text → Prop where
  | nil : IsTail []
  | slash {t : Text} : IsTail t → IsTail (t ++ ['/'])
  | dot {t : Text} : IsTail t → IsTail (t ++ ['/', '.'])

theorem IsTail.take (ht : IsTail t) (k : Nat) : IsTail (t.take k) := by
  induction ht with
  | nil => simpa using .nil
  | @slash t ht ih =>
    by_cases hk : k ≤ t.length
    · rwa [List.take_append_of_le_length hk]
    · rw [List.take_of_length_le (by simp; omega)]
      exact .slash ht
  | @dot t ht ih =>
    by_cases hk : k ≤ t.length
    · rwa [List.take_append_of_le_length hk]
    · by_cases hk' : k = t.length + 1
      · subst hk'
        rw [List.take_length_add_append]
        exact .slash ht
      · rw [List.take_of_length_le (by simp; omega)]
        exact .dot ht

theorem dropTrailing_tail (ht : IsTail t) (r : Text) : dropTrailing (t.reverse ++ r) = dropTrailing r := by
  induction ht with
  | nil => rfl
  | slash _ ih => simpa [dropTrailing] using ih
  | dot _ ih => simpa [dropTrailing] using ih

theorem splitName?_tail (ht : IsTail t) (p : Path) : splitName? (p ++ t) = splitName? p := by
  unfold splitName?
  rw [List.reverse_append, dropTrailing_tail ht]

theorem components_tail (ht : IsTail t) (hp : p ≠ []) : components (p ++ t) = p.components := by
  have hne : ∀ t : Text, p ++ t ≠ [] := fun t h => hp (List.append_eq_nil_iff.1 h).1
  induction ht with
  | nil => rw [List.append_nil]
  | @slash t _ ih =>
    rw [← List.append_assoc, components_slash (hne t), ih]
    simp [Text.pieces, component?]
  | @dot t _ ih =>
    rw [← List.append_assoc, components_slash (hne t), ih]
    simp [Text.pieces, component?]

theorem exists_tail (r : Text) : ∃ t, IsTail t ∧ r.reverse = (dropTrailing r).reverse ++ t := by
  fun_induction dropTrailing r with
  | case1 r ih =>
    obtain ⟨t, ht, hr⟩ := ih
    exact ⟨t ++ ['/'], .slash ht, by rw [List.reverse_cons, hr, List.append_assoc]⟩
  | case2 r ih =>
    obtain ⟨t, ht, hr⟩ := ih
    exact ⟨t ++ ['/', '.'], .dot ht, by simp [hr]⟩
  | case3 r => exact ⟨[], .nil, (List.append_nil _).symm⟩

/-- **A path with a name**: what leads to the folder, the name, and what stands for nothing. -/
theorem splitName?_eq_some (h : splitName? p = some (dir, n)) :
    ∃ t, IsTail t ∧ p = dir ++ n ++ t ∧ IsFolderPart dir ∧ isName n = true := by
  obtain ⟨t, ht, hp⟩ := exists_tail p.reverse
  rw [List.reverse_reverse] at hp
  obtain ⟨dir', n', hcut, hslash, hdir⟩ := Text.exists_last_piece '/' (dropTrailing p.reverse).reverse
  obtain ⟨htake, hdrop⟩ := Text.cut_last hdir hslash
  rw [← hcut, List.reverse_reverse] at htake hdrop
  unfold splitName? at h
  dsimp only at h
  rw [htake, hdrop, List.reverse_reverse, List.reverse_reverse] at h
  split at h
  · cases h
  · next hname =>
    obtain ⟨rfl, rfl⟩ := Prod.mk.inj (Option.some.inj h)
    refine ⟨t, ht, by rw [← hcut, ← hp], hdir, ?_⟩
    simp only [not_or] at hname
    exact isName_iff.2 ⟨hname.1, hname.2.1, hname.2.2, hslash⟩

end InlineMarkup.Path
