import InlineMarkup.Diagnostic
import InlineMarkup.Files.Path
/-!
# Files.Store — files as a value

A store holds directories and files by location, the names on the way from the top.  Relative paths begin at its working
directory.  Reading and writing give what the operating system would say.  A store is always a tree: `put` keeps it one
(`isTree_putIn`).  The source files below a root are those with a given extension, in the order of their paths
(`discover`).
-/
namespace InlineMarkup

/-- The names on the way to a file. -/
abbrev Location := List Text

/-- What a file holds: a text, or bytes that are none. -/
inductive Content where
  | text (t : Text)
  | binary (bytes : List UInt8)
  deriving DecidableEq, Repr

/-- What is at a location. -/
inductive Entry where
  | directory
  | file (c : Content)
  deriving DecidableEq, Repr

/-- What a file or a directory can be called. -/
def isName (n : Text) : Bool := n != [] && n != ['.'] && n != ['.', '.'] && !n.contains '/'

/-- Entries that make up a tree: one a location, names throughout, and directories on the way to everything. -/
structure IsTree (entries : List (Location × Entry)) : Prop where
  nodup : (entries.map Prod.fst).Nodup
  names : ∀ x ∈ entries, x.1 ≠ [] ∧ ∀ n ∈ x.1, isName n = true
  parents : ∀ x ∈ entries, x.1.dropLast = [] ∨ (x.1.dropLast, Entry.directory) ∈ entries

theorem IsTree.nil : IsTree [] := ⟨List.nodup_nil, by simp, by simp⟩

/-- Directories and files; the top is always a directory. -/
structure Store where
  entries : List (Location × Entry) := []
  workingDirectory : Location := []
  isTree : IsTree entries := by exact IsTree.nil
  deriving Repr

/-- Why an access fails. -/
inductive AccessFault where
  | notFound
  | notADirectory
  | isADirectory
  | notText
  deriving DecidableEq, Repr

namespace AccessFault

def message : AccessFault → String
  | .notFound => "No such file or directory (os error 2)"
  | .notADirectory => "Not a directory (os error 20)"
  | .isADirectory => "Is a directory (os error 21)"
  | .notText => "stream did not contain valid UTF-8"

/-- The report on a failed access to a path. -/
def report (f : AccessFault) (p : Path) : Diagnostic where
  kind := .io
  message := String.ofList p ++ ": " ++ f.message
  cause := some f.message

end AccessFault

namespace Store

/-- What is at a location. -/
def lookup (s : Store) (l : Location) : Option Entry :=
  if l = [] then some .directory else (s.entries.find? (·.1 == l)).map (·.2)

/-- An entry can be at a location: its directory is there, and nothing below it is lost. -/
def accepts (s : Store) (l : Location) (e : Entry) : Bool :=
  l != [] && l.all isName && s.lookup l.dropLast == some .directory &&
    (s.lookup l != some .directory || e == .directory)

/-- The entries with one more, in place of what is at its location. -/
def putIn (entries : List (Location × Entry)) (l : Location) (e : Entry) : List (Location × Entry) :=
  (l, e) :: entries.filter (·.1 != l)

theorem mem_of_lookup {s : Store} {l : Location} {e : Entry} (hl : l ≠ []) (h : s.lookup l = some e) :
    (l, e) ∈ s.entries := by
  rw [lookup, if_neg hl] at h
  obtain ⟨x, hx, rfl⟩ := Option.map_eq_some_iff.1 h
  have h1 := List.find?_some hx
  simp only [beq_iff_eq] at h1
  exact h1 ▸ List.mem_of_find?_eq_some hx

theorem eq_of_mem_of_nodup : ∀ {entries : List (Location × Entry)}, (entries.map Prod.fst).Nodup →
    ∀ {l : Location} {e e' : Entry}, (l, e) ∈ entries → (l, e') ∈ entries → e = e'
  | [], _, _, _, _, h, _ => absurd h (List.not_mem_nil)
  | x :: xs, hn, l, e, e', h, h' => by
    rw [List.map_cons, List.nodup_cons] at hn
    rcases List.mem_cons.1 h with rfl | h <;> rcases List.mem_cons.1 h' with h' | h'
    · exact (Prod.mk.inj h').2.symm
    · exact absurd (List.mem_map.2 ⟨_, h', rfl⟩) hn.1
    · exact absurd (List.mem_map.2 ⟨_, h, h' ▸ rfl⟩) hn.1
    · exact eq_of_mem_of_nodup hn.2 h h'

theorem lookup_of_mem {s : Store} {l : Location} {e : Entry} (h : (l, e) ∈ s.entries) : s.lookup l = some e := by
  have hl : l ≠ [] := (s.isTree.names _ h).1
  rw [lookup, if_neg hl]
  cases hf : s.entries.find? (·.1 == l) with
  | none => exact absurd (beq_self_eq_true l) (List.find?_eq_none.1 hf _ h)
  | some x =>
    have h1 : x.1 = l := by simpa using List.find?_some hf
    have h2 := List.mem_of_find?_eq_some hf
    exact congrArg some (eq_of_mem_of_nodup s.isTree.nodup (h1 ▸ h2 : (l, x.2) ∈ s.entries) h)

/-- A tree stays one. -/
theorem isTree_putIn (s : Store) (l : Location) (e : Entry) (h : s.accepts l e = true) :
    IsTree (putIn s.entries l e) := by
  simp only [accepts, Bool.and_eq_true, Bool.or_eq_true, bne_iff_ne, beq_iff_eq, List.all_eq_true] at h
  obtain ⟨⟨⟨hl, hn⟩, hp⟩, hd⟩ := h
  refine ⟨?_, ?_, ?_⟩
  · rw [putIn, List.map_cons, List.nodup_cons]
    refine ⟨fun hm => ?_, s.isTree.nodup.sublist (List.filter_sublist.map _)⟩
    obtain ⟨x, hx, hxl⟩ := List.mem_map.1 hm
    have := (List.mem_filter.1 hx).2
    simp [hxl] at this
  · intro x hx
    rcases List.mem_cons.1 hx with rfl | hx
    · exact ⟨hl, hn⟩
    · exact s.isTree.names x (List.mem_filter.1 hx).1
  · intro x hx
    rcases List.mem_cons.1 hx with rfl | hx
    · by_cases h0 : l.dropLast = []
      · exact .inl h0
      · refine .inr (List.mem_cons_of_mem _ (List.mem_filter.2 ⟨mem_of_lookup h0 hp, ?_⟩))
        have hlen : l.dropLast.length < l.length := by
          rw [List.length_dropLast]
          have := List.length_pos_iff.2 hl
          omega
        simp only [bne_iff_ne]
        exact fun he => absurd (congrArg List.length he) (by omega)
    · obtain ⟨hx, hxl⟩ := List.mem_filter.1 hx
      rcases s.isTree.parents x hx with h0 | h0
      · exact .inl h0
      · refine .inr ?_
        by_cases hxp : x.1.dropLast = l
        · rw [hxp] at h0 ⊢
          have he : e = .directory := hd.resolve_left (fun hne => hne (lookup_of_mem h0))
          exact he ▸ List.mem_cons_self
        · exact List.mem_cons_of_mem _ (List.mem_filter.2 ⟨h0, by simpa using hxp⟩)

/-- Puts an entry at a location, if it can be there. -/
def put (s : Store) (l : Location) (e : Entry) : Store :=
  if h : s.accepts l e = true then { s with entries := putIn s.entries l e, isTree := s.isTree_putIn l e h } else s

/-- Goes on to a piece of a path; only a directory can be left. -/
def step (s : Store) (l : Location) (piece : Text) : Except AccessFault Location :=
  match s.lookup l with
  | none => .error .notFound
  | some (.file _) => .error .notADirectory
  | some .directory =>
    if piece = [] ∨ piece = ['.'] then .ok l
    else if piece = ['.', '.'] then .ok l.dropLast
    else .ok (l ++ [piece])

/-- The location that a path leads to; there need not be anything. -/
def locate (s : Store) (p : Path) : Except AccessFault Location :=
  match p with
  | [] => .error .notFound
  | '/' :: r => (Text.pieces '/' r).foldlM s.step []
  | p => (Text.pieces '/' p).foldlM s.step s.workingDirectory

/-- What a path leads to. -/
def entry (s : Store) (p : Path) : Except AccessFault (Location × Entry) := do
  let l ← s.locate p
  match s.lookup l with
  | some e => pure (l, e)
  | none => .error .notFound

/-- The text of a file. -/
def readText (s : Store) (p : Path) : Except AccessFault Text := do
  match ← s.entry p with
  | (_, .directory) => .error .isADirectory
  | (_, .file (.binary _)) => .error .notText
  | (_, .file (.text t)) => pure t

/-- Writes the text of a file, which may be new. -/
def writeText (s : Store) (p : Path) (t : Text) : Except AccessFault Store := do
  let l ← s.locate p
  match s.lookup l with
  | some .directory => .error .isADirectory
  | _ => pure (s.put l (.file (.text t)))

/-- The path leads to a file. -/
def isFile (s : Store) (p : Path) : Bool :=
  match s.entry p with
  | .ok (_, .file _) => true
  | _ => false

/-- Adds the directories on the way to a location below another one. -/
def addDirectories (s : Store) (above : Location) : Location → Store
  | [] => s
  | n :: ns =>
    let l := above ++ [n]
    let s := if (s.lookup l).isNone then s.put l .directory else s
    s.addDirectories l ns

/-- Adds an entry with the directories on the way to it. -/
def add (s : Store) (l : Location) (e : Entry) : Store := (s.addDirectories [] l.dropLast).put l e

/-! ## Files below a root -/

/-- Puts a path where it belongs among paths in order. -/
def insertPath (p : Path) : List Path → List Path
  | [] => [p]
  | q :: qs => if q.lt p then q :: insertPath p qs else p :: q :: qs

/-- Paths in order. -/
def sortPaths (ps : List Path) : List Path := ps.foldr insertPath []

/-- The names from a location to another one below it. -/
def below? : Location → Location → Option (List Text)
  | [], [] => none
  | [], names => some names
  | _ :: _, [] => none
  | a :: as, b :: bs => if a = b then below? as bs else none

/-- The path of a file below a root that is at a location. -/
def pathBelow? (root : Path) (l : Location) : Location × Entry → Option Path
  | (l', .file _) => (below? l l').map fun names => names.foldl Path.join root
  | (_, .directory) => none

/-- The source files below a root. -/
def discover (s : Store) (root : Path) (extension : Text) : Except AccessFault (List Path) := do
  match ← s.entry root with
  | (_, .file _) => pure ([root].filter (·.hasExtension extension))
  | (l, .directory) =>
    pure (sortPaths ((s.entries.filterMap (pathBelow? root l)).filter (·.hasExtension extension)))

end Store
end InlineMarkup
