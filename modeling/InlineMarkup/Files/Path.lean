import InlineMarkup.Text.Basic
/-!
# Files.Path — names of files

A path is a text with slashes.  Its components leave out repeated slashes and single dots, except a dot at the very
beginning.  The extension of a file name is what follows its last dot, unless nothing stands before that dot.
-/
namespace InlineMarkup

/-- A path, with slashes between its parts. -/
abbrev Path := Text

namespace Path

/-- A part of a path. -/
inductive Component where
  | root
  | here
  | up
  | name (n : Text)
  deriving DecidableEq, Repr

/-- The component that a piece between slashes stands for, if it stands for one. -/
def component? (piece : Text) (isFirst : Bool) : Option Component :=
  if piece = [] then (if isFirst then some .root else none)
  else if piece = ['.'] then (if isFirst then some .here else none)
  else if piece = ['.', '.'] then some .up
  else some (.name piece)

/-- The components of a path. -/
def components (p : Path) : List Component :=
  match p with
  | [] => []
  | p =>
    match Text.pieces '/' p with
    | [] => []
    | first :: more => (component? first true).toList ++ more.filterMap (component? · false)

/-- The order of components of different kinds. -/
def Component.rank : Component → Nat
  | .root => 0
  | .here => 1
  | .up => 2
  | .name _ => 3

def Component.lt : Component → Component → Bool
  | .name a, .name b => Text.lt a b
  | a, b => a.rank < b.rank

/-- The first list comes before the second, component by component. -/
def componentsLt : List Component → List Component → Bool
  | [], [] => false
  | [], _ :: _ => true
  | _ :: _, [] => false
  | a :: as, b :: bs => if a.lt b then true else if b.lt a then false else componentsLt as bs

/-- The order of paths. -/
def lt (p q : Path) : Bool := componentsLt p.components q.components

/-- A path backwards, without slashes and single dots at its end. -/
def dropTrailing : Text → Text
  | '/' :: r => dropTrailing r
  | '.' :: '/' :: r => dropTrailing r
  | r => r

/-- The file name at the end of a path and what stands before it; a path that ends in a root or in dots has none. -/
def splitName? (p : Path) : Option (Path × Text) :=
  let r := dropTrailing p.reverse
  let name := (r.takeWhile (· != '/')).reverse
  if name = [] ∨ name = ['.'] ∨ name = ['.', '.'] then none
  else some ((r.dropWhile (· != '/')).reverse, name)

/-- A file name cut at its last dot, unless nothing stands before it. -/
def cutName (name : Text) : Text × Option Text :=
  match name.reverse.dropWhile (· != '.') with
  | [] => (name, none)
  | [_] => (name, none)
  | _ :: stem => (stem.reverse, some (name.reverse.takeWhile (· != '.')).reverse)

/-- The extension of a path's file name. -/
def extension? (p : Path) : Option Text := p.splitName?.bind fun (_, name) => (cutName name).2

/-- The extension is this one, in either case. -/
def hasExtension (p : Path) (extension : Text) : Bool :=
  match p.extension? with
  | some e => Text.sameAsciiFold e extension
  | none => false

/-- Cuts the file name at its last dot and puts an extension there; a path without a file name stays. -/
def setExtension (p : Path) (extension : Text) : Path :=
  match p.splitName? with
  | none => p
  | some (dir, name) => dir ++ (cutName name).1 ++ if extension.isEmpty then [] else '.' :: extension

/-- The path with another extension: the old one is taken off the end, the dot before it stays, and the new one is set on
what that leaves.  An extension is no path, so one with a slash in it gives nothing. -/
def withExtension? (p : Path) (extension : Text) : Option Path :=
  if extension.contains '/' then none
  else
    let kept := match p.extension? with
      | some e => p.take (p.length - e.length)
      | none => p
    some (setExtension kept extension)

/-- A name below a path. -/
def join (p : Path) (name : Text) : Path :=
  if p.isEmpty || p.getLast? == some '/' then p ++ name else p ++ '/' :: name

end Path
end InlineMarkup
