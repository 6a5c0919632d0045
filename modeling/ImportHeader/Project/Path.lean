import ImportHeader.Text.Basic

/-! Paths with slashes. A path keeps its spelling, and is compared by its components:
repeated slashes and inner dots carry no meaning.
-/

namespace ImportHeader

/-- A path as it is spelled. -/
structure Path where
  text : Text
deriving DecidableEq, Inhabited, Hashable

/-- One step of a path. -/
inductive Component where
  | root
  | current
  | parent
  | normal (name : Text)
deriving DecidableEq, Inhabited

/-- Components are ordered by these texts: the root comes first, then the current directory,
then the parent, then the names.
-/
def Component.sortKey : Component → Text
  | .root => ['0']
  | .current => ['1']
  | .parent => ['2']
  | .normal name => '3' :: name

namespace Path

/-- Whether a path starts at the root. -/
def isAbsolute (path : Path) : Bool :=
  path.text.head? == some '/'

/-- The component that a part between two slashes stands for. A dot is one only if it leads
the path.
-/
def component? (leads : Bool) (part : Text) : Option Component :=
  if part.isEmpty then none
  else if part == ['.'] then if leads then some .current else none
  else if part == ['.', '.'] then some .parent
  else some (.normal part)

/-- The parts of a path between its slashes, behind the root if it starts there, and the
component that each of them stands for.
-/
def parts (path : Path) : List (Text × Option Component) :=
  match Text.pieces '/' path.text with
  | [] => []
  | first :: rest =>
      let others := rest.map fun part => (part, component? false part)
      if path.isAbsolute then others else (first, component? true first) :: others

/-- The components of a path. -/
def components (path : Path) : List Component :=
  let steps := path.parts.filterMap Prod.snd
  if path.isAbsolute then .root :: steps else steps

/-- Two spellings of one path. -/
def same (left right : Path) : Bool :=
  left.components == right.components

/-- The order of paths, component by component. -/
def le (left right : Path) : Bool :=
  (compare (left.components.map Component.sortKey)
    (right.components.map Component.sortKey)).isLE

/-- One path below another. An absolute path stands alone, and so does one below the empty
path; otherwise a slash divides the two.
-/
def join (path below : Path) : Path :=
  if below.isAbsolute || path.text.isEmpty then
    below
  else if path.text.getLast? = some '/' then
    ⟨path.text ++ below.text⟩
  else
    ⟨path.text ++ '/' :: below.text⟩

/-- Parts in reverse order, without the leading ones that stand for no component. -/
def trimParts (reversed : List (Text × Option Component)) : List (Text × Option Component) :=
  reversed.dropWhile fun part => part.2.isNone

/-- The path without its last component, if it has one besides the root. -/
def parent? (path : Path) : Option Path :=
  match trimParts path.parts.reverse with
  | [] => none
  | _ :: rest =>
      let kept := (trimParts rest).reverse.map Prod.fst
      let text : Text := List.intercalate ['/'] kept
      some (if path.isAbsolute then ⟨'/' :: text⟩ else ⟨text⟩)

/-- A path and its parents, each with fewer components than the one before it. -/
def ancestorsWithin : Nat → Path → List Path
  | 0, _ => []
  | fuel + 1, path => path :: path.parent?.elim [] (ancestorsWithin fuel)

/-- A path and its parents, up to the root or the empty path. -/
def ancestors (path : Path) : List Path :=
  ancestorsWithin (path.components.length + 1) path

end Path

end ImportHeader
