import ImportHeader.Name
import ImportHeader.Text.Position

/-! Import statements: what a `use` declaration binds in its file. -/

namespace ImportHeader

/-- What an import binds. -/
inductive ImportKind where
  | classLike
  | function
  | const
deriving DecidableEq, Inhabited

/-- The keyword that marks an import of functions or constants. -/
def ImportKind.keyword? : ImportKind → Option Text
  | .classLike => none
  | .function => some "function"
  | .const => some "const"

/-- One name of an import, with its alias, its own kind inside a mixed group, and its place
if it was read from a source.
-/
structure ImportItem where
  name : Name
  alias? : Option Text := none
  kind? : Option ImportKind := none
  span? : Option Span := none
deriving DecidableEq, Inhabited

/-- The local name that an item binds: its alias, or the last segment of its name. -/
def ImportItem.bound (item : ImportItem) : Text :=
  item.alias?.getD item.name.last

/-- One `use` declaration. In the group form every item stands below the name `group?`. -/
structure Import where
  kind : ImportKind
  group? : Option Name
  items : List ImportItem
deriving DecidableEq, Inhabited

namespace Import

/-- The import of one class by its full name. -/
def single (name : Name) : Import :=
  ⟨.classLike, none, [⟨name, none, none, none⟩]⟩

/-- The full name of an item, the name of the group included. -/
def fullName (declaration : Import) (item : ImportItem) : Name :=
  match declaration.group? with
  | some group => group ++ item.name
  | none => item.name

/-- The kind of an item: its own inside a mixed group, else that of the declaration. -/
def itemKind (declaration : Import) (item : ImportItem) : ImportKind :=
  item.kind?.getD declaration.kind

/-- The items that bind classes. -/
def classItems (declaration : Import) : List ImportItem :=
  declaration.items.filter fun item => declaration.itemKind item == .classLike

/-- A declaration is sorted by the full name of its first item, and before all others if it
has none.
-/
def sortKey (declaration : Import) : SortKey :=
  match declaration.items with
  | item :: _ => (declaration.fullName item).sortKey
  | [] => ⟨0, []⟩

/-- Whether an item of the given kind has the given segments as its full name. -/
def binds (declaration : Import) (name : Name) (kind : ImportKind) : Bool :=
  declaration.items.any fun item =>
    declaration.itemKind item == kind
      && (declaration.fullName item).segments == name.segments

end Import

end ImportHeader
