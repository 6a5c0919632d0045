import ImportHeader.Name
import Std.Data.HashMap

/-! The classes that a project declares. The index keeps its entries in the order of their
insertion and, beside that, groups their places by name, by last segment and by file.
-/

namespace ImportHeader

/-- The number of a file. -/
structure FileId where
  index : Nat
deriving DecidableEq, Inhabited, Hashable, Ord

/-- A file number as it is shown. -/
def FileId.display (file : FileId) : Text :=
  "file#" ++ Text.ofNat file.index

/-- A declared class and the file that declares it. -/
structure SymbolEntry where
  name : Name
  file : FileId
deriving DecidableEq, Inhabited, Hashable

/-- The places of entries, grouped by a key and in the order of their insertion. No group is empty.
-/
abbrev SymbolPlaces (κ : Type) [BEq κ] [Hashable κ] :=
  Std.HashMap κ (List Nat)

namespace SymbolPlaces

variable {κ : Type} [BEq κ] [Hashable κ]

/-- Adds a place at the end of a group. -/
def push (places : SymbolPlaces κ) (key : κ) (place : Nat) : SymbolPlaces κ :=
  places.alter key fun group? => some (group?.getD [] ++ [place])

/-- Takes a place out of a group. -/
def drop (places : SymbolPlaces κ) (key : κ) (place : Nat) : SymbolPlaces κ :=
  places.alter key fun group? =>
    match (group?.getD []).filter fun other => other != place with
    | [] => none
    | kept => some kept

end SymbolPlaces

/-- All classes known to a project. Every entry has a slot of its own, at a place that never
changes; the slot of an entry that was taken out stays empty.
-/
structure SymbolIndex where
  slots : Array (Option SymbolEntry)
  byName : SymbolPlaces Name
  byLast : SymbolPlaces Text
  byFile : SymbolPlaces FileId

namespace SymbolIndex

/-- The index without entries. -/
def empty : SymbolIndex :=
  ⟨#[], ∅, ∅, ∅⟩

instance : Inhabited SymbolIndex := ⟨empty⟩

/-- Adds one entry. -/
def insert (index : SymbolIndex) (entry : SymbolEntry) : SymbolIndex where
  slots := index.slots.push (some entry)
  byName := index.byName.push entry.name index.slots.size
  byLast := index.byLast.push entry.name.last index.slots.size
  byFile := index.byFile.push entry.file index.slots.size

/-- Empties a slot, and takes its place out of the groups by name and by last segment. -/
def vacate (index : SymbolIndex) (place : Nat) : SymbolIndex :=
  match index.slots.getD place none with
  | none => index
  | some entry =>
      { index with
        slots := index.slots.setIfInBounds place none
        byName := index.byName.drop entry.name place
        byLast := index.byLast.drop entry.name.last place }

/-- Takes out all entries of a file. -/
def removeFile (index : SymbolIndex) (file : FileId) : SymbolIndex :=
  match index.byFile[file]? with
  | none => index
  | some places => places.foldl vacate { index with byFile := index.byFile.erase file }

/-- Replaces the entries of a file. -/
def addFile (index : SymbolIndex) (file : FileId) (names : List Name) : SymbolIndex :=
  names.foldl (fun index name => index.insert ⟨name, file⟩) (index.removeFile file)

/-- All entries in the order of their insertion. -/
def entries (index : SymbolIndex) : List SymbolEntry :=
  index.slots.toList.filterMap id

/-- The entries at the given places. -/
def collect (index : SymbolIndex) (places : List Nat) : List SymbolEntry :=
  places.filterMap fun place => index.slots.getD place none

/-- The entries with exactly the given name. -/
def named (index : SymbolIndex) (name : Name) : List SymbolEntry :=
  index.collect (index.byName.getD name [])

/-- The entries with the given last segment. -/
def endingIn (index : SymbolIndex) (segment : Text) : List SymbolEntry :=
  index.collect (index.byLast.getD segment [])

/-- The entries of a file. -/
def inFile (index : SymbolIndex) (file : FileId) : List SymbolEntry :=
  index.collect (index.byFile.getD file [])

/-- Whether some entry has the given name. -/
def contains (index : SymbolIndex) (name : Name) : Bool :=
  index.byName.contains name

/-- The number of entries. -/
def size (index : SymbolIndex) : Nat :=
  index.byFile.fold (fun count _ places => count + places.length) 0

/-- Whether there are no entries. -/
def isEmpty (index : SymbolIndex) : Bool :=
  index.byFile.isEmpty

/-- The number of files that have entries. -/
def fileCount (index : SymbolIndex) : Nat :=
  index.byFile.size

/-- The name of an entry as seen from a namespace, if it lies inside it. -/
def relativeName? (space : Name) (name : Name) : Option Name :=
  if space.length < name.length && name.startsWith space then
    Name.ofSegments? (name.segments.drop space.length)
  else
    none

/-- The names of the entries inside a namespace as seen from it; all names if there is none.
-/
def relativeTo (index : SymbolIndex) (space? : Option Name) : List Name :=
  match space? with
  | some space => index.entries.filterMap fun entry => relativeName? space entry.name
  | none => index.entries.map SymbolEntry.name

/-- The index with the given entries. -/
def ofEntries (entries : List SymbolEntry) : SymbolIndex :=
  entries.foldl insert empty

end SymbolIndex

end ImportHeader
