import ImportHeader.Proofs.Header.Calls
import ImportHeader.Proofs.Name
import ImportHeader.Proofs.Parser.Imports

/-! What imports bind, without places and written forms. An import that is printed and read back
binds the same, so it is removed, taken for known and sorted as before.
-/

namespace ImportHeader

/-- What counts of an item of an import: its kind, its local name and the segments of its full name.
-/
structure Binding where
  kind : ImportKind
  bound : Text
  segments : List Text
deriving DecidableEq

/-- The place of an import in the order of imports, by what it binds. -/
def Binding.sortKey : List Binding → SortKey
  | binding :: _ => ⟨binding.segments.length, List.intercalate ['\\'] binding.segments⟩
  | [] => ⟨0, []⟩

/-- What an import binds. -/
def Import.bindings (declaration : Import) : List Binding :=
  declaration.items.map fun item =>
    ⟨declaration.itemKind item, item.bound, (declaration.fullName item).segments⟩

theorem ImportItem.bound_reread (item : ImportItem) : item.reread.bound = item.bound := by
  unfold bound reread
  rw [Name.last, Name.last, Name.segments_imported]

namespace Import

@[simp] theorem bindings_unplaced (declaration : Import)
    : declaration.unplaced.bindings = declaration.bindings := by
  simp only [bindings, unplaced, List.map_map]
  rfl

theorem segments_fullName_reread (declaration : Import) (item : ImportItem)
    : (declaration.reread.fullName item.reread).segments
      = (declaration.fullName item).segments := by
  unfold fullName reread
  cases declaration.group? with
  | none => exact Name.segments_imported item.name
  | some group =>
      change group.imported.segments ++ item.name.imported.segments = _
      rw [Name.segments_imported, Name.segments_imported]
      rfl

@[simp] theorem bindings_reread (declaration : Import)
    : declaration.reread.bindings = declaration.bindings := by
  rw [bindings, bindings]
  change List.map _ (declaration.items.map ImportItem.reread) = _
  rw [List.map_map]
  refine List.map_congr_left fun item _ => ?_
  rw [Function.comp_apply, segments_fullName_reread, ImportItem.bound_reread]
  rfl

theorem binds_eq (declaration : Import) (name : Name) (kind : ImportKind)
    : declaration.binds name kind
      = declaration.bindings.any fun binding =>
          binding.kind == kind && binding.segments == name.segments := by
  rw [bindings, List.any_map]
  rfl

theorem any_classItems (declaration : Import) (bound : Text)
    : declaration.classItems.any (Text.sameFolded ·.bound bound)
      = declaration.bindings.any fun binding =>
          binding.kind == .classLike && Text.sameFolded binding.bound bound := by
  rw [bindings, classItems, List.any_filter, List.any_map]
  rfl

theorem sortKey_eq (declaration : Import)
    : declaration.sortKey = Binding.sortKey declaration.bindings := by
  unfold sortKey bindings
  cases declaration.items with
  | nil => rfl
  | cons item items => rfl

end Import

/-- Whether a statement is removed hangs on what it binds. -/
theorem Stmt.importUnder?_eq_none_iff {stmt : Stmt} {aliases : List Text} {declaration : Import}
    (found : stmt.declaration? = some declaration)
    : stmt.importUnder? aliases = none
      ↔ ∀ binding, declaration.bindings = [binding] → binding.kind = .classLike
        → aliases.any (Text.sameFolded binding.bound) = false := by
  rw [Stmt.importUnder?, found, Import.bindings]
  dsimp only
  split
  · rename_i item single
    rw [single]
    simp
  · rename_i several
    refine iff_of_true rfl fun binding same => ?_
    obtain ⟨item, single, _⟩ := List.map_eq_singleton_iff.mp same
    exact absurd single (several item)

namespace Edit

/-- What an edit imports, binding by binding. -/
theorem isImported_eq (edit : Edit) (name : Name)
    : edit.isImported name
      = (edit.imports.flatMap Import.bindings).any fun binding =>
          binding.kind == .classLike && binding.segments == name.segments := by
  rw [isImported, List.any_flatMap]
  simp only [Import.binds_eq]

/-- Which local names are taken, binding by binding. -/
theorem isBound_eq (edit : Edit) (bound : Text)
    : edit.isBound bound
      = (edit.imports.flatMap Import.bindings).any fun binding =>
          binding.kind == .classLike && Text.sameFolded binding.bound bound := by
  rw [isBound, List.any_flatMap]
  simp only [Import.any_classItems]

/-- The order of imports is that of what they bind. -/
theorem isSorted_congr {left right : Edit}
    (same : left.imports.map Import.bindings = right.imports.map Import.bindings)
    : left.isSorted = right.isSorted := by
  have keys (edit : Edit) : edit.imports.map Import.sortKey
      = (edit.imports.map Import.bindings).map Binding.sortKey := by
    rw [List.map_map]
    exact List.map_congr_left fun declaration _ => declaration.sortKey_eq
  rw [isSorted, isSorted, keys, keys, same]

end Edit

-----------------------------------------------------------------------------------------
-- Sorted imports
-----------------------------------------------------------------------------------------

theorem Stmt.sortKey_of_declaration? {stmt : Stmt} {declaration : Import}
    (found : stmt.declaration? = some declaration)
    : stmt.sortKey = declaration.sortKey := by
  rw [Stmt.sortKey, found]

/-- Sorting puts the imports in order. -/
theorem Edit.isSorted_sort (edit : Edit) : edit.sort.isSorted = true := by
  rw [Edit.isSorted_iff]
  rw [Edit.imports_eq]
  cases found : SourceFile.firstImport? edit.scope with
  | none =>
      have plain : NoImport edit.scope := List.findIdx?_eq_none_iff.mp found
      rw [Edit.scope_sort_of_none found, plain.declarations]
      exact .nil
  | some first =>
      have plain : NoImport (edit.scope.filter fun stmt => !stmt.isImport) := by
        intro stmt listed
        simpa using (List.mem_filter.mp listed).2
      have front : NoImport ((edit.scope.filter fun stmt => !stmt.isImport).take first) :=
        fun stmt listed => plain stmt (List.mem_of_mem_take listed)
      have back : NoImport ((edit.scope.filter fun stmt => !stmt.isImport).drop first) :=
        fun stmt listed => plain stmt (List.mem_of_mem_drop listed)
      rw [Edit.scope_sort_of_some found, List.filterMap_append, List.filterMap_append,
        front.declarations, back.declarations, List.nil_append, List.append_nil]
      refine List.Pairwise.filterMap _ ?_ (SortKey.pairwise_mergeSort Stmt.sortKey _)
      intro left right ordered declaration here declaration' here'
      rwa [Stmt.sortKey_of_declaration? here, Stmt.sortKey_of_declaration? here'] at ordered

end ImportHeader
