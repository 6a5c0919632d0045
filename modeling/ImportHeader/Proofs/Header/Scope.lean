import ImportHeader.Header.Edit
import Mathlib.Data.List.Basic

/-! The import scope under edits: statements before the imports, the imports, and statements
behind them. An edit changes the middle part only.
-/

namespace ImportHeader

-----------------------------------------------------------------------------------------
-- Replacing the scope of a file
-----------------------------------------------------------------------------------------

/-- The first namespace after a replacement is the old one with the new statements. -/
theorem SourceFile.findSome?_replaceInFirst (stmts : List Stmt) (items : List Item)
    : (SourceFile.replaceInFirst stmts items).findSome? Item.space?
      = (items.findSome? Item.space?).map fun space => { space with stmts } := by
  induction items with
  | nil => rfl
  | cons item rest ih =>
      cases item with
      | plain stmt => exact ih
      | scope space => rfl

/-- A file whose scope was replaced has the new scope, with or without a namespace. -/
@[simp] theorem SourceFile.importScope_withImportScope (file : SourceFile) (stmts : List Stmt)
    : (file.withImportScope stmts).importScope = stmts := by
  unfold SourceFile.withImportScope
  cases found : file.firstNamespace? with
  | some space =>
      have kept : (SourceFile.replaceInFirst stmts file.items).findSome? Item.space?
          = some { space with stmts } := by
        rw [SourceFile.findSome?_replaceInFirst]
        exact congrArg _ found
      simp [SourceFile.importScope, SourceFile.firstNamespace?, kept]
  | none =>
      have none' : (stmts.map Item.plain).findSome? Item.space? = none := by
        simp [List.findSome?_eq_none_iff, Item.space?]
      simp only [SourceFile.importScope, SourceFile.firstNamespace?, none', List.filterMap_map]
      exact List.filterMap_some

theorem SourceFile.replaceInFirst_self {items : List Item} {space : Namespace}
    (first : items.findSome? Item.space? = some space)
    : SourceFile.replaceInFirst space.stmts items = items := by
  induction items with
  | nil => rfl
  | cons item rest ih =>
      cases item with
      | plain stmt => exact congrArg _ (ih first)
      | scope other =>
          cases first
          rfl

/-- A file with its own scope is itself. -/
theorem SourceFile.withImportScope_importScope (file : SourceFile)
    : file.withImportScope file.importScope = file := by
  unfold SourceFile.withImportScope SourceFile.importScope
  cases found : file.firstNamespace? with
  | some space =>
      dsimp only
      rw [SourceFile.replaceInFirst_self found]
  | none =>
      have plain : (file.items.filterMap Item.stmt?).map Item.plain = file.items := by
        rw [List.map_filterMap]
        refine (List.filterMap_congr fun item listed => ?_).trans List.filterMap_some
        cases item with
        | plain stmt => rfl
        | scope space => cases List.findSome?_eq_none_iff.mp found _ listed
      dsimp only
      rw [plain]

namespace Edit

@[simp] theorem importScope_withScope (edit : Edit) (stmts : List Stmt)
    : (edit.withScope stmts).file.importScope = stmts :=
  SourceFile.importScope_withImportScope edit.file stmts

/-- The import scope of a file under edit. -/
def scope (edit : Edit) : List Stmt :=
  edit.file.importScope

theorem imports_eq (edit : Edit) : edit.imports = edit.scope.filterMap Stmt.declaration? :=
  rfl

@[simp] theorem scope_withScope (edit : Edit) (stmts : List Stmt)
    : (edit.withScope stmts).scope = stmts :=
  edit.importScope_withScope stmts

theorem withScope_scope (edit : Edit) : edit.withScope edit.scope = edit := by
  rw [withScope, scope, SourceFile.withImportScope_importScope]

/-- What an edit keeps of its start: the source, the end of the old header, and how many
statements stood before the imports.
-/
structure SameOrigin (edit origin : Edit) : Prop where
  source : edit.source = origin.source
  region? : edit.region? = origin.region?
  preceding : edit.preceding = origin.preceding

theorem SameOrigin.refl (edit : Edit) : SameOrigin edit edit :=
  ⟨rfl, rfl, rfl⟩

theorem SameOrigin.trans {left middle right : Edit} (hl : SameOrigin left middle)
    (hr : SameOrigin middle right)
    : SameOrigin left right :=
  ⟨hl.source.trans hr.source, hl.region?.trans hr.region?, hl.preceding.trans hr.preceding⟩

theorem sameOrigin_remove (edit : Edit) (aliases : List Text)
    : SameOrigin (edit.remove aliases) edit :=
  ⟨rfl, rfl, rfl⟩

theorem sameOrigin_add (edit : Edit) (name : Name) : SameOrigin (edit.add name) edit := by
  unfold add
  split
  · exact .refl edit
  · exact ⟨rfl, rfl, rfl⟩

theorem sameOrigin_sort (edit : Edit) : SameOrigin edit.sort edit := by
  unfold sort
  dsimp only
  split
  · exact .refl edit
  · exact ⟨rfl, rfl, rfl⟩

/-- An edit as a whole keeps its origin, by induction over the names added. -/
theorem sameOrigin_apply (edit : Edit) (names : List Name) (aliases : List Text)
    : SameOrigin (edit.apply names aliases) edit := by
  refine (sameOrigin_sort _).trans ?_
  suffices added : ∀ current, SameOrigin current edit →
      SameOrigin (names.foldl add current) edit from
    added _ (edit.sameOrigin_remove aliases)
  induction names with
  | nil => exact fun _ kept => kept
  | cons name rest ih =>
      exact fun current kept => ih _ ((current.sameOrigin_add name).trans kept)

theorem scope_remove (edit : Edit) (aliases : List Text)
    : (edit.remove aliases).scope
      = edit.scope.filter fun stmt => (stmt.importUnder? aliases).isNone :=
  edit.scope_withScope _

theorem add_of_imported {edit : Edit} {name : Name} (imported : edit.isImported name)
    : edit.add name = edit := by
  simp [add, imported]

/-- Adding a name puts its import at the place kept for it, which the scope bounds. -/
theorem scope_add {edit : Edit} {name : Name} (absent : edit.isImported name = false)
    : (edit.add name).scope
      = edit.scope.take (min (edit.insertAt + edit.inserted) edit.scope.length)
        ++ Stmt.ofImport name
          :: edit.scope.drop (min (edit.insertAt + edit.inserted) edit.scope.length) := by
  simp only [add, absent, Bool.false_eq_true, if_false]
  exact edit.scope_withScope _

/-- Up to order, adding a name adds one import statement. -/
theorem scope_add_perm {edit : Edit} {name : Name} (absent : edit.isImported name = false)
    : (edit.add name).scope.Perm (Stmt.ofImport name :: edit.scope) := by
  rw [scope_add absent]
  exact List.perm_middle.trans (.cons _ (by rw [List.take_append_drop]))

/-- Without imports there is nothing to sort. -/
theorem sort_of_none {edit : Edit} (absent : SourceFile.firstImport? edit.scope = none)
    : edit.sort = edit := by
  simp only [sort, show SourceFile.firstImport? edit.file.importScope = none from absent]

theorem scope_sort_of_none {edit : Edit} (absent : SourceFile.firstImport? edit.scope = none)
    : edit.sort.scope = edit.scope := by
  rw [sort_of_none absent]

/-- Sorting puts the sorted imports where the first of them stood among the others. -/
theorem sort_of_some {edit : Edit} {first : Nat}
    (found : SourceFile.firstImport? edit.scope = some first)
    : edit.sort
      = edit.withScope
          ((edit.scope.filter fun stmt => !stmt.isImport).take first
          ++ (edit.scope.filter Stmt.isImport).mergeSort
            (fun left right => left.sortKey.le right.sortKey)
          ++ (edit.scope.filter fun stmt => !stmt.isImport).drop first) := by
  simp only [sort, show SourceFile.firstImport? edit.file.importScope = some first from found]
  rfl

theorem scope_sort_of_some {edit : Edit} {first : Nat}
    (found : SourceFile.firstImport? edit.scope = some first)
    : edit.sort.scope
      = (edit.scope.filter fun stmt => !stmt.isImport).take first
        ++ (edit.scope.filter Stmt.isImport).mergeSort
          (fun left right => left.sortKey.le right.sortKey)
        ++ (edit.scope.filter fun stmt => !stmt.isImport).drop first := by
  rw [sort_of_some found, scope_withScope]

/-- Sorting replaces the scope only. -/
theorem sort_eq_withScope (edit : Edit) : edit.sort = edit.withScope edit.sort.scope := by
  cases found : SourceFile.firstImport? edit.scope with
  | none => rw [sort_of_none found, withScope_scope]
  | some first => rw [scope_sort_of_some found, sort_of_some found]

/-- Sorting rearranges the scope. -/
theorem scope_sort_perm (edit : Edit) : edit.sort.scope.Perm edit.scope := by
  cases found : SourceFile.firstImport? edit.scope with
  | none => rw [scope_sort_of_none found]
  | some first =>
      rw [scope_sort_of_some found]
      have sorted := List.mergeSort_perm (edit.scope.filter Stmt.isImport)
        fun left right => left.sortKey.le right.sortKey
      refine (List.perm_append_comm.append_right _).trans ?_
      rw [List.append_assoc, List.take_append_drop]
      exact (sorted.append_right _).trans (List.filter_append_perm Stmt.isImport edit.scope)

end Edit

end ImportHeader
