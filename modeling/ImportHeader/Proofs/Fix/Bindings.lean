import ImportHeader.Proofs.Fix.Plan
import Mathlib.Data.List.Perm.Basic

/-! A run keeps what the imports bind to a name in use: it neither unbinds the name nor binds
it to anything else. Imports that are never unused stay as they are.
-/

namespace ImportHeader

/-- Two texts are the same up to case exactly if their lower-case forms are equal. -/
theorem Text.sameFolded_iff {left right : Text}
    : Text.sameFolded left right = true ↔ Text.lower left = Text.lower right :=
  beq_iff_eq

-----------------------------------------------------------------------------------------
-- What imports bind to a name
-----------------------------------------------------------------------------------------

/-- The full names that a declaration binds to a local name as classes. -/
def Import.boundTo (bound : Text) (declaration : Import) : List Name :=
  (declaration.classItems.filter fun item => Text.sameFolded item.bound bound).map
    declaration.fullName

/-- The full names that imports bind to a local name as classes. -/
def namesBoundTo (bound : Text) (imports : List Import) : List Name :=
  imports.flatMap (Import.boundTo bound)

/-- A declaration that imports one class and nothing else; no other one is ever removed. -/
def Import.isSingleClass (declaration : Import) : Bool :=
  match declaration.items with
  | [item] => declaration.itemKind item == .classLike
  | _ => false

/-- An import statement that is never removed: of functions or constants, or of several names
or none.
-/
def Stmt.isLasting (stmt : Stmt) : Bool :=
  stmt.declaration?.any fun declaration => !declaration.isSingleClass

/-- Nothing is bound to a name that no item of a class spells. -/
theorem Import.boundTo_eq_nil_iff {bound : Text} {declaration : Import}
    : declaration.boundTo bound = []
      ↔ declaration.classItems.any (Text.sameFolded ·.bound bound) = false := by
  simp [Import.boundTo, List.filter_eq_nil_iff]

/-- A taken name is one that the imports bind to something. -/
theorem Edit.isBound_iff {edit : Edit} {bound : Text}
    : edit.isBound bound = true ↔ namesBoundTo bound edit.imports ≠ [] := by
  unfold Edit.isBound namesBoundTo
  rw [ne_eq, List.flatMap_eq_nil_iff, List.any_eq_true]
  simp only [Import.boundTo_eq_nil_iff]
  grind

/-- The names bound by a new import of one class. -/
theorem Import.boundTo_single (bound : Text) (name : Name)
    : (Import.single name).boundTo bound
      = if Text.sameFolded name.last bound then [name] else [] := by
  have kind : (Import.single name).classItems = [⟨name, none, none, none⟩] := rfl
  rw [Import.boundTo, kind]
  cases same : Text.sameFolded name.last bound <;>
    simp [ImportItem.bound, same, Import.fullName, Import.single]

theorem namesBoundTo_perm {bound : Text} {left right : List Stmt} (h : left.Perm right)
    : (namesBoundTo bound (left.filterMap Stmt.declaration?)).Perm
        (namesBoundTo bound (right.filterMap Stmt.declaration?)) :=
  (h.filterMap _).flatMap_right _

-----------------------------------------------------------------------------------------
-- Removal
-----------------------------------------------------------------------------------------

/-- What is removed under some aliases imports a single class under one of them. -/
theorem Stmt.importUnder?_eq_some {aliases : List Text} {stmt : Stmt} {name : Name}
    (found : stmt.importUnder? aliases = some name)
    : ∃ declaration item,
        stmt.declaration? = some declaration
        ∧ declaration.items = [item]
        ∧ declaration.itemKind item = .classLike
        ∧ ∃ unused ∈ aliases, Text.sameFolded item.bound unused = true := by
  unfold Stmt.importUnder? at found
  split at found
  · rename_i declaration declared
    split at found
    · rename_i item single
      split at found
      · rename_i removable
        obtain ⟨kind, under⟩ := Bool.and_eq_true_iff.mp removable
        exact ⟨declaration, item, declared, single, by simpa using kind,
          List.any_eq_true.mp under⟩
      · cases found
    · cases found
  · cases found

/-- A lasting import is not removed, whatever the aliases. -/
theorem Stmt.importUnder?_eq_none_of_isLasting {aliases : List Text} {stmt : Stmt}
    (lasting : stmt.isLasting = true)
    : stmt.importUnder? aliases = none := by
  rw [Option.eq_none_iff_forall_ne_some]
  intro name found
  obtain ⟨declaration, item, declared, single, kind, _⟩ := Stmt.importUnder?_eq_some found
  simp [Stmt.isLasting, declared, Import.isSingleClass, single, kind] at lasting

/-- What is removed under aliases other than a name binds nothing to that name. -/
theorem Stmt.boundTo_eq_nil_of_importUnder? {aliases : List Text} {bound : Text} {stmt : Stmt}
    {name : Name} {declaration : Import}
    (others : ∀ unused ∈ aliases, Text.sameFolded unused bound = false)
    (found : stmt.importUnder? aliases = some name)
    (declared : stmt.declaration? = some declaration)
    : declaration.boundTo bound = [] := by
  obtain ⟨declaration', item, declared', single, kind, unused, listed, same⟩ :=
    Stmt.importUnder?_eq_some found
  obtain rfl : declaration = declaration' := Option.some.inj (declared.symm.trans declared')
  have different : Text.sameFolded item.bound bound = false := by
    have other := others unused listed
    rw [← Bool.not_eq_true, Text.sameFolded_iff] at other ⊢
    rwa [Text.sameFolded_iff.mp same]
  simp [Import.boundTo, Import.classItems, single, different, kind]

/-- Removal under other aliases keeps what is bound to a name. -/
theorem Edit.namesBoundTo_remove (edit : Edit) {aliases : List Text} {bound : Text}
    (others : ∀ unused ∈ aliases, Text.sameFolded unused bound = false)
    : namesBoundTo bound (edit.remove aliases).imports = namesBoundTo bound edit.imports := by
  rw [Edit.imports_eq, Edit.imports_eq, Edit.scope_remove]
  generalize edit.scope = stmts
  induction stmts with
  | nil => rfl
  | cons stmt rest ih =>
      cases declared : stmt.declaration? with
      | none =>
          have kept : stmt.importUnder? aliases = none := by
            simp [Stmt.importUnder?, declared]
          simpa [kept, declared] using ih
      | some declaration =>
          cases found : stmt.importUnder? aliases with
          | none => simpa [found, declared, namesBoundTo] using ih
          | some name =>
              have empty := Stmt.boundTo_eq_nil_of_importUnder? others found declared
              simpa [found, declared, namesBoundTo, empty] using ih

/-- Removal keeps every lasting import. -/
theorem Edit.lasting_remove (edit : Edit) (aliases : List Text)
    : (edit.remove aliases).scope.filter Stmt.isLasting = edit.scope.filter Stmt.isLasting := by
  rw [Edit.scope_remove, List.filter_filter]
  refine List.filter_congr ?_
  intro stmt _
  cases lasting : stmt.isLasting with
  | false => rfl
  | true => simp [Stmt.importUnder?_eq_none_of_isLasting lasting]

-----------------------------------------------------------------------------------------
-- Additions
-----------------------------------------------------------------------------------------

/-- A taken name keeps what is bound to it when another name is imported. -/
theorem Edit.namesBoundTo_add (edit : Edit) {name : Name} {bound : Text}
    (free : Text.sameFolded name.last bound = false)
    : (namesBoundTo bound (edit.add name).imports).Perm (namesBoundTo bound edit.imports) := by
  cases imported : edit.isImported name with
  | true => rw [Edit.add_of_imported imported]
  | false =>
      refine (namesBoundTo_perm (Edit.scope_add_perm imported)).trans ?_
      have single : (Stmt.ofImport name).declaration? = some (Import.single name) := rfl
      rw [List.filterMap_cons_some single, namesBoundTo, List.flatMap_cons,
        Import.boundTo_single, free]
      exact .rfl

theorem Edit.lasting_add (edit : Edit) (name : Name)
    : ((edit.add name).scope.filter Stmt.isLasting).Perm (edit.scope.filter Stmt.isLasting) := by
  cases imported : edit.isImported name with
  | true => rw [Edit.add_of_imported imported]
  | false => exact (Edit.scope_add_perm imported).filter Stmt.isLasting

/-- Taken names are taken up to case. -/
theorem Edit.isBound_congr {edit : Edit} {left right : Text}
    (same : Text.lower left = Text.lower right)
    : edit.isBound left = edit.isBound right := by
  simp only [Edit.isBound, Text.sameFolded, same]

/-- The names of a run are added only where they are free, so a taken name stays bound to what
it was bound to.
-/
theorem Edit.namesBoundTo_addResolved (edit : Edit) (resolutions : List Resolution)
    {bound : Text} (taken : edit.isBound bound = true)
    : (namesBoundTo bound (edit.addResolved resolutions).edit.imports).Perm
        (namesBoundTo bound edit.imports) := by
  -- the invariant: the bindings are those of the start, so the name is still taken
  let kept (current : Edit) : Prop :=
    (namesBoundTo bound current.imports).Perm (namesBoundTo bound edit.imports)
    ∧ current.isBound bound = true
  suffices all : kept (edit.addResolved resolutions).edit from all.1
  refine Edit.addResolved_induction (motive := kept) edit resolutions ⟨.rfl, taken⟩ ?_
  rintro current reference name _ ⟨kept, bound'⟩ _ conflict
  have free : Text.sameFolded name.last bound = false := by
    rw [← Bool.not_eq_true, Text.sameFolded_iff]
    intro same
    rw [Edit.isBound_congr same, bound'] at conflict
    cases conflict
  have next := (current.namesBoundTo_add free).trans kept
  refine ⟨next, ?_⟩
  rw [Edit.isBound_iff] at taken ⊢
  exact fun empty => taken (next.symm.trans (by rw [empty])).eq_nil

/-- Additions keep every lasting import. -/
theorem Edit.lasting_addResolved (edit : Edit) (resolutions : List Resolution)
    : ((edit.addResolved resolutions).edit.scope.filter Stmt.isLasting).Perm
        (edit.scope.filter Stmt.isLasting) :=
  Edit.addResolved_induction
    (motive := fun current =>
      (current.scope.filter Stmt.isLasting).Perm (edit.scope.filter Stmt.isLasting))
    edit resolutions .rfl
    fun current _ name _ kept _ _ => (current.lasting_add name).trans kept

-----------------------------------------------------------------------------------------
-- A whole run
-----------------------------------------------------------------------------------------

/-- The aliases that a run removes are not in use. -/
theorem Extraction.uses_of_unused {extraction : Extraction} {bound unused : Text}
    (used : extraction.uses bound = true)
    (listed : unused ∈ extraction.unusedImports.map ImportEntry.bound)
    : Text.sameFolded unused bound = false := by
  obtain ⟨entry, member, rfl⟩ := List.mem_map.mp listed
  have idle := (List.mem_filter.mp member).2
  rw [← Bool.not_eq_true, Text.sameFolded_iff]
  intro same
  have also : extraction.uses entry.bound = true := by
    simpa only [Extraction.uses, Text.sameFolded, same] using used
  simp [also] at idle

/-- First segments of candidate references and mentioned names are in use. -/
theorem Extraction.uses_of_mem {extraction : Extraction} {bound : Text}
    (seen
      : (∃ reference ∈ extraction.candidates, reference.name.first = bound)
        ∨ bound ∈ extraction.mentions)
    : extraction.uses bound = true := by
  unfold Extraction.uses
  rw [Bool.or_eq_true, List.any_eq_true, List.any_eq_true]
  refine seen.imp ?_ ?_
  · rintro ⟨reference, member, rfl⟩
    exact ⟨reference, member, Text.sameFolded_iff.mpr rfl⟩
  · exact fun member => ⟨bound, member, Text.sameFolded_iff.mpr rfl⟩

/-- A run that reaches its edit keeps existing bindings. A name in use that imports of classes
bind in the import scope is bound to the same full names afterwards, each as often as
before; and every import that is not of a single class is still there, unchanged.
-/
theorem Run.keeps_bindings {source : Text} {index : SymbolIndex} {config : Config}
    {file : SourceFile} {edit : Edit} {plan : Plan}
    (run : Run source index config file edit plan)
    : (∀ bound,
        ((∃ reference ∈ file.extract.candidates, reference.name.first = bound)
          ∨ bound ∈ file.extract.mentions)
        → (∃ declaration ∈ file.imports,
            ∃ item ∈ declaration.classItems, Text.sameFolded item.bound bound = true)
        → (namesBoundTo bound plan.edit.sort.imports).Perm (namesBoundTo bound file.imports))
      ∧ (plan.edit.sort.file.importScope.filter Stmt.isLasting).Perm
          (file.importScope.filter Stmt.isLasting) := by
  obtain ⟨resolutions, planned⟩ : ∃ resolutions, plan.edit
      = ((edit.remove (file.extract.unusedImports.map ImportEntry.bound)).addResolved
          resolutions).edit := ⟨_, by rw [run.planned]; rfl⟩
  have imports : edit.imports = file.imports := by rw [Edit.imports, run.edit_file]
  refine ⟨?_, ?_⟩
  · rintro bound seen ⟨declaration, declared, item, listed, same⟩
    have used := Extraction.uses_of_mem seen
    have taken : edit.isBound bound = true := by
      rw [Edit.isBound, imports, List.any_eq_true]
      exact ⟨declaration, declared, List.any_eq_true.mpr ⟨item, listed, same⟩⟩
    have removed := edit.namesBoundTo_remove
      fun _ listed => Extraction.uses_of_unused used listed
    have still : (edit.remove (file.extract.unusedImports.map ImportEntry.bound)).isBound bound
        = true := by
      rw [Edit.isBound_iff] at taken ⊢
      rwa [removed]
    rw [planned]
    refine (namesBoundTo_perm (Edit.scope_sort_perm _)).trans ?_
    exact (Edit.namesBoundTo_addResolved _ resolutions still).trans
      (by rw [removed, imports])
  · rw [planned]
    refine ((Edit.scope_sort_perm _).filter _).trans ?_
    refine (Edit.lasting_addResolved _ resolutions).trans ?_
    rw [Edit.lasting_remove, Edit.scope, run.edit_file]

/-- A class in use under another case stays bound when a class is removed and one added. -/
theorem Run.keeps_bindings_of_used_class
    : ∃ file edit plan,
        Run "<?php\nnamespace App;\nuse Old\\Bar;\nuse Lib\\Foo;\n\nnew FOO(new Baz);\n".toList
          (.ofEntries [⟨⟨["Lib".toList, "Baz".toList], .qualified⟩, ⟨0⟩⟩]) .default file edit plan
        ∧ (namesBoundTo "FOO".toList plan.edit.sort.imports).Perm
            (namesBoundTo "FOO".toList file.imports)
        ∧ namesBoundTo "FOO".toList file.imports
          = [⟨["Lib".toList, "Foo".toList], .qualified⟩] := by
  obtain ⟨file, edit, plan, run, checked⟩ := Run.exists_of_reachesEdit
    "<?php\nnamespace App;\nuse Old\\Bar;\nuse Lib\\Foo;\n\nnew FOO(new Baz);\n".toList
    (.ofEntries [⟨⟨["Lib".toList, "Baz".toList], .qualified⟩, ⟨0⟩⟩]) .default
    (fun file =>
      file.extract.candidates.any (fun reference => reference.name.first == "FOO".toList)
      && file.imports.any (fun declaration =>
        declaration.classItems.any fun item => Text.sameFolded item.bound "FOO".toList)
      && namesBoundTo "FOO".toList file.imports
        == [⟨["Lib".toList, "Foo".toList], .qualified⟩])
    (by decide +kernel)
  simp only [Bool.and_eq_true, List.any_eq_true, beq_iff_eq] at checked
  obtain ⟨⟨⟨reference, listed, first⟩, declaration, declared, item, member, same⟩, names⟩ := checked
  exact ⟨file, edit, plan, run,
    run.keeps_bindings.1 _ (.inl ⟨reference, listed, first⟩)
      ⟨declaration, declared, item, member, same⟩,
    names⟩

end ImportHeader
