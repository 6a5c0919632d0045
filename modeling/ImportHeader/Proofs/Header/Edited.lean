import ImportHeader.Proofs.Header.Calls
import ImportHeader.Proofs.Parser.Notes

/-! A file under edit. The edited file is the file of the source with other statements in its import
scope.
-/

namespace ImportHeader

open ImportHeader.Lexer ImportHeader.Parser

/-- A file that passes the check has one namespace at most. -/
theorem SourceFile.shape_of_checkStructure {file : SourceFile}
    (checked : file.checkStructure = .ok ())
    : Shape file.items := by
  have few : (file.items.filterMap Item.space?).length ≤ 1 := by
    unfold SourceFile.checkStructure SourceFile.namespaces at checked
    split at checked
    · cases checked
    · rename_i only single
      rw [single]
      exact Nat.le_refl 1
    · rename_i none
      rw [none]
      exact Nat.zero_le 1
  have plain : ∀ items : List Item, items.filterMap Item.space? = []
      → items = (items.filterMap Item.stmt?).map .plain := by
    intro items none
    induction items with
    | nil => rfl
    | cons item items ih =>
        cases item with
        | plain stmt =>
            rw [List.filterMap_cons_none rfl] at none
            have first : Item.stmt? (.plain stmt) = some stmt := rfl
            rw [List.filterMap_cons_some first, List.map_cons, ← ih none]
        | scope space => cases none
  generalize file.items = items at few
  induction items with
  | nil => exact .flat []
  | cons item items ih =>
      cases item with
      | plain stmt =>
          cases ih few with
          | flat found => exact .flat (stmt :: found)
          | framed before space after => exact .framed (stmt :: before) space after
      | scope space =>
          have first : Item.space? (.scope space) = some space := rfl
          rw [List.filterMap_cons_some first, List.length_cons] at few
          rw [plain items (List.eq_nil_of_length_eq_zero (by omega))]
          exact .framed [] space _

/-- A file without a namespace has its statements in the import scope. -/
theorem SourceFile.importScope_flat {file : SourceFile} {found : List Stmt}
    (flat : file.items = found.map .plain)
    : file.firstNamespace? = none ∧ file.importScope = found := by
  have none : (found.map Item.plain).findSome? Item.space? = none := by
    simp [List.findSome?_eq_none_iff, Item.space?]
  rw [SourceFile.importScope, SourceFile.firstNamespace?, flat, none]
  exact ⟨rfl, by simp [List.filterMap_map, Function.comp_def, Item.stmt?]⟩

/-- A file with a namespace has the statements in it in the import scope. -/
theorem SourceFile.importScope_framed {file : SourceFile} {before after : List Stmt}
    {space : Namespace} (framed : file.items = before.map .plain ++ .scope space :: after.map .plain)
    : file.firstNamespace? = some space ∧ file.importScope = space.stmts := by
  have none : (before.map Item.plain).findSome? Item.space? = none := by
    simp [List.findSome?_eq_none_iff, Item.space?]
  rw [SourceFile.importScope, SourceFile.firstNamespace?, framed, List.findSome?_append, none]
  exact ⟨rfl, rfl⟩

theorem SourceFile.withImportScope_flat {file : SourceFile} {found : List Stmt}
    (flat : file.items = found.map .plain) (stmts : List Stmt)
    : (file.withImportScope stmts).items = stmts.map .plain := by
  rw [SourceFile.withImportScope, (importScope_flat flat).1]

theorem SourceFile.withImportScope_framed {file : SourceFile} {before after : List Stmt}
    {space : Namespace} (framed : file.items = before.map .plain ++ .scope space :: after.map .plain)
    (stmts : List Stmt)
    : (file.withImportScope stmts).items
      = before.map .plain ++ .scope { space with stmts } :: after.map .plain := by
  have replaced : ∀ before : List Stmt,
      SourceFile.replaceInFirst stmts (before.map .plain ++ .scope space :: after.map .plain)
        = before.map .plain ++ .scope { space with stmts } :: after.map .plain := by
    intro before
    induction before with
    | nil => rfl
    | cons stmt before ih =>
        rw [List.map_cons, List.cons_append, SourceFile.replaceInFirst, ih]
        rfl
  rw [SourceFile.withImportScope, (importScope_framed framed).1]
  exact (congrArg _ framed).trans (replaced before)

/-- The file under edit is a given one with other statements in its import scope. -/
structure Edit.IsOn (file : SourceFile) (edit : Edit) : Prop where
  markup : edit.file.markup? = file.markup?
  openTag : edit.file.openTag? = file.openTag?
  lines : edit.file.lines = file.lines
  items : edit.file.items = (file.withImportScope edit.scope).items

namespace Edit.IsOn

variable {file : SourceFile} {edit : Edit}

theorem withScope (isOn : edit.IsOn file) (shape : Shape file.items) (stmts : List Stmt)
    : (edit.withScope stmts).IsOn file := by
  have kept (given : SourceFile)
      : (given.withImportScope stmts).markup? = given.markup?
        ∧ (given.withImportScope stmts).openTag? = given.openTag?
        ∧ (given.withImportScope stmts).lines = given.lines := by
    unfold SourceFile.withImportScope
    split <;> exact ⟨rfl, rfl, rfl⟩
  obtain ⟨markup, openTag, lines⟩ := kept edit.file
  refine ⟨markup.trans isOn.markup, openTag.trans isOn.openTag, lines.trans isOn.lines, ?_⟩
  rw [Edit.scope_withScope]
  have items := isOn.items
  generalize given : file.items = found at shape
  cases shape with
  | flat found =>
      rw [SourceFile.withImportScope_flat given] at items ⊢
      exact SourceFile.withImportScope_flat items stmts
  | framed before space after =>
      rw [SourceFile.withImportScope_framed given] at items ⊢
      exact SourceFile.withImportScope_framed items stmts

theorem remove (isOn : edit.IsOn file) (shape : Shape file.items) (aliases : List Text)
    : (edit.remove aliases).IsOn file :=
  isOn.withScope shape _

theorem add (isOn : edit.IsOn file) (shape : Shape file.items) (name : Name)
    : (edit.add name).IsOn file := by
  unfold Edit.add
  split
  · exact isOn
  · obtain ⟨markup, openTag, lines, items⟩ := isOn.withScope shape
      (edit.file.importScope.take (min (edit.insertAt + edit.inserted) edit.file.importScope.length)
        ++ Stmt.ofImport name :: edit.file.importScope.drop
          (min (edit.insertAt + edit.inserted) edit.file.importScope.length))
    exact ⟨markup, openTag, lines, items⟩

theorem sort (isOn : edit.IsOn file) (shape : Shape file.items) : edit.sort.IsOn file := by
  unfold Edit.sort
  dsimp only
  split
  · exact isOn
  · exact isOn.withScope shape _

end Edit.IsOn

theorem Edit.isOn_of_start {file : SourceFile} {source : Text} {edit : Edit}
    (started : Edit.start file source = .ok edit)
    : edit.IsOn file := by
  obtain ⟨checked, rfl, _⟩ := Edit.start_eq_ok started
  refine ⟨rfl, rfl, rfl, ?_⟩
  have shape := SourceFile.shape_of_checkStructure checked
  unfold Edit.scope
  generalize given : edit.file.items = items at shape
  cases shape with
  | flat found =>
      rw [SourceFile.withImportScope_flat given, (SourceFile.importScope_flat given).2]
  | framed before space after =>
      rw [SourceFile.withImportScope_framed given, (SourceFile.importScope_framed given).2]

/-- A new import has no comments, and the shape of one. -/
theorem Stmt.isNoted_ofImport {holds : Text → Prop} (name : Name)
    : (Stmt.ofImport name).IsNoted holds := by
  refine ⟨nofun, nofun, ?_⟩
  rintro declaration ⟨rfl⟩
  exact ⟨by simp [Import.single], by simp [Import.single]⟩

namespace Edit

/-- A whole edit is a removal, some additions and a sort. -/
theorem apply_eq_performAll (edit : Edit) (names : List Name) (aliases : List Text)
    : edit.apply names aliases
      = edit.performAll ([.remove aliases] ++ (names.map Call.add ++ [.sort])) := by
  simp only [apply, performAll, List.foldl_append, List.foldl_cons, List.foldl_nil, List.foldl_map,
    perform]

theorem isOn_perform {file : SourceFile} {edit : Edit} (isOn : edit.IsOn file)
    (shape : Shape file.items) (call : Call)
    : (edit.perform call).IsOn file := by
  cases call with
  | remove aliases => exact isOn.remove shape aliases
  | add name => exact isOn.add shape name
  | sort => exact isOn.sort shape

theorem isOn_performAll {file : SourceFile} {edit : Edit} (isOn : edit.IsOn file)
    (shape : Shape file.items) (calls : List Call)
    : (edit.performAll calls).IsOn file := by
  induction calls generalizing edit with
  | nil => exact isOn
  | cons call calls ih => exact ih (isOn_perform isOn shape call)

/-- What holds of all statements under edit and of a new import still holds of all after a call. -/
theorem forall_scope_perform {holds : Stmt → Prop} {edit : Edit}
    (all : ∀ stmt ∈ edit.scope, holds stmt) {call : Call}
    (fresh : ∀ name, call = .add name → holds (Stmt.ofImport name))
    : ∀ stmt ∈ (edit.perform call).scope, holds stmt := by
  intro stmt listed
  cases call with
  | remove aliases =>
      rw [perform, scope_remove] at listed
      exact all stmt (List.mem_filter.mp listed).1
  | add name =>
      rw [perform] at listed
      cases absent : edit.isImported name with
      | true =>
          rw [add_of_imported absent] at listed
          exact all stmt listed
      | false =>
          rcases List.mem_cons.mp ((scope_add_perm absent).mem_iff.mp listed) with rfl | older
          · exact fresh name rfl
          · exact all stmt older
  | sort => exact all stmt (edit.scope_sort_perm.mem_iff.mp listed)

theorem forall_scope_performAll {holds : Stmt → Prop} {edit : Edit}
    (all : ∀ stmt ∈ edit.scope, holds stmt) {calls : List Call}
    (fresh : ∀ name, .add name ∈ calls → holds (Stmt.ofImport name))
    : ∀ stmt ∈ (edit.performAll calls).scope, holds stmt := by
  induction calls generalizing edit with
  | nil => exact all
  | cons call calls ih =>
      refine ih (forall_scope_perform all ?_) fun name listed => fresh name (.tail _ listed)
      rintro name rfl
      exact fresh name List.mem_cons_self

/-- A whole edit changes nothing around its scope. -/
theorem isOn_apply {source : Text} {file : SourceFile} {edit : Edit}
    (started : Edit.start file source = .ok edit) (names : List Name) (aliases : List Text)
    : (edit.apply names aliases).IsOn file := by
  rw [apply_eq_performAll]
  exact isOn_performAll (isOn_of_start started)
    (SourceFile.shape_of_checkStructure (start_eq_ok started).1) _

/-- What holds of all statements in the import scope and of the new imports holds of all statements
after a whole edit.
-/
theorem forall_scope_apply {holds : Stmt → Prop} {source : Text} {file : SourceFile} {edit : Edit}
    (started : Edit.start file source = .ok edit) (all : ∀ stmt ∈ file.importScope, holds stmt)
    {names : List Name} (fresh : ∀ name ∈ names, holds (Stmt.ofImport name)) (aliases : List Text)
    : ∀ stmt ∈ (edit.apply names aliases).scope, holds stmt := by
  rw [apply_eq_performAll]
  refine forall_scope_performAll ?_ fun name listed => fresh name (by simpa using listed)
  rwa [scope, (start_eq_ok started).2.1]

/-- A whole edit puts its imports where those of the file stood. -/
theorem framed_apply {file : SourceFile} {source : Text} {edit : Edit}
    (started : Edit.start file source = .ok edit) (names : List Name) (aliases : List Text)
    : ∃ block, (edit.apply names aliases).Framed edit.before edit.behind block := by
  obtain ⟨block, framed⟩ := Edit.framed_of_start started
  obtain ⟨_, _, _, _, _, fresh, _⟩ := Edit.start_eq_ok started
  have noAdd : ∀ name, Call.add name ∉ [Call.remove aliases] := by simp
  have noRemove : ∀ removed, Call.remove removed ∉ names.map Call.add ++ [.sort] := by simp
  obtain ⟨current, framed', counted⟩ := framed.performAll_removals noAdd
  obtain ⟨last, framed'', _⟩ := framed'.performAll_additions noRemove
    (by rw [counted, fresh]; exact Nat.zero_le _)
  rw [← performAll_append, ← apply_eq_performAll] at framed''
  exact ⟨last, framed''⟩

end Edit

end ImportHeader
