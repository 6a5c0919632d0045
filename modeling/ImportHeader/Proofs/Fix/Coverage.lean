import ImportHeader.Proofs.Fix.Additions
import ImportHeader.Proofs.Parser.Run

/-! What a run does about each reference that needs an import: none is forgotten, except where
its class is imported under another name.
-/

namespace ImportHeader

/-- Additions keep every import. -/
theorem Edit.mem_imports_addResolved {edit : Edit} (resolutions : List Resolution)
    {declaration : Import} (listed : declaration ∈ edit.imports)
    : declaration ∈ (edit.addResolved resolutions).edit.imports :=
  (Edit.imports_addResolved edit resolutions).mem_iff.mpr (List.mem_append_right _ listed)

theorem Edit.isImported_addResolved {edit : Edit} (resolutions : List Resolution) {name : Name}
    (imported : edit.isImported name = true)
    : (edit.addResolved resolutions).edit.isImported name = true := by
  obtain ⟨declaration, listed, binds⟩ := List.any_eq_true.mp imported
  exact List.any_eq_true.mpr
    ⟨declaration, Edit.mem_imports_addResolved resolutions listed, binds⟩

theorem Edit.isBound_addResolved {edit : Edit} (resolutions : List Resolution) {bound : Text}
    (taken : edit.isBound bound = true)
    : (edit.addResolved resolutions).edit.isBound bound = true := by
  obtain ⟨declaration, listed, binds⟩ := List.any_eq_true.mp taken
  exact List.any_eq_true.mpr
    ⟨declaration, Edit.mem_imports_addResolved resolutions listed, binds⟩

theorem Edit.isImported_add_self {edit : Edit} {name : Name}
    (absent : edit.isImported name = false)
    : (edit.add name).isImported name = true := by
  have same := (Edit.imports_add_perm absent).any_eq (f := (·.binds name .classLike))
  rw [Edit.isImported, same, List.any_cons]
  simp [Import.binds, Import.single, Import.itemKind, Import.fullName]

/-- What a reference resolves to is imported, or it is left out because its name is taken. -/
theorem Edit.isImported_or_skipped (edit : Edit) {resolutions : List Resolution}
    {reference name : Name} (listed : ⟨reference, some name⟩ ∈ resolutions)
    : (edit.addResolved resolutions).edit.isImported name = true
      ∨ (reference, name) ∈ (edit.addResolved resolutions).skipped
        ∧ (edit.addResolved resolutions).edit.isBound name.last = true := by
  fun_induction Edit.addResolved edit resolutions with
  | case1 edit => cases listed
  | case2 edit written rest ih =>
      rcases List.mem_cons.mp listed with same | later
      · cases same
      · exact ih later
  | case3 edit written rest found imported ih =>
      rcases List.mem_cons.mp listed with same | later
      · cases same
        exact .inl (Edit.isImported_addResolved rest imported)
      · exact ih later
  | case4 edit written rest found absent taken others ih =>
      rcases List.mem_cons.mp listed with same | later
      · cases same
        exact .inr ⟨List.mem_cons_self, Edit.isBound_addResolved rest taken⟩
      · exact (ih later).imp_right (And.imp_left (List.mem_cons_of_mem _))
  | case5 edit written rest found absent free others ih =>
      rcases List.mem_cons.mp listed with same | later
      · cases same
        rw [Bool.not_eq_true] at absent
        exact .inl (Edit.isImported_addResolved rest (Edit.isImported_add_self absent))
      · exact ih later

/-- Every unresolved reference is reported. -/
theorem Edit.unresolved_mem_planFor (edit : Edit) (extraction : Extraction)
    (references : List Reference) {resolutions : List Resolution} {reference : Name}
    (listed : ⟨reference, none⟩ ∈ resolutions)
    : .unresolved (positionOf references reference) reference
      ∈ (edit.planFor extraction references resolutions).diagnostics := by
  refine List.mem_append_left _ (List.mem_append_left _ (List.mem_map.mpr ?_))
  exact ⟨⟨reference, none⟩, List.mem_filter.mpr ⟨listed, rfl⟩, rfl⟩

/-- Every import that is left out is reported. -/
theorem Edit.skipped_mem_planFor {edit : Edit} {extraction : Extraction}
    (references : List Reference) {resolutions : List Resolution} {reference name : Name}
    (listed
      : (reference, name)
        ∈ ((edit.remove (extraction.unusedImports.map ImportEntry.bound)).addResolved
            resolutions).skipped)
    : .skipped (positionOf references reference) name name.last
      ∈ (edit.planFor extraction references resolutions).diagnostics :=
  List.mem_append_right _ (List.mem_map_of_mem listed)

theorem Edit.isBound_sort (edit : Edit) (bound : Text)
    : edit.sort.isBound bound = edit.isBound bound :=
  Edit.isBound_eq_of_perm edit.imports_sort_perm bound

theorem Edit.isImported_sort (edit : Edit) (name : Name)
    : edit.sort.isImported name = edit.isImported name :=
  edit.imports_sort_perm.any_eq

/-- A file without code has no candidates. -/
theorem SourceFile.candidates_eq_nil {source : Text} {file : SourceFile}
    (parsed : parse source = .ok file) (noCode : file.hasCode = false)
    : file.extract.candidates = [] := by
  obtain ⟨_, _, _, ⟨_, _, empty⟩ | ⟨_, _, _, _, _, _, opened⟩⟩ := parse_eq_ok parsed
  · simp [SourceFile.extract, SourceFile.nodes, SourceFile.outline, empty, Outline.preorderAll]
  · simp [SourceFile.hasCode, opened] at noCode

/-- A class that a file imports under a local name other than the given one, and still does at
the end of an edit.
-/
def ImportedElsewhere (file : SourceFile) (edited : Edit) (name : Name) (bound : Text) : Prop :=
  ∃ declaration ∈ file.imports,
    declaration ∈ edited.imports
    ∧ ∃ item ∈ declaration.classItems,
        (declaration.fullName item).segments = name.segments
        ∧ Text.sameFolded item.bound bound = false

theorem ImportedElsewhere.sort {file : SourceFile} {edited : Edit} {name : Name} {bound : Text}
    (elsewhere : ImportedElsewhere file edited name bound)
    : ImportedElsewhere file edited.sort name bound := by
  obtain ⟨declaration, old, listed, item⟩ := elsewhere
  exact ⟨declaration, old, edited.imports_sort_perm.mem_iff.mpr listed, item⟩

namespace Run

variable {source : Text} {index : SymbolIndex} {config : Config} {file : SourceFile}
  {edit : Edit} {plan : Plan}

/-- The imports at the end of a run are those that it added and some of its file. -/
theorem mem_imports (run : Run source index config file edit plan) {declaration : Import}
    (listed : declaration ∈ plan.edit.imports)
    : (∃ name ∈ plan.added, declaration = .single name) ∨ declaration ∈ file.imports := by
  rw [run.planned] at listed ⊢
  rcases List.mem_append.mp ((Edit.imports_addResolved _ _).mem_iff.mp listed) with new | old
  · obtain ⟨name, added, rfl⟩ := List.mem_map.mp new
    exact .inl ⟨name, added, rfl⟩
  · rw [← run.edit_file]
    exact .inr ((edit.imports_remove_sublist _).subset old)

/-- A class imported at the end of a run under another name than its last segment was imported
that way in the file.
-/
theorem isBound_or_importedElsewhere (run : Run source index config file edit plan)
    {name : Name} (imported : plan.edit.isImported name = true)
    : plan.edit.isBound name.last = true ∨ ImportedElsewhere file plan.edit name name.last := by
  obtain ⟨declaration, listed, binds⟩ := List.any_eq_true.mp imported
  obtain ⟨item, member, fits⟩ := List.any_eq_true.mp binds
  rw [Bool.and_eq_true, beq_iff_eq (b := name.segments)] at fits
  obtain ⟨kind, full⟩ := fits
  have inside : item ∈ declaration.classItems := List.mem_filter.mpr ⟨member, kind⟩
  cases same : Text.sameFolded item.bound name.last with
  | true =>
      exact .inl (List.any_eq_true.mpr
        ⟨declaration, listed, List.any_eq_true.mpr ⟨item, inside, same⟩⟩)
  | false =>
      rcases run.mem_imports listed with ⟨added, _, rfl⟩ | old
      · -- an import that the run added binds its last segment
        obtain rfl : item = ⟨added, none, none, none⟩ := List.mem_singleton.mp member
        have last : added.last = name.last := congrArg (·.getLastD []) full
        rw [← Bool.not_eq_true, Text.sameFolded_iff] at same
        exact absurd (congrArg Text.lower last) same
      · exact .inr ⟨declaration, old, listed, item, inside, full, same⟩

/-- A run that adds nothing leaves the references that need an import unbound. -/
theorem isBound_eq_false (run : Run source index config file edit plan) {reference : Reference}
    (nothing : plan.added = [])
    (listed
      : reference ∈ file.extract.references (ignoreSet config file file.extract index))
    : plan.edit.isBound reference.name.first = false := by
  rw [Edit.isBound, List.any_eq_false]
  intro declaration declared
  rw [Bool.not_eq_true, List.any_eq_false]
  intro item member
  rcases run.mem_imports declared with ⟨name, added, _⟩ | old
  · rw [nothing] at added
    cases added
  · have free := (Extraction.mem_references.mp listed).2.1
    simp [SourceFile.sameFolded_of_not_binds free old member]

/-- The plan of a run goes by the resolutions of the references that need an import. -/
theorem planned_for (run : Run source index config file edit plan) {references : List Reference}
    (needed : references = file.extract.references (ignoreSet config file file.extract index))
    : plan
      = edit.planFor file.extract references
          (index.resolveAll (references.map Reference.name)) := by
  rw [run.planned, needed]
  rfl

/-- A reference that resolves is bound at the end of a run, to what it resolves to or with a
report, or its class is imported elsewhere.
-/
theorem accounts_for_resolved (run : Run source index config file edit plan)
    {references : List Reference} {reference : Reference} {name : Name}
    (needed : references = file.extract.references (ignoreSet config file file.extract index))
    (listed : reference ∈ references) (found : index.resolve? reference.name = some name)
    : plan.edit.isBound reference.name.first = true
        ∧ (plan.edit.isImported name = true
          ∨ .skipped (positionOf references reference.name) name reference.name.first
            ∈ plan.diagnostics)
      ∨ ImportedElsewhere file plan.edit name reference.name.first := by
  have candidate := (Extraction.mem_references.mp (needed ▸ listed)).1
  have last : name.last = reference.name.first := (SymbolIndex.isImportFor_of_resolve?
    (SourceFile.segments_ne_nil_of_candidate candidate) found).last_eq
  have resolution : ⟨reference.name, some name⟩
      ∈ index.resolveAll (references.map Reference.name) :=
    SymbolIndex.mem_resolveAll.mpr ⟨List.mem_map_of_mem listed, found.symm⟩
  obtain ⟨start, edited, skips⟩ : ∃ start,
      plan.edit = (Edit.addResolved start (index.resolveAll (references.map Reference.name))).edit
      ∧ ∀ pair ∈ (start.addResolved (index.resolveAll (references.map Reference.name))).skipped,
          .skipped (positionOf references pair.1) pair.2 pair.2.last ∈ plan.diagnostics := by
    rw [run.planned_for needed]
    exact ⟨_, rfl, fun _ => Edit.skipped_mem_planFor references⟩
  rw [← last]
  rcases start.isImported_or_skipped resolution with imported | ⟨skipped, taken⟩
  · rw [← edited] at imported
    rcases run.isBound_or_importedElsewhere imported with taken | elsewhere
    · exact .inl ⟨taken, .inl imported⟩
    · exact .inr elsewhere
  · rw [← edited] at taken
    exact .inl ⟨taken, .inr (skips _ skipped)⟩

end Run

/-- A run that succeeds accounts for every reference that needs an import. One that nothing in
the index matches is reported. One that resolves is bound by an import at the end, to what it
resolves to or with a report that this was left out; or else what it resolves to is imported
in the file already, under another local name, and the reference stays as it is.
-/
theorem fixImports_accounts_for_references {source : Text} {index : SymbolIndex}
    {config : Config} {outcome : Outcome} {file : SourceFile} {references : List Reference}
    {reference : Reference} (done : fixImports source index config = .ok outcome)
    (parsed : parse source = .ok file)
    (needed : references = file.extract.references (ignoreSet config file file.extract index))
    (listed : reference ∈ references)
    : ∃ edit plan,
        Run source index config file edit plan
        ∧ plan.outcome source = .ok outcome
        ∧ match index.resolve? reference.name with
          | none =>
              .unresolved (positionOf references reference.name) reference.name
                ∈ outcome.diagnostics
          | some name =>
              plan.edit.sort.isBound reference.name.first = true
              ∧ (plan.edit.sort.isImported name = true
                ∨ .skipped (positionOf references reference.name) name reference.name.first
                  ∈ outcome.diagnostics)
              ∨ ImportedElsewhere file plan.edit.sort name reference.name.first := by
  obtain ⟨file', parsed', ⟨noCode, _⟩ | ⟨edit, plan, run, carried⟩⟩ := fixImports_cases done
  · cases parsed.symm.trans parsed'
    have candidate := (Extraction.mem_references.mp (needed ▸ listed)).1
    rw [SourceFile.candidates_eq_nil parsed noCode] at candidate
    cases candidate
  cases parsed.symm.trans parsed'
  refine ⟨edit, plan, run, carried, ?_⟩
  rw [(Plan.outcome_eq_ok carried).2.2]
  cases found : index.resolve? reference.name with
  | none =>
      rw [run.planned_for needed]
      exact edit.unresolved_mem_planFor _ _
        (SymbolIndex.mem_resolveAll.mpr ⟨List.mem_map_of_mem listed, found.symm⟩)
  | some name =>
      dsimp only
      rw [Edit.isBound_sort, Edit.isImported_sort]
      exact (run.accounts_for_resolved needed listed found).imp_right ImportedElsewhere.sort

/-- Two references that start alike are both bound, though they resolve to different classes. -/
theorem fixImports_accounts_for_references_of_conflict
    : ∃ source entries file outcome reference edit plan,
        source = "<?php\nnew Foo(new Foo\\Bar);\n".toList
        ∧ entries
          = [⟨⟨["A".toList, "Foo".toList], .qualified⟩, ⟨0⟩⟩,
            ⟨⟨["B".toList, "Foo".toList, "Bar".toList], .qualified⟩, ⟨1⟩⟩]
        ∧ fixImports source (.ofEntries entries) .default = .ok outcome
        ∧ reference ∈ file.extract.candidates
        ∧ reference.name = ⟨["Foo".toList, "Bar".toList], .qualified⟩
        ∧ Run source (.ofEntries entries) .default file edit plan
        ∧ (plan.edit.sort.isBound "Foo".toList = true
          ∨ ImportedElsewhere file plan.edit.sort ⟨["B".toList, "Foo".toList], .qualified⟩
              "Foo".toList) := by
  obtain ⟨file, references, outcome, parsed, needed, done, checked⟩ := exists_of_succeeds
    "<?php\nnew Foo(new Foo\\Bar);\n".toList
    [⟨⟨["A".toList, "Foo".toList], .qualified⟩, ⟨0⟩⟩,
      ⟨⟨["B".toList, "Foo".toList, "Bar".toList], .qualified⟩, ⟨1⟩⟩] .default
    (fun _ references _ => references.any fun reference =>
      reference.name == ⟨["Foo".toList, "Bar".toList], .qualified⟩)
    (by decide +kernel)
  obtain ⟨reference, listed, named⟩ := List.any_eq_true.mp checked
  rw [beq_iff_eq] at named
  obtain ⟨edit, plan, run, _, accounted⟩ :=
    fixImports_accounts_for_references done parsed needed listed
  have found : resolveAmong? [⟨⟨["A".toList, "Foo".toList], .qualified⟩, ⟨0⟩⟩,
      ⟨⟨["B".toList, "Foo".toList, "Bar".toList], .qualified⟩, ⟨1⟩⟩]
      ⟨["Foo".toList, "Bar".toList], .qualified⟩
      = some ⟨["B".toList, "Foo".toList], .qualified⟩ := by decide +kernel
  rw [named, resolve?_ofEntries, found] at accounted
  exact ⟨_, _, file, outcome, reference, edit, plan, rfl, rfl, done,
    (Extraction.mem_references.mp (needed ▸ listed)).1, named, run,
    accounted.imp_left And.left⟩

/-- A class that is imported under an alias leaves a reference to it by its own name unbound, and
nothing is reported.
-/
theorem aliased_class_leaves_reference_unbound
    : ∃ source entries file outcome reference edit plan,
        source = "<?php\nuse Lib\\Foo as Bar;\nnew Bar(new Foo);\n".toList
        ∧ entries = [⟨⟨["Lib".toList, "Foo".toList], .qualified⟩, ⟨0⟩⟩]
        ∧ fixImports source (.ofEntries entries) .default = .ok outcome
        ∧ reference
          ∈ file.extract.references
              (ignoreSet .default file file.extract (.ofEntries entries))
        ∧ Run source (.ofEntries entries) .default file edit plan
        ∧ plan.edit.sort.isBound reference.name.first = false
        ∧ outcome.diagnostics = [] := by
  obtain ⟨file, references, outcome, parsed, rfl, done, checked⟩ := exists_of_succeeds
    "<?php\nuse Lib\\Foo as Bar;\nnew Bar(new Foo);\n".toList
    [⟨⟨["Lib".toList, "Foo".toList], .qualified⟩, ⟨0⟩⟩] .default
    (fun file references outcome =>
      file.hasCode && references.length == 1 && outcome.added.isEmpty
      && outcome.diagnostics.isEmpty)
    (by decide +kernel)
  simp only [Bool.and_eq_true, beq_iff_eq, List.isEmpty_iff] at checked
  obtain ⟨⟨⟨code, one⟩, nothing⟩, silent⟩ := checked
  obtain ⟨reference, only⟩ := List.length_eq_one_iff.mp one
  have listed := only ▸ List.mem_singleton_self reference
  obtain ⟨file', parsed', ⟨noCode, _⟩ | ⟨edit, plan, run, carried⟩⟩ := fixImports_cases done
  · cases parsed.symm.trans parsed'
    rw [code] at noCode
    cases noCode
  · cases parsed.symm.trans parsed'
    rw [(Plan.outcome_eq_ok carried).1] at nothing
    refine ⟨_, _, file, outcome, reference, edit, plan, rfl, rfl, done, listed, run, ?_, silent⟩
    rw [Edit.isBound_sort]
    exact run.isBound_eq_false nothing listed

end ImportHeader
