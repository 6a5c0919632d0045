import ImportHeader.Proofs.Fix.Coverage
import ImportHeader.Proofs.Fix.Bindings
import ImportHeader.Proofs.Fix.Listed
import ImportHeader.Proofs.Header.Arrangement
import ImportHeader.Proofs.Reference.ImportEntries

/-! What a run reports, and where. A reference is reported at the first place that has its name. A
removed import is reported at the first import of its name, which is the removed one unless the
same name is imported before it.
-/

namespace ImportHeader

/-- The references that no earlier one has the name of. -/
def heads : List Reference → List Reference
  | [] => []
  | first :: rest => first :: (heads rest).filter fun reference => reference.name != first.name

namespace SourceFile

/-- The local names that nothing in a file uses. -/
def unusedAliases (file : SourceFile) : List Text :=
  file.extract.unusedImports.map ImportEntry.bound

/-- What is extracted from the statements that a run over a file removes. -/
def removedEntries (file : SourceFile) : List ImportEntry :=
  (file.importScope.filter fun stmt => (stmt.importUnder? file.unusedAliases).isSome).flatMap
    (Stmt.importEntries file.lines)

/-- The imports that a run over a file leaves. -/
def keptImports (file : SourceFile) : List Import :=
  (file.importScope.filter fun stmt => (stmt.importUnder? file.unusedAliases).isNone).filterMap
    Stmt.declaration?

/-- No import before a removed one has the same full name. -/
def RemovesFirstImports (file : SourceFile) : Prop :=
  ∀ front entry back, file.extract.imports = front ++ entry :: back → entry ∈ file.removedEntries
    → ∀ other ∈ front, other.name.segments ≠ entry.name.segments

end SourceFile

/-- The warnings about references that resolve to nothing. -/
def unresolvedReports (index : SymbolIndex) (references : List Reference) : List Diagnostic :=
  ((heads references).filter fun reference => (index.resolve? reference.name).isNone).map
    fun reference => .unresolved reference.position reference.name

/-- Whether a class is imported already, or added. -/
def isServed (kept : List Import) (added : List Name) (name : Name) : Bool :=
  kept.any (·.binds name .classLike) || added.any (·.segments == name.segments)

/-- The warnings about references whose import is neither there nor added. -/
def skippedReports (index : SymbolIndex) (references : List Reference) (kept : List Import)
    (added : List Name)
    : List Diagnostic :=
  (heads references).filterMap fun reference =>
    (index.resolve? reference.name).bind fun name =>
      if isServed kept added name then none
      else some (.skipped reference.position name name.last)

-----------------------------------------------------------------------------------------
-- References
-----------------------------------------------------------------------------------------

/-- The names that are resolved are those of the first references. -/
theorem firstSeen_eq_map_heads (seen : List Name) (references : List Reference)
    : firstSeen seen (references.map Reference.name)
      = ((heads references).filter fun reference => reference.name ∉ seen).map
          Reference.name := by
  induction references generalizing seen with
  | nil => rfl
  | cons first rest ih =>
      rw [List.map_cons, firstSeen, heads, List.filter_cons, List.filter_filter]
      by_cases known : first.name ∈ seen
      · rw [if_pos known, if_neg (by simpa using known), ih]
        refine congrArg (List.map Reference.name) (List.filter_congr fun reference _ => ?_)
        by_cases same : reference.name = first.name
        · simp [same, known]
        · simp [same]
      · rw [if_neg known, if_pos (by simpa using known), ih, List.map_cons]
        refine congrArg (fun names => first.name :: List.map Reference.name names)
          (List.filter_congr fun reference _ => ?_)
        by_cases same : reference.name = first.name
        · simp [same]
        · simp [same]

/-- The place of a first reference is the one that is found by its name. -/
theorem positionOf_of_mem_heads {references : List Reference} {reference : Reference}
    (listed : reference ∈ heads references)
    : positionOf references reference.name = reference.position := by
  induction references with
  | nil => cases listed
  | cons first rest ih =>
      unfold positionOf
      rw [List.find?_cons]
      rcases List.mem_cons.mp listed with rfl | later
      · rw [beq_self_eq_true]
        rfl
      · obtain ⟨among, other⟩ := List.mem_filter.mp later
        rw [beq_false_of_ne (Ne.symm (bne_iff_ne.mp other))]
        exact ih among

theorem SymbolIndex.resolveAll_eq_map_heads (index : SymbolIndex) (references : List Reference)
    : index.resolveAll (references.map Reference.name)
      = (heads references).map fun reference =>
          ⟨reference.name, index.resolve? reference.name⟩ := by
  rw [resolveAll, firstSeen_eq_map_heads, List.filter_eq_self.mpr (by simp), List.map_map]
  rfl

-----------------------------------------------------------------------------------------
-- Imports that are left out
-----------------------------------------------------------------------------------------

/-- A class whose local name is taken is not imported by later additions. -/
theorem Edit.isImported_addResolved_of_isBound {edit : Edit} (resolutions : List Resolution)
    {name : Name} (absent : edit.isImported name = false) (taken : edit.isBound name.last = true)
    : (edit.addResolved resolutions).edit.isImported name = false := by
  refine (Edit.addResolved_induction (motive := fun current =>
    current.isImported name = false ∧ current.isBound name.last = true) edit resolutions
    ⟨absent, taken⟩ fun current _ other _ holds free unbound => ⟨?_, ?_⟩).1
  · refine Bool.eq_false_iff.mpr fun imported => ?_
    rcases (Edit.isImported_add_iff free).mp imported with same | already
    · have last : name.last = other.last := by rw [Name.last, Name.last, same]
      rw [← last, holds.2] at unbound
      cases unbound
    · rw [holds.1] at already
      cases already
  · rw [Edit.isBound_add free, holds.2, Bool.or_true]

/-- What is left out is what is not imported in the end. -/
theorem Edit.skipped_eq (edit : Edit) (resolutions : List Resolution)
    : (edit.addResolved resolutions).skipped
      = resolutions.filterMap fun resolution =>
          resolution.found?.bind fun name =>
            if (edit.addResolved resolutions).edit.isImported name then none
            else some (resolution.reference, name) := by
  fun_induction Edit.addResolved edit resolutions with
  | case1 edit => rfl
  | case2 edit reference rest ih => exact ih
  | case3 edit reference rest name imported ih =>
      rw [List.filterMap_cons_none]
      · exact ih
      · rw [Option.bind_some, if_pos (Edit.isImported_addResolved rest imported)]
  | case4 edit reference rest name absent taken others ih =>
      rw [Bool.not_eq_true] at absent
      have left := Edit.isImported_addResolved_of_isBound rest absent taken
      rw [List.filterMap_cons_some (b := (reference, name))]
      · exact congrArg _ ih
      · rw [Option.bind_some, if_neg (by simpa using left)]
  | case5 edit reference rest name absent free others ih =>
      rw [Bool.not_eq_true] at absent
      rw [List.filterMap_cons_none]
      · exact ih
      · rw [Option.bind_some, if_pos]
        exact Edit.isImported_addResolved rest (Edit.isImported_add_self absent)

/-- The classes that are imported in the end are those that were before, and those added. -/
theorem Edit.isImported_addResolved_eq (edit : Edit) (resolutions : List Resolution) (name : Name)
    : (edit.addResolved resolutions).edit.isImported name
      = isServed edit.imports (edit.addResolved resolutions).added name := by
  rw [Edit.isImported, (Edit.imports_addResolved edit resolutions).any_eq, List.any_append,
    List.any_map, Bool.or_comm]
  have single (other : Name) : (Import.single other).binds name .classLike
      = (other.segments == name.segments) := by
    simp [Import.binds, Import.single, Import.itemKind, Import.fullName]
  simp only [isServed, Function.comp_def, single]

/-- What is left out is reported reference by reference. -/
theorem Edit.map_skipped_eq (edit : Edit) (index : SymbolIndex) (references : List Reference)
    {additions : Additions}
    (added : additions = edit.addResolved ((heads references).map fun reference =>
      ⟨reference.name, index.resolve? reference.name⟩))
    : (additions.skipped.map fun (reference, name) =>
        Diagnostic.skipped (positionOf references reference) name name.last)
      = skippedReports index references edit.imports additions.added := by
  subst added
  rw [Edit.skipped_eq, List.filterMap_map, List.map_filterMap]
  refine List.filterMap_congr fun reference listed => ?_
  cases found : index.resolve? reference.name with
  | none => simp [found]
  | some name =>
      simp only [Function.comp_apply, found, Option.bind_some, Edit.isImported_addResolved_eq]
      split
      · rfl
      · rw [Option.map_some, positionOf_of_mem_heads listed]

-----------------------------------------------------------------------------------------
-- Removed imports
-----------------------------------------------------------------------------------------

/-- A removed statement binds one name, and that is the one extracted from it. -/
theorem Stmt.importEntries_of_importUnder? {stmt : Stmt} {aliases : List Text} {name : Name}
    (found : stmt.importUnder? aliases = some name) (lines : LineIndex)
    : (stmt.importEntries lines).map ImportEntry.name = [name] := by
  obtain ⟨declaration, item, declared, single, _, _⟩ := Stmt.importUnder?_eq_some found
  unfold Stmt.importUnder? at found
  rw [declared] at found
  simp only [single] at found
  split at found
  · obtain rfl := Option.some.inj found
    simp [Stmt.importEntries, declared, Node.importEntries, single]
  · cases found

theorem map_name_removedEntries (lines : LineIndex) (aliases : List Text) (stmts : List Stmt)
    : ((stmts.filter fun stmt => (stmt.importUnder? aliases).isSome).flatMap
          (Stmt.importEntries lines)).map ImportEntry.name
      = stmts.filterMap (Stmt.importUnder? aliases) := by
  induction stmts with
  | nil => rfl
  | cons stmt stmts ih =>
      cases found : stmt.importUnder? aliases with
      | none =>
          rw [List.filter_cons_of_neg (by simp [found]), List.filterMap_cons_none found, ih]
      | some name =>
          rw [List.filter_cons_of_pos (by simp [found]), List.filterMap_cons_some found,
            List.flatMap_cons, List.map_append, ih, Stmt.importEntries_of_importUnder? found]
          rfl

namespace SourceFile

variable {source : Text} {file : SourceFile}

theorem removedEntries_sublist (file : SourceFile)
    : file.removedEntries.Sublist file.extract.imports := by
  rw [extract_imports]
  exact (List.filter_sublist.trans file.importScope_sublist).flatMap _

/-- A removed import is found by its name exactly if no import before it has that name. -/
theorem importPosition_eq_iff (parsed : parse source = .ok file) {front back : List ImportEntry}
    {entry : ImportEntry} (whole : file.extract.imports = front ++ entry :: back)
    : importPosition file.extract entry.name = entry.position
      ↔ ∀ other ∈ front, other.name.segments ≠ entry.name.segments := by
  have ordered := pairwise_extract_imports parsed
  rw [whole] at ordered
  have before := (List.pairwise_append.mp ordered).2.2
  unfold importPosition
  rw [whole, List.find?_append]
  cases found : front.find? fun other => other.name.segments == entry.name.segments with
  | none =>
      refine iff_of_true ?_ fun other listed => ?_
      · simp
      · simpa using List.find?_eq_none.mp found other listed
  | some other =>
      have listed := List.mem_of_find?_eq_some found
      have same : other.name.segments = entry.name.segments := by
        simpa using List.find?_some found
      refine iff_of_false ?_ fun apart => apart other listed same
      exact (before other listed entry List.mem_cons_self).ne

end SourceFile

-----------------------------------------------------------------------------------------
-- A whole run
-----------------------------------------------------------------------------------------

namespace Run

variable {source : Text} {index : SymbolIndex} {config : Config} {file : SourceFile}
  {edit : Edit} {plan : Plan} {references : List Reference}

/-- What a run removes is what is extracted from the statements that it removes. -/
theorem removed_eq (run : Run source index config file edit plan)
    : plan.removed = file.removedEntries.map ImportEntry.name := by
  rw [run.planned, SourceFile.removedEntries, map_name_removedEntries]
  change edit.removable _ = _
  rw [Edit.removable, run.edit_file]
  rfl

/-- The imports that a run leaves are those of its file that it does not remove. -/
theorem imports_remove (run : Run source index config file edit plan)
    : (edit.remove file.unusedAliases).imports = file.keptImports := by
  rw [Edit.imports_eq, Edit.scope_remove, Edit.scope, run.edit_file]
  rfl

/-- The additions of a run, reference by reference. -/
theorem planned_by_heads (run : Run source index config file edit plan)
    (asks : references = file.extract.references (ignoreSet config file file.extract index))
    : plan = edit.planFor file.extract references
        ((heads references).map fun reference =>
          ⟨reference.name, index.resolve? reference.name⟩) := by
  rw [run.planned, ← asks, Edit.plan, index.resolveAll_eq_map_heads]

/-- A run reports the references that resolve to nothing, the removed imports at the places that
their names have, and the references whose import is neither there nor added.
-/
theorem diagnostics_eq (run : Run source index config file edit plan)
    (asks : references = file.extract.references (ignoreSet config file file.extract index))
    : plan.diagnostics
      = unresolvedReports index references
        ++ (file.removedEntries.map fun entry =>
          .removed (importPosition file.extract entry.name) entry.name)
        ++ skippedReports index references file.keptImports plan.added := by
  have unresolved : (((heads references).map fun reference =>
        (⟨reference.name, index.resolve? reference.name⟩ : Resolution)).filter
          fun resolution => resolution.found?.isNone).map (fun resolution =>
            Diagnostic.unresolved (positionOf references resolution.reference)
              resolution.reference)
      = unresolvedReports index references := by
    rw [List.filter_map, List.map_map]
    refine List.map_congr_left fun reference listed => ?_
    exact congrArg (Diagnostic.unresolved · reference.name)
      (positionOf_of_mem_heads (List.mem_of_mem_filter listed))
  have planned := run.planned_by_heads asks
  have removed : plan.removed.map (fun name =>
        Diagnostic.removed (importPosition file.extract name) name)
      = file.removedEntries.map fun entry =>
          .removed (importPosition file.extract entry.name) entry.name := by
    rw [run.removed_eq, List.map_map]
    rfl
  have skipped := (edit.remove file.unusedAliases).map_skipped_eq index references rfl
  rw [run.imports_remove] at skipped
  rw [← unresolved, ← removed, planned]
  exact congrArg (_ ++ ·) skipped

end Run

/-- A run on a file with code removes statements that stand at different positions. It reports the
references that resolve to nothing, then each removed import where it stands, and then the
references whose import is neither there nor added, exactly if no import before a removed one has
the same full name. Names that several references have are reported once, for the first of them.
-/
theorem fixImports_reports {source : Text} {index : SymbolIndex} {config : Config}
    {file : SourceFile} {outcome : Outcome} {references : List Reference}
    (parsed : parse source = .ok file) (code : file.hasCode = true)
    (asks : references = file.extract.references (ignoreSet config file file.extract index))
    (done : fixImports source index config = .ok outcome)
    : outcome.removed = file.removedEntries.map ImportEntry.name
      ∧ (file.removedEntries.map ImportEntry.position).Nodup
      ∧ (file.RemovesFirstImports
        ↔ outcome.diagnostics
          = unresolvedReports index references
            ++ (file.removedEntries.map fun entry => .removed entry.position entry.name)
            ++ skippedReports index references file.keptImports outcome.added) := by
  obtain ⟨file', parsed', ⟨noCode, _⟩ | ⟨edit, plan, run, carried⟩⟩ := fixImports_cases done
  · obtain rfl := Except.ok.inj (parsed.symm.trans parsed')
    rw [code] at noCode
    cases noCode
  obtain rfl := Except.ok.inj (parsed.symm.trans parsed')
  obtain ⟨added, removed, reported⟩ := Plan.outcome_eq_ok carried
  have ordered := SourceFile.pairwise_extract_imports parsed
  refine ⟨removed.trans run.removed_eq, ?_, ?_⟩
  · refine List.pairwise_map.mpr ((ordered.sublist file.removedEntries_sublist).imp ?_)
    exact fun before => before.ne
  rw [reported, run.diagnostics_eq asks, added, List.append_left_inj, List.append_right_inj,
    List.map_inj_left]
  constructor
  · intro first entry listed
    obtain ⟨front, back, whole⟩ :=
      List.append_of_mem (file.removedEntries_sublist.subset listed)
    rw [(SourceFile.importPosition_eq_iff parsed whole).mpr (first front entry back whole listed)]
  · intro same front entry back whole listed
    refine (SourceFile.importPosition_eq_iff parsed whole).mp ?_
    exact congrArg Diagnostic.position (same entry listed)

/-- Two removed imports, one of which is not the first of its alias, a missing class and a class
whose local name is taken.
-/
theorem fixImports_reports_of_two_removals
    : ∃ source entries file outcome references,
        source = "<?php\nuse A\\B;\nuse C\\B as D;\nnew Gone; new Foo; new Foo\\X; new Gone;".toList
        ∧ entries
          = [⟨⟨["One".toList, "Foo".toList], .qualified⟩, ⟨0⟩⟩,
            ⟨⟨["Two".toList, "Foo".toList, "X".toList], .qualified⟩, ⟨0⟩⟩]
        ∧ parse source = .ok file
        ∧ fixImports source (.ofEntries entries) .default = .ok outcome
        ∧ outcome.diagnostics.map (fun report => (report.code?, report.position))
          = [(some "W0001".toList, ⟨3, 4⟩), (some "I0001".toList, ⟨1, 4⟩),
            (some "I0001".toList, ⟨2, 4⟩), (some "W0002".toList, ⟨3, 23⟩)]
        ∧ outcome.removed = file.removedEntries.map ImportEntry.name
        ∧ (file.RemovesFirstImports
          ↔ outcome.diagnostics
            = unresolvedReports (.ofEntries entries) references
              ++ (file.removedEntries.map fun entry => .removed entry.position entry.name)
              ++ skippedReports (.ofEntries entries) references file.keptImports
                outcome.added) := by
  obtain ⟨source, written⟩ : ∃ source : Text, source
      = "<?php\nuse A\\B;\nuse C\\B as D;\nnew Gone; new Foo; new Foo\\X; new Gone;".toList :=
    ⟨_, rfl⟩
  obtain ⟨file, references, outcome, parsed, asks, done, checked⟩ := exists_of_succeeds source
    [⟨⟨["One".toList, "Foo".toList], .qualified⟩, ⟨0⟩⟩,
      ⟨⟨["Two".toList, "Foo".toList, "X".toList], .qualified⟩, ⟨0⟩⟩] .default
    (fun file _ outcome => file.hasCode
      && outcome.diagnostics.map (fun report => (report.code?, report.position))
        == [(some "W0001".toList, ⟨3, 4⟩), (some "I0001".toList, ⟨1, 4⟩),
          (some "I0001".toList, ⟨2, 4⟩), (some "W0002".toList, ⟨3, 23⟩)])
    (by rw [written]; decide +kernel)
  rw [Bool.and_eq_true, beq_iff_eq] at checked
  obtain ⟨removed, _, reports⟩ := fixImports_reports parsed checked.1 asks done
  exact ⟨source, _, file, outcome, references, written, rfl, parsed, done, checked.2, removed,
    reports⟩

/-- An import that is removed under its alias is reported where the same class is imported before
it, by the import that stays.
-/
theorem removed_alias_is_reported_at_kept_import
    : ∃ source file outcome,
        source = "<?php\nuse Lib\\Foo;\nuse Lib\\Foo as Bar;\nnew Foo;\n".toList
        ∧ parse source = .ok file
        ∧ fixImports source (.ofEntries []) .default = .ok outcome
        ∧ outcome.text = "<?php\n\nuse Lib\\Foo;\n\nnew Foo;\n".toList
        ∧ file.removedEntries.map (fun entry => (entry.bound, entry.position))
          = [("Bar".toList, ⟨2, 4⟩)]
        ∧ outcome.diagnostics
          = [.removed ⟨1, 4⟩ ⟨["Lib".toList, "Foo".toList], .qualified⟩] := by
  obtain ⟨file, _, outcome, parsed, _, done, checked⟩ := exists_of_succeeds
    "<?php\nuse Lib\\Foo;\nuse Lib\\Foo as Bar;\nnew Foo;\n".toList [] .default
    (fun file _ outcome =>
      outcome.text == "<?php\n\nuse Lib\\Foo;\n\nnew Foo;\n".toList
      && (file.removedEntries.map (fun entry => (entry.bound, entry.position))
          == [("Bar".toList, ⟨2, 4⟩)]
        && outcome.diagnostics
          == [.removed ⟨1, 4⟩ ⟨["Lib".toList, "Foo".toList], .qualified⟩]))
    (by decide +kernel)
  rw [Bool.and_eq_true, Bool.and_eq_true, beq_iff_eq, beq_iff_eq, beq_iff_eq] at checked
  exact ⟨_, file, outcome, rfl, parsed, done, checked⟩

end ImportHeader
