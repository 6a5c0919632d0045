import ImportHeader.Proofs.Fix.Again

/-! A run decides on names one by one, while it edits. The same names given to a plain edit of the
file have the same result: what a run leaves out leaves no trace.
-/

namespace ImportHeader

namespace Run

variable {source : Text} {index : SymbolIndex} {config : Config} {file : SourceFile}
  {edit : Edit} {plan : Plan}

/-- A file with code that passes the check has a run that reaches its edit. -/
theorem exists_of_checked (index : SymbolIndex) (config : Config)
    (parsed : parse source = .ok file) (code : file.hasCode = true)
    (checked : file.checkStructure = .ok ())
    : ∃ edit plan, Run source index config file edit plan := by
  obtain ⟨edit, started⟩ := Edit.exists_start checked source
  exact ⟨edit, _, parsed, code, started, rfl⟩

/-- The edit of a plan is that of its removals, then of its additions in order. -/
theorem edit_eq_foldl (run : Run source index config file edit plan)
    : plan.edit
      = plan.added.foldl Edit.add
          (edit.remove (file.extract.unusedImports.map ImportEntry.bound)) := by
  rw [run.planned]
  exact Edit.addResolved_edit _ _

/-- A run that removes nothing has the imports of its file to begin with. -/
theorem imports_remove_of_nothing (run : Run source index config file edit plan)
    (removed : plan.removed = [])
    : (edit.remove (file.extract.unusedImports.map ImportEntry.bound)).imports
      = edit.imports := by
  rw [run.planned] at removed
  rw [Edit.imports_eq, Edit.scope_remove, List.filter_eq_self.mpr, ← Edit.imports_eq]
  intro stmt listed
  rw [List.filterMap_eq_nil_iff.mp removed stmt listed]
  rfl

/-- A run has nothing to do if it removes and adds nothing and its file is in order. -/
theorem isIdle_iff (run : Run source index config file edit plan)
    : plan.isIdle = true ↔ plan.added = [] ∧ plan.removed = [] ∧ edit.isSorted = true := by
  rw [Plan.isIdle, Bool.and_eq_true, Bool.and_eq_true, List.isEmpty_iff, List.isEmpty_iff,
    and_assoc]
  refine and_congr_right fun added => and_congr_right fun removed => ?_
  rw [Edit.isSorted, run.edit_eq_foldl, added, List.foldl_nil,
    run.imports_remove_of_nothing removed, Edit.isSorted]

/-- A run with something to do has the text of the plain edit, and its error if it fails. -/
theorem fixImports_eq_map (run : Run source index config file edit plan)
    (busy : plan.isIdle = false)
    : fixImports source index config
      = (editImports file plan.added (file.extract.unusedImports.map ImportEntry.bound)
          source).map
          fun text => ⟨text, plan.added, plan.removed, plan.diagnostics, text != source⟩ := by
  rw [run.fixImports_eq, Plan.outcome, busy, if_neg Bool.false_ne_true, run.sort_eq_apply,
    editImports, run.started]
  rfl

end Run

/-- A run over a file with code that passes the check agrees with the plain edit of the names that
it plans: if there is something to do, the one succeeds with a text or fails with an error exactly
when the other does. Otherwise the source stays as it is.
-/
theorem fixImports_agrees_with_editImports {source : Text} {file : SourceFile}
    (index : SymbolIndex) (config : Config) (parsed : parse source = .ok file)
    (code : file.hasCode = true) (checked : file.checkStructure = .ok ())
    : ∃ edit plan,
        Run source index config file edit plan
        ∧ (plan.added ≠ [] ∨ plan.removed ≠ [] ∨ edit.isSorted = false
          → (∀ text,
              (∃ outcome, fixImports source index config = .ok outcome ∧ outcome.text = text)
              ↔ editImports file plan.added (file.extract.unusedImports.map ImportEntry.bound)
                  source
                = .ok text)
            ∧ ∀ error,
                fixImports source index config = .error error
                ↔ editImports file plan.added
                    (file.extract.unusedImports.map ImportEntry.bound) source
                  = .error error)
        ∧ (plan.added = [] ∧ plan.removed = [] ∧ edit.isSorted = true
          → ∃ outcome,
              fixImports source index config = .ok outcome
              ∧ outcome.text = source
              ∧ outcome.changed = false) := by
  obtain ⟨edit, plan, run⟩ := Run.exists_of_checked index config parsed code checked
  refine ⟨edit, plan, run, fun something => ?_, fun nothing => ?_⟩
  · have busy : plan.isIdle = false := by
      rw [← Bool.not_eq_true, run.isIdle_iff]
      rintro ⟨added, removed, sorted⟩
      simp [added, removed, sorted] at something
    rw [run.fixImports_eq_map busy]
    cases editImports file plan.added (file.extract.unusedImports.map ImportEntry.bound) source with
    | error error => simp [Except.map]
    | ok text => simp [Except.map]
  · have idle := run.isIdle_iff.mpr nothing
    exact ⟨_, run.fixImports_eq.trans (Plan.outcome_of_isIdle idle source), rfl, rfl⟩

/-- One import goes, one is added, and one is left out because its local name is taken: the plain
edit of the one that is added has the text of the run.
-/
theorem fixImports_agrees_with_editImports_of_conflict
    : ∃ source entries file edit plan outcome,
        source = "<?php\nuse Old\\Bar;\nnew Foo(new Foo\\Bar);\n".toList
        ∧ entries
          = [⟨⟨["A".toList, "Foo".toList], .qualified⟩, ⟨0⟩⟩,
            ⟨⟨["B".toList, "Foo".toList, "Bar".toList], .qualified⟩, ⟨1⟩⟩]
        ∧ parse source = .ok file
        ∧ Run source (.ofEntries entries) .default file edit plan
        ∧ fixImports source (.ofEntries entries) .default = .ok outcome
        ∧ outcome.text = "<?php\n\nuse A\\Foo;\n\nnew Foo(new Foo\\Bar);\n".toList
        ∧ plan.added = [⟨["A".toList, "Foo".toList], .qualified⟩]
        ∧ plan.removed = [⟨["Old".toList, "Bar".toList], .qualified⟩]
        ∧ editImports file [⟨["A".toList, "Foo".toList], .qualified⟩]
            (file.extract.unusedImports.map ImportEntry.bound) source
          = .ok outcome.text := by
  obtain ⟨file, _, outcome, parsed, _, done, tested⟩ := exists_of_succeeds
    "<?php\nuse Old\\Bar;\nnew Foo(new Foo\\Bar);\n".toList
    [⟨⟨["A".toList, "Foo".toList], .qualified⟩, ⟨0⟩⟩,
      ⟨⟨["B".toList, "Foo".toList, "Bar".toList], .qualified⟩, ⟨1⟩⟩] .default
    (fun file _ outcome =>
      file.hasCode && decide (file.checkStructure.toOption = some ())
      && outcome.text == "<?php\n\nuse A\\Foo;\n\nnew Foo(new Foo\\Bar);\n".toList
      && outcome.added == [⟨["A".toList, "Foo".toList], .qualified⟩]
      && outcome.removed == [⟨["Old".toList, "Bar".toList], .qualified⟩])
    (by decide +kernel)
  simp only [Bool.and_eq_true, decide_eq_true_eq, beq_iff_eq] at tested
  obtain ⟨⟨⟨⟨code, checks⟩, text⟩, adds⟩, removes⟩ := tested
  have checked : file.checkStructure = .ok () := by
    cases checked : file.checkStructure with
    | error error => simp [checked, Except.toOption] at checks
    | ok _ => rfl
  obtain ⟨edit, plan, run, agrees, _⟩ := fixImports_agrees_with_editImports
    (.ofEntries [⟨⟨["A".toList, "Foo".toList], .qualified⟩, ⟨0⟩⟩,
      ⟨⟨["B".toList, "Foo".toList, "Bar".toList], .qualified⟩, ⟨1⟩⟩]) .default parsed code checked
  obtain ⟨added, removed, _⟩ := Plan.outcome_eq_ok (run.fixImports_eq.symm.trans done)
  rw [adds] at added
  rw [removes] at removed
  have same := ((agrees (.inl (added ▸ List.cons_ne_nil _ _))).1 outcome.text).mp
    ⟨outcome, done, rfl⟩
  rw [← added] at same
  exact ⟨_, _, file, edit, plan, outcome, rfl, rfl, parsed, run, done, text, added.symm,
    removed.symm, same⟩

end ImportHeader
