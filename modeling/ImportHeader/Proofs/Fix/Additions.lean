import ImportHeader.Proofs.Fix.Bindings
import ImportHeader.Proofs.Fix.Listed
import ImportHeader.Proofs.Reference.Extraction
import ImportHeader.Proofs.Symbol.Resolution
import Mathlib.Data.List.Flatten

/-! The imports that a run adds. Each is what some reference resolves to, under a local name
that nothing bound before, so local names stay unique.
-/

namespace ImportHeader

theorem Text.sameFolded_comm (left right : Text)
    : Text.sameFolded left right = Text.sameFolded right left :=
  BEq.comm

-----------------------------------------------------------------------------------------
-- One addition
-----------------------------------------------------------------------------------------

/-- Up to order, adding a name adds its import. -/
theorem Edit.imports_add_perm {edit : Edit} {name : Name} (absent : edit.isImported name = false)
    : (edit.add name).imports.Perm (.single name :: edit.imports) :=
  (Edit.scope_add_perm absent).filterMap Stmt.declaration?

/-- Whether a name is taken does not hang on the order of the imports. -/
theorem Edit.isBound_eq_of_perm {edit : Edit} {imports : List Import}
    (same : edit.imports.Perm imports) (bound : Text)
    : edit.isBound bound
      = imports.any fun declaration =>
          declaration.classItems.any (Text.sameFolded ·.bound bound) :=
  same.any_eq

/-- A new import takes its last segment, and leaves the other names as they were. -/
theorem Edit.isBound_add {edit : Edit} {name : Name} (absent : edit.isImported name = false)
    (bound : Text)
    : (edit.add name).isBound bound = (Text.sameFolded name.last bound || edit.isBound bound) := by
  rw [Edit.isBound_eq_of_perm (Edit.imports_add_perm absent), List.any_cons]
  have items : (Import.single name).classItems = [⟨name, none, none, none⟩] := rfl
  rw [items, List.any_cons, List.any_nil, Bool.or_false]
  rfl

-----------------------------------------------------------------------------------------
-- All additions of a run
-----------------------------------------------------------------------------------------

/-- Up to order, the imports after all additions are those added and those before. -/
theorem Edit.imports_addResolved (edit : Edit) (resolutions : List Resolution)
    : (edit.addResolved resolutions).edit.imports.Perm
        ((edit.addResolved resolutions).added.map .single ++ edit.imports) := by
  fun_induction Edit.addResolved edit resolutions with
  | case1 edit => exact .rfl
  | case2 edit reference rest ih => exact ih
  | case3 edit reference rest name imported ih => exact ih
  | case4 edit reference rest name absent taken others ih => exact ih
  | case5 edit reference rest name absent free others ih =>
      rw [Bool.not_eq_true] at absent
      exact ih.trans (((Edit.imports_add_perm absent).append_left _).trans List.perm_middle)

/-- An added name comes from a resolution, and its last segment was free. -/
theorem Edit.mem_added {edit : Edit} {resolutions : List Resolution} {name : Name}
    (listed : name ∈ (edit.addResolved resolutions).added)
    : (∃ reference, ⟨reference, some name⟩ ∈ resolutions) ∧ edit.isBound name.last = false := by
  fun_induction Edit.addResolved edit resolutions with
  | case1 edit => cases listed
  | case2 edit reference rest ih =>
      exact (ih listed).imp_left fun ⟨reference, later⟩ => ⟨reference, .tail _ later⟩
  | case3 edit reference rest found imported ih =>
      exact (ih listed).imp_left fun ⟨reference, later⟩ => ⟨reference, .tail _ later⟩
  | case4 edit reference rest found absent taken others ih =>
      exact (ih listed).imp_left fun ⟨reference, later⟩ => ⟨reference, .tail _ later⟩
  | case5 edit reference rest found absent free others ih =>
      rw [Bool.not_eq_true] at absent free
      rcases List.mem_cons.mp listed with rfl | later
      · exact ⟨⟨reference, .head _⟩, free⟩
      · obtain ⟨⟨reference', later'⟩, unbound⟩ := ih later
        rw [Edit.isBound_add absent, Bool.or_eq_false_iff] at unbound
        exact ⟨⟨reference', .tail _ later'⟩, unbound.2⟩

/-- No two added names have the same last segment. -/
theorem Edit.pairwise_added (edit : Edit) (resolutions : List Resolution)
    : (edit.addResolved resolutions).added.Pairwise fun left right =>
        Text.sameFolded left.last right.last = false := by
  fun_induction Edit.addResolved edit resolutions with
  | case1 edit => exact .nil
  | case2 edit reference rest ih => exact ih
  | case3 edit reference rest name imported ih => exact ih
  | case4 edit reference rest name absent taken others ih => exact ih
  | case5 edit reference rest name absent free others ih =>
      rw [Bool.not_eq_true] at absent
      refine .cons ?_ ih
      -- the later ones are free in an edit that has this one
      intro other later
      have unbound := (Edit.mem_added later).2
      rw [Edit.isBound_add absent, Bool.or_eq_false_iff] at unbound
      exact unbound.1

-----------------------------------------------------------------------------------------
-- Unique local names
-----------------------------------------------------------------------------------------

/-- No two items of classes bind the same local name. -/
def DistinctlyBound (imports : List Import) : Prop :=
  (imports.flatMap Import.classItems).Pairwise fun left right =>
    Text.sameFolded left.bound right.bound = false

instance (imports : List Import) : Decidable (DistinctlyBound imports) :=
  inferInstanceAs (Decidable (List.Pairwise _ _))

theorem DistinctlyBound.sublist {imports fewer : List Import} (distinct : DistinctlyBound imports)
    (kept : fewer.Sublist imports)
    : DistinctlyBound fewer :=
  List.Pairwise.sublist (kept.flatMap _) distinct

theorem DistinctlyBound.perm {imports others : List Import} (distinct : DistinctlyBound imports)
    (same : imports.Perm others)
    : DistinctlyBound others := by
  refine (same.flatMap_right _).pairwise distinct ?_
  intro left right different
  rwa [Text.sameFolded_comm]

/-- An import under a free name keeps local names unique. -/
theorem DistinctlyBound.cons {edit : Edit} {name : Name}
    (distinct : DistinctlyBound edit.imports) (free : edit.isBound name.last = false)
    : DistinctlyBound (.single name :: edit.imports) := by
  refine List.pairwise_cons.mpr ⟨?_, distinct⟩
  intro item listed
  obtain ⟨declaration, declared, member⟩ := List.mem_flatMap.mp listed
  rw [Edit.isBound, List.any_eq_false] at free
  have other := free declaration declared
  rw [Bool.not_eq_true, List.any_eq_false] at other
  rw [Text.sameFolded_comm]
  exact Bool.eq_false_iff.mpr (other item member)

/-- Removal, additions and sorting keep local names unique. -/
theorem Edit.distinctlyBound_addResolved {edit : Edit} (resolutions : List Resolution)
    (distinct : DistinctlyBound edit.imports)
    : DistinctlyBound (edit.addResolved resolutions).edit.imports :=
  Edit.addResolved_induction (motive := fun current => DistinctlyBound current.imports) edit
    resolutions distinct fun _ _ _ _ kept absent free =>
      (kept.cons free).perm (Edit.imports_add_perm absent).symm

/-- Removal leaves some of the imports, in their order. -/
theorem Edit.imports_remove_sublist (edit : Edit) (aliases : List Text)
    : (edit.remove aliases).imports.Sublist edit.imports := by
  rw [Edit.imports_eq, Edit.imports_eq, Edit.scope_remove]
  exact List.filter_sublist.filterMap _

theorem Edit.distinctlyBound_remove {edit : Edit} (aliases : List Text)
    (distinct : DistinctlyBound edit.imports)
    : DistinctlyBound (edit.remove aliases).imports :=
  distinct.sublist (edit.imports_remove_sublist aliases)

/-- Sorting rearranges the imports. -/
theorem Edit.imports_sort_perm (edit : Edit) : edit.sort.imports.Perm edit.imports :=
  (Edit.scope_sort_perm edit).filterMap Stmt.declaration?

theorem Edit.distinctlyBound_sort {edit : Edit} (distinct : DistinctlyBound edit.imports)
    : DistinctlyBound edit.sort.imports :=
  distinct.perm edit.imports_sort_perm.symm

-----------------------------------------------------------------------------------------
-- A whole run
-----------------------------------------------------------------------------------------

namespace Run

variable {source : Text} {index : SymbolIndex} {config : Config} {file : SourceFile}
  {edit : Edit} {plan : Plan}

/-- A run adds what a reference that needs an import resolves to. -/
theorem exists_reference_of_added (run : Run source index config file edit plan) {name : Name}
    (listed : name ∈ plan.added)
    : ∃ reference ∈ file.extract.references (ignoreSet config file file.extract index),
        index.resolve? reference.name = some name ∧ name.IsImportFor reference.name := by
  rw [run.planned] at listed
  obtain ⟨⟨written, resolved⟩, _⟩ := Edit.mem_added listed
  obtain ⟨needed, found⟩ := SymbolIndex.mem_resolveAll.mp resolved
  obtain ⟨reference, member, rfl⟩ := List.mem_map.mp needed
  have candidate := (Extraction.mem_references.mp member).1
  exact ⟨reference, member, found.symm, SymbolIndex.isImportFor_of_resolve?
    (SourceFile.segments_ne_nil_of_candidate candidate) found.symm⟩

/-- A run keeps local names unique. -/
theorem distinctlyBound (run : Run source index config file edit plan)
    (distinct : DistinctlyBound file.imports)
    : DistinctlyBound plan.edit.sort.imports := by
  rw [← run.edit_file] at distinct
  rw [run.planned]
  exact Edit.distinctlyBound_sort
    (Edit.distinctlyBound_addResolved _ (Edit.distinctlyBound_remove _ distinct))

end Run

/-- A run that succeeds adds what is asked for, under names that are free. If the imports of a
file bind distinct local names, they still do after the run. Each name that is added is what
some reference that needs an import resolves to; it has two segments at least, its last
segment is the first of the reference, and no import of a class bound that segment before;
and no two of them have the same last segment.
-/
theorem fixImports_adds_justified {source : Text} {index : SymbolIndex} {config : Config}
    {outcome : Outcome} (done : fixImports source index config = .ok outcome)
    : ∃ file,
        parse source = .ok file
        ∧ (file.hasCode = false ∧ outcome = .unchanged source []
          ∨ ∃ edit plan,
              Run source index config file edit plan
              ∧ plan.outcome source = .ok outcome
              ∧ (DistinctlyBound file.imports → DistinctlyBound plan.edit.sort.imports)
              ∧ (∀ name ∈ outcome.added,
                  ∃ reference
                    ∈ file.extract.references (ignoreSet config file file.extract index),
                    index.resolve? reference.name = some name
                    ∧ 2 ≤ name.length
                    ∧ name.last = reference.name.first
                    ∧ ∀ declaration ∈ file.imports,
                        ∀ item ∈ declaration.classItems,
                          Text.sameFolded item.bound name.last = false)
              ∧ outcome.added.Pairwise fun left right =>
                  Text.sameFolded left.last right.last = false) := by
  obtain ⟨file, parsed, noCode | ⟨edit, plan, run, carried⟩⟩ := fixImports_cases done
  · exact ⟨file, parsed, .inl noCode⟩
  refine ⟨file, parsed, .inr ⟨edit, plan, run, carried, run.distinctlyBound, ?_, ?_⟩⟩
  · intro name listed
    rw [(Plan.outcome_eq_ok carried).1] at listed
    obtain ⟨reference, member, resolved, importing⟩ := run.exists_reference_of_added listed
    have free := (Extraction.mem_references.mp member).2.1
    refine ⟨reference, member, resolved, importing.two_le_length, importing.last_eq, ?_⟩
    intro declaration declared item inside
    rw [importing.last_eq]
    exact SourceFile.sameFolded_of_not_binds free declared inside
  · rw [(Plan.outcome_eq_ok carried).1, run.planned]
    exact Edit.pairwise_added _ _

/-- The import of a missing class takes the place of one that nothing uses. -/
theorem fixImports_adds_justified_of_missing_class
    : ∃ source entries file edit plan outcome,
        source = "<?php\nuse Old\\Bar;\nnew Foo;\n".toList
        ∧ entries = [⟨⟨["Lib".toList, "Foo".toList], .qualified⟩, ⟨0⟩⟩]
        ∧ fixImports source (.ofEntries entries) .default = .ok outcome
        ∧ Run source (.ofEntries entries) .default file edit plan
        ∧ DistinctlyBound file.imports
        ∧ DistinctlyBound plan.edit.sort.imports
        ∧ outcome.added = [⟨["Lib".toList, "Foo".toList], .qualified⟩]
        ∧ ∀ name ∈ outcome.added,
            ∃ reference ∈ file.extract.candidates, name.last = reference.name.first := by
  obtain ⟨file, _, outcome, parsed, _, done, checked⟩ := exists_of_succeeds
    "<?php\nuse Old\\Bar;\nnew Foo;\n".toList
    [⟨⟨["Lib".toList, "Foo".toList], .qualified⟩, ⟨0⟩⟩] .default
    (fun file _ outcome =>
      file.hasCode && decide (DistinctlyBound file.imports)
      && outcome.added == [⟨["Lib".toList, "Foo".toList], .qualified⟩])
    (by decide +kernel)
  simp only [Bool.and_eq_true, decide_eq_true_eq, beq_iff_eq] at checked
  obtain ⟨⟨code, distinct⟩, added⟩ := checked
  obtain ⟨file', parsed', ⟨noCode, _⟩ | ⟨edit, plan, run, _, kept, justified, _⟩⟩ :=
    fixImports_adds_justified done
  · cases parsed.symm.trans parsed'
    rw [code] at noCode
    cases noCode
  · cases parsed.symm.trans parsed'
    refine ⟨_, _, file, edit, plan, outcome, rfl, rfl, done, run, distinct, kept distinct,
      added, ?_⟩
    intro name listed
    obtain ⟨reference, member, _, _, last, _⟩ := justified name listed
    exact ⟨reference, (Extraction.mem_references.mp member).1, last⟩

end ImportHeader
