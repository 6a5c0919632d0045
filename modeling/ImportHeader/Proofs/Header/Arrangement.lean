import ImportHeader.Proofs.Header.Contents

/-! The import scope after a whole edit. The statements around the imports stay where they are. The
imports are the new ones and those of the old ones that were not removed, in a stable order.
-/

namespace ImportHeader

-----------------------------------------------------------------------------------------
-- The order of imports
-----------------------------------------------------------------------------------------

/-- The full name of the first item that a statement imports. -/
def Stmt.headName? (stmt : Stmt) : Option Name :=
  stmt.declaration?.bind fun declaration => declaration.items.head?.map declaration.fullName

/-- How many segments the first full name of a statement has, and how it reads. -/
def Stmt.rank (stmt : Stmt) : Nat × Text :=
  stmt.headName?.elim (0, []) fun name => (name.length, name.joined)

/-- One statement may stand before another: its first name has fewer segments, or as many and a
smaller text or the same.
-/
def Stmt.MayPrecede (left right : Stmt) : Prop :=
  left.rank.1 < right.rank.1
  ∨ left.rank.1 = right.rank.1 ∧ (left.rank.2 < right.rank.2 ∨ left.rank.2 = right.rank.2)

/-- Statements put in order: each may stand before those behind it, and those of one rank stand as
they did.
-/
structure IsStableSort (stmts sorted : List Stmt) : Prop where
  perm : sorted.Perm stmts
  ordered : sorted.Pairwise Stmt.MayPrecede
  stable
    : ∀ rank,
        (sorted.filter fun stmt => decide (stmt.rank = rank))
        = stmts.filter fun stmt => decide (stmt.rank = rank)

theorem Stmt.sortKey_eq (stmt : Stmt) : stmt.sortKey = ⟨stmt.rank.1, stmt.rank.2⟩ := by
  unfold sortKey rank headName? Import.sortKey
  cases stmt.declaration? with
  | none => rfl
  | some declaration =>
      dsimp only [Option.bind_some]
      cases declaration.items with
      | nil => rfl
      | cons item items => rfl

theorem Stmt.le_sortKey_iff {left right : Stmt}
    : left.sortKey.le right.sortKey = true ↔ left.MayPrecede right := by
  rw [SortKey.le_iff, left.sortKey_eq, right.sortKey_eq]
  rfl

/-- Sorting by key is a stable sort by rank. -/
theorem isStableSort_mergeSort (stmts : List Stmt)
    : IsStableSort stmts (stmts.mergeSort fun left right => left.sortKey.le right.sortKey) := by
  have trans (left middle right : Stmt) :=
    SortKey.le_trans left.sortKey middle.sortKey right.sortKey
  have total (left right : Stmt) := SortKey.le_total left.sortKey right.sortKey
  have perm := List.mergeSort_perm stmts fun left right => left.sortKey.le right.sortKey
  refine ⟨perm, ?_, ?_⟩
  · apply (SortKey.pairwise_mergeSort Stmt.sortKey stmts).imp
    intro left right ordered
    exact Stmt.le_sortKey_iff.mp ordered
  · intro rank
    -- Statements of one rank are in order already, so they stay a sublist.
    have level : (stmts.filter fun stmt => decide (stmt.rank = rank)).Pairwise
        fun left right => left.sortKey.le right.sortKey = true := by
      apply List.pairwise_of_forall_mem_list
      intro left here right there
      have same := of_decide_eq_true (List.mem_filter.mp here).2
      have same' := of_decide_eq_true (List.mem_filter.mp there).2
      rw [Stmt.le_sortKey_iff]
      exact .inr ⟨by rw [same, same'], .inr (by rw [same, same'])⟩
    have kept := (List.sublist_mergeSort trans total level List.filter_sublist).filter
      fun stmt => decide (stmt.rank = rank)
    rw [List.filter_filter] at kept
    simp only [Bool.and_self] at kept
    exact (kept.eq_of_length (perm.filter _).length_eq.symm).symm

-----------------------------------------------------------------------------------------
-- What goes and what comes
-----------------------------------------------------------------------------------------

/-- A statement imports one item only, a class, and binds it to one of the given names in any
letter case.
-/
def Stmt.ImportsClassAs (aliases : List Text) (stmt : Stmt) : Prop :=
  ∃ declaration item,
    stmt.declaration? = some declaration
    ∧ declaration.items = [item]
    ∧ declaration.itemKind item = .classLike
    ∧ ∃ name ∈ aliases, item.bound.lower = name.lower

theorem Stmt.isSome_importUnder?_iff {aliases : List Text} {stmt : Stmt}
    : (stmt.importUnder? aliases).isSome = true ↔ stmt.ImportsClassAs aliases := by
  unfold importUnder? ImportsClassAs
  cases stmt.declaration? with
  | none => simp
  | some declaration =>
      dsimp only
      split
      · rename_i item single
        simp [single, Text.sameFolded]
      · rename_i several
        refine iff_of_false Bool.false_ne_true ?_
        rintro ⟨_, item, found, single, _⟩
        cases found
        exact several item single

instance (aliases : List Text) (stmt : Stmt) : Decidable (stmt.ImportsClassAs aliases) :=
  decidable_of_iff _ Stmt.isSome_importUnder?_iff

theorem Stmt.isNone_importUnder? (aliases : List Text) (stmt : Stmt)
    : (stmt.importUnder? aliases).isNone = decide ¬stmt.ImportsClassAs aliases := by
  rw [Bool.eq_iff_iff, decide_eq_true_iff, ← Stmt.isSome_importUnder?_iff,
    Option.not_isSome_iff_eq_none, Option.isNone_iff_eq_none]

/-- The full names, as segments, of the classes that a statement imports. -/
def Stmt.classNames (stmt : Stmt) : List (List Text) :=
  stmt.declaration?.elim [] fun declaration =>
    declaration.classItems.map fun item => (declaration.fullName item).segments

/-- The names of a list that are not known, each for the first time. -/
def newNames (known : List (List Text)) : List Name → List Name
  | [] => []
  | name :: names =>
      if name.segments ∈ known then
        newNames known names
      else
        name :: newNames (name.segments :: known) names

/-- A class is imported if some statement of the scope imports it. -/
theorem Edit.isImported_iff {edit : Edit} {name : Name}
    : edit.isImported name = true ↔ name.segments ∈ edit.scope.flatMap Stmt.classNames := by
  simp only [Edit.isImported, Edit.imports_eq, List.any_eq_true, List.mem_filterMap,
    List.mem_flatMap, Stmt.classNames, Import.binds, Import.classItems]
  constructor
  · rintro ⟨declaration, ⟨stmt, listed, found⟩, item, member, fits⟩
    rw [Bool.and_eq_true] at fits
    refine ⟨stmt, listed, ?_⟩
    rw [found, Option.elim_some, ← beq_iff_eq.mp fits.2]
    exact List.mem_map_of_mem (List.mem_filter.mpr ⟨member, fits.1⟩)
  · rintro ⟨stmt, listed, inside⟩
    cases found : stmt.declaration? with
    | none => simp [found] at inside
    | some declaration =>
        rw [found, Option.elim_some] at inside
        obtain ⟨item, member, same⟩ := List.mem_map.mp inside
        obtain ⟨member, kind⟩ := List.mem_filter.mp member
        exact ⟨declaration, ⟨stmt, listed, found⟩, item, member,
          Bool.and_eq_true_iff.mpr ⟨kind, beq_iff_eq.mpr same⟩⟩

/-- After an addition the new class is imported too. -/
theorem Edit.isImported_add_iff {edit : Edit} {name other : Name}
    (absent : edit.isImported name = false)
    : (edit.add name).isImported other = true
      ↔ other.segments = name.segments ∨ edit.isImported other = true := by
  have added := ((Edit.scope_add_perm absent).flatMap_right Stmt.classNames).mem_iff
    (a := other.segments)
  rw [Edit.isImported_iff, Edit.isImported_iff, added, List.flatMap_cons, List.mem_append]
  exact or_congr_left List.mem_singleton

-----------------------------------------------------------------------------------------
-- The block of imports
-----------------------------------------------------------------------------------------

/-- The import scope as the statements before the imports, the imports, and those behind them. A
scope without imports is cut at its top.
-/
structure SourceFile.HasBlock (file : SourceFile) (front block back : List Stmt) : Prop where
  scope_eq : file.importScope = front ++ block ++ back
  front_plain : NoImport front
  imports : ∀ stmt ∈ block, stmt.isImport = true
  back_plain : NoImport back
  top : block = [] → front.length = file.scopeTop

theorem NoImport.classNames {stmts : List Stmt} (none : NoImport stmts)
    : stmts.flatMap Stmt.classNames = [] := by
  apply List.flatMap_eq_nil_iff.mpr
  intro stmt listed
  have absent : stmt.declaration? = Option.none := by
    simpa [Stmt.isImport] using none stmt listed
  rw [Stmt.classNames, absent, Option.elim_none]

namespace Edit.Framed

variable {front back kept : List Stmt} {added : List Name} {edit : Edit}

/-- The classes that are imported are those of the block. -/
theorem isImported_iff {block : List Stmt} (framed : edit.Framed front back block) {name : Name}
    : edit.isImported name = true ↔ name.segments ∈ block.flatMap Stmt.classNames := by
  rw [Edit.isImported_iff, framed.scope_eq, List.flatMap_append, List.flatMap_append,
    framed.front_plain.classNames, framed.back_plain.classNames, List.nil_append,
    List.append_nil]

/-- An edit starts at the block of its file. -/
theorem hasBlock {file : SourceFile} {source : Text} {block : List Stmt}
    (started : Edit.start file source = .ok edit) (framed : edit.Framed front back block)
    : file.HasBlock front block back := by
  obtain ⟨_, rfl, _, _, place, _⟩ := Edit.start_eq_ok started
  refine ⟨framed.scope_eq, framed.front_plain, framed.imports, framed.back_plain, ?_⟩
  rintro rfl
  have none : SourceFile.firstImport? edit.file.importScope = Option.none := by
    apply List.findIdx?_eq_none_iff.mpr
    intro stmt listed
    have scope_eq : edit.file.importScope = front ++ [] ++ back := framed.scope_eq
    rw [scope_eq, List.append_nil] at listed
    exact (List.mem_append.mp listed).elim (framed.front_plain stmt) (framed.back_plain stmt)
  rw [← framed.place, place, none]
  rfl

/-- A new import goes behind those that were added before, and before those of the file. -/
theorem add_new (framed : edit.Framed front back (added.map Stmt.ofImport ++ kept))
    (counted : edit.inserted = added.length) {name : Name}
    (absent : edit.isImported name = false)
    : (edit.add name).Framed front back ((added ++ [name]).map Stmt.ofImport ++ kept) := by
  have length : edit.inserted = (added.map Stmt.ofImport).length := by
    rw [counted, List.length_map]
  have inside : edit.inserted ≤ (added.map Stmt.ofImport ++ kept).length := by
    rw [length, List.length_append]
    exact Nat.le_add_right ..
  have inserted := framed.insert absent (.inl inside)
  rw [length, List.take_left, List.drop_left] at inserted
  rw [List.map_append, List.append_assoc]
  exact inserted

/-- Additions put the new ones of a list of names behind those that were added before, by induction
over the names.
-/
theorem add_all (added : List Name)
    (framed : edit.Framed front back (added.map Stmt.ofImport ++ kept))
    (counted : edit.inserted = added.length) {known : List (List Text)} (names : List Name)
    (knows : ∀ name, edit.isImported name = true ↔ name.segments ∈ known)
    : (names.foldl Edit.add edit).Framed front back
        ((added ++ newNames known names).map Stmt.ofImport ++ kept) := by
  induction names generalizing edit added known with
  | nil =>
      rw [newNames, List.append_nil]
      exact framed
  | cons name names ih =>
      rw [List.foldl_cons, newNames]
      cases imported : edit.isImported name with
      | true =>
          rw [if_pos ((knows name).mp imported), Edit.add_of_imported imported]
          exact ih _ framed counted knows
      | false =>
          have unknown : name.segments ∉ known := by
            intro listed
            rw [(knows name).mpr listed] at imported
            cases imported
          rw [if_neg unknown, List.append_cons]
          apply ih _ (framed.add_new counted imported)
          · rw [Edit.inserted_add imported, counted, List.length_append, List.length_singleton]
          · intro other
            rw [Edit.isImported_add_iff imported, List.mem_cons, knows other]

/-- Sorting what is sorted leaves the scope. -/
theorem scope_sort_sort {block : List Stmt} (framed : edit.Framed front back block)
    : edit.sort.sort.scope = edit.sort.scope := by
  have sorted := SortKey.pairwise_mergeSort Stmt.sortKey block
  rw [framed.mergeSort.mergeSort.scope_eq, List.mergeSort_of_pairwise sorted,
    framed.mergeSort.scope_eq]

end Edit.Framed

/-- Of a file that passes the check, a whole edit leaves the statements around the imports. The
imports are a stable sort of the new ones, in the order of their names, before the old ones. Of the
old ones those that import one class under a given alias are gone. Of the names those are new that
neither an old import nor an earlier name has. Afterwards the imports are in order, and sorting
again changes nothing.
-/
theorem Edit.apply_arranges_imports {file : SourceFile} (source : Text)
    (checked : file.checkStructure = .ok ()) (names : List Name) (aliases : List Text)
    : ∃ edit front block back kept sorted,
        Edit.start file source = .ok edit
        ∧ file.HasBlock front block back
        ∧ kept = (block.filter fun stmt => decide ¬stmt.ImportsClassAs aliases)
        ∧ IsStableSort
            ((newNames (kept.flatMap Stmt.classNames) names).map Stmt.ofImport ++ kept) sorted
        ∧ (edit.apply names aliases).scope = front ++ sorted ++ back
        ∧ (edit.apply names aliases).isSorted = true
        ∧ (edit.apply names aliases).sort = edit.apply names aliases := by
  obtain ⟨edit, started⟩ := Edit.exists_start checked source
  obtain ⟨block, framed⟩ := Edit.framed_of_start started
  obtain ⟨_, _, _, _, _, counted, _⟩ := Edit.start_eq_ok started
  have removed := framed.remove aliases
  simp only [Stmt.isNone_importUnder?] at removed
  have all := Edit.Framed.add_all [] removed counted names fun name => removed.isImported_iff
  refine ⟨edit, _, block, _, _, _, started, framed.hasBlock started, rfl,
    isStableSort_mergeSort _, all.mergeSort.scope_eq, Edit.isSorted_sort _, ?_⟩
  rw [Edit.sort_eq_withScope, Edit.apply, all.scope_sort_sort, Edit.withScope_scope]

/-- The import of a class goes and that of a function with its name stays. Of three names one is
imported already and one stands twice.
-/
theorem Edit.apply_arranges_imports_of_two_kinds
    : ∃ source names file edit front block back kept sorted,
        source
          = "<?php\ndeclare(ticks=1);\nuse B\\Two;\nuse A;\nuse function A;\nf();\n".toList
        ∧ names
          = [⟨["C".toList], .unqualified⟩, ⟨["B".toList, "Two".toList], .qualified⟩,
            ⟨["C".toList], .unqualified⟩]
        ∧ parse source = .ok file
        ∧ file.checkStructure = .ok ()
        ∧ Edit.start file source = .ok edit
        ∧ file.HasBlock front block back
        ∧ kept = (block.filter fun stmt => decide ¬stmt.ImportsClassAs ["a".toList])
        ∧ IsStableSort
            ((newNames (kept.flatMap Stmt.classNames) names).map Stmt.ofImport ++ kept) sorted
        ∧ (edit.apply names ["a".toList]).scope = front ++ sorted ++ back
        ∧ (names.foldl Edit.add (edit.remove ["a".toList])).imports.map Import.sortKey
          = [⟨1, "C".toList⟩, ⟨2, "B\\Two".toList⟩, ⟨1, "A".toList⟩] := by
  obtain ⟨file, edit, _, run, tested⟩ := Run.exists_of_reachesEdit
    "<?php\ndeclare(ticks=1);\nuse B\\Two;\nuse A;\nuse function A;\nf();\n".toList
    default default
    (fun file => (Edit.start file
      "<?php\ndeclare(ticks=1);\nuse B\\Two;\nuse A;\nuse function A;\nf();\n".toList).toOption.any
        fun (edit : Edit) => decide (([⟨["C".toList], .unqualified⟩,
            ⟨["B".toList, "Two".toList], .qualified⟩, ⟨["C".toList], .unqualified⟩].foldl Edit.add
            (edit.remove ["a".toList])).imports.map Import.sortKey
          = [⟨1, "C".toList⟩, ⟨2, "B\\Two".toList⟩, ⟨1, "A".toList⟩]))
    (by decide +kernel)
  simp only [run.started, Except.toOption, Option.any_some, decide_eq_true_eq] at tested
  have checked := (Edit.start_eq_ok run.started).1
  obtain ⟨edit', front, block, back, kept, sorted, started, hasBlock, stays, stable, scope_eq, _⟩ :=
    Edit.apply_arranges_imports
      "<?php\ndeclare(ticks=1);\nuse B\\Two;\nuse A;\nuse function A;\nf();\n".toList checked
      [⟨["C".toList], .unqualified⟩, ⟨["B".toList, "Two".toList], .qualified⟩,
        ⟨["C".toList], .unqualified⟩] ["a".toList]
  cases started.symm.trans run.started
  exact ⟨_, _, file, edit, front, block, back, kept, sorted, rfl, rfl, run.parsed, checked,
    run.started, hasBlock, stays, stable, scope_eq, tested⟩

end ImportHeader
