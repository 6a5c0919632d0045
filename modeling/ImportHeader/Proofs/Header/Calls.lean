import ImportHeader.Proofs.Fix.Plan
import Mathlib.Data.List.Infix
import Mathlib.Data.List.TakeWhile

/-! Calls on a file under edit, in any order. They keep the imports in one block at their place
as long as each addition finds no fewer imports than were added before it. The number of
additions never goes down, so imports that are added and removed again push later ones out of
the block.
-/

namespace ImportHeader

/-- A call on a file under edit. -/
inductive Call where
  | remove (aliases : List Text)
  | add (name : Name)
  | sort

namespace Edit

/-- What a call does. -/
def perform (edit : Edit) : Call → Edit
  | .remove aliases => edit.remove aliases
  | .add name => edit.add name
  | .sort => edit.sort

/-- What several calls do, one after the other. -/
def performAll (edit : Edit) (calls : List Call) : Edit :=
  calls.foldl perform edit

@[simp] theorem performAll_nil (edit : Edit) : edit.performAll [] = edit :=
  rfl

@[simp] theorem performAll_concat (edit : Edit) (calls : List Call) (call : Call)
    : edit.performAll (calls ++ [call]) = (edit.performAll calls).perform call := by
  simp [performAll]

theorem insertAt_add (edit : Edit) (name : Name) : (edit.add name).insertAt = edit.insertAt := by
  unfold add
  split <;> rfl

theorem inserted_add {edit : Edit} {name : Name} (absent : edit.isImported name = false)
    : (edit.add name).inserted = edit.inserted + 1 := by
  simp only [add, absent, Bool.false_eq_true, if_false]

theorem inserted_sort (edit : Edit) : edit.sort.inserted = edit.inserted := by
  unfold sort
  dsimp only
  split <;> rfl

theorem insertAt_sort (edit : Edit) : edit.sort.insertAt = edit.insertAt := by
  unfold sort
  dsimp only
  split <;> rfl

/-- No call moves the place of new imports. -/
theorem insertAt_performAll (edit : Edit) (calls : List Call)
    : (edit.performAll calls).insertAt = edit.insertAt := by
  induction calls using List.reverseRecOn with
  | nil => rfl
  | append_singleton done call ih =>
      rw [performAll_concat]
      cases call with
      | remove aliases => exact ih
      | add name => exact (insertAt_add _ name).trans ih
      | sort => exact (insertAt_sort _).trans ih

theorem performAll_append (edit : Edit) (first second : List Call)
    : edit.performAll (first ++ second) = (edit.performAll first).performAll second :=
  List.foldl_append

/-- The statements before the place of new imports that are no imports themselves. -/
def before (edit : Edit) : List Stmt :=
  (edit.scope.take edit.insertAt).filter fun stmt => !stmt.isImport

/-- The statements behind the place of new imports that are no imports themselves. -/
def behind (edit : Edit) : List Stmt :=
  (edit.scope.drop edit.insertAt).filter fun stmt => !stmt.isImport

/-- The imports of an edit stand in one block between given statements. -/
def InPlace (front back : List Stmt) (edit : Edit) : Prop :=
  ∃ block, (∀ stmt ∈ block, stmt.isImport = true) ∧ edit.scope = front ++ block ++ back

end Edit

-----------------------------------------------------------------------------------------
-- The block in place
-----------------------------------------------------------------------------------------

/-- Statements without an import among them. -/
def NoImport (stmts : List Stmt) : Prop :=
  ∀ stmt ∈ stmts, stmt.isImport = false

theorem NoImport.filter_isImport {stmts : List Stmt} (none : NoImport stmts)
    : stmts.filter Stmt.isImport = [] :=
  List.filter_eq_nil_iff.mpr fun stmt member => Bool.eq_false_iff.mp (none stmt member)

theorem NoImport.filter_not {stmts : List Stmt} (none : NoImport stmts)
    : (stmts.filter fun stmt => !stmt.isImport) = stmts :=
  List.filter_eq_self.mpr fun stmt member => by rw [none stmt member]; rfl

theorem NoImport.declarations {stmts : List Stmt} (none : NoImport stmts)
    : stmts.filterMap Stmt.declaration? = [] :=
  List.filterMap_eq_nil_iff.mpr fun stmt member => by
    simpa [Stmt.isImport] using none stmt member

/-- Only imports are removed. -/
theorem NoImport.filter_kept {stmts : List Stmt} (none : NoImport stmts) (aliases : List Text)
    : (stmts.filter fun stmt => (stmt.importUnder? aliases).isNone) = stmts := by
  refine List.filter_eq_self.mpr fun stmt member => ?_
  have absent : stmt.declaration? = Option.none := by
    simpa [Stmt.isImport] using none stmt member
  simp [Stmt.importUnder?, absent]

/-- A scope with one block of imports, and the place of the block. -/
structure Edit.Framed (front back : List Stmt) (edit : Edit) (block : List Stmt) : Prop where
  front_plain : NoImport front
  back_plain : NoImport back
  imports : ∀ stmt ∈ block, stmt.isImport = true
  scope_eq : edit.scope = front ++ block ++ back
  place : edit.insertAt = front.length

namespace Edit.Framed

variable {front back block : List Stmt} {edit : Edit}

theorem inPlace (framed : edit.Framed front back block) : edit.InPlace front back :=
  ⟨block, framed.imports, framed.scope_eq⟩

theorem length_scope (framed : edit.Framed front back block)
    : edit.scope.length = front.length + block.length + back.length := by
  rw [framed.scope_eq, List.length_append, List.length_append]

/-- The imports of a framed scope are those of its block. -/
theorem length_imports (framed : edit.Framed front back block)
    : edit.imports.length = block.length := by
  rw [Edit.imports_eq, framed.scope_eq, List.filterMap_append, List.filterMap_append,
    framed.front_plain.declarations, framed.back_plain.declarations, List.nil_append,
    List.append_nil]
  exact List.filterMap_length_eq_length.mpr framed.imports

theorem filter_isImport (framed : edit.Framed front back block)
    : edit.scope.filter Stmt.isImport = block := by
  rw [framed.scope_eq, List.filter_append, List.filter_append, framed.front_plain.filter_isImport,
    framed.back_plain.filter_isImport, List.filter_eq_self.mpr framed.imports, List.nil_append,
    List.append_nil]

theorem filter_not_block (framed : edit.Framed front back block)
    : (block.filter fun stmt => !stmt.isImport) = [] :=
  List.filter_eq_nil_iff.mpr fun stmt member => by simp [framed.imports stmt member]

theorem filter_not (framed : edit.Framed front back block)
    : (edit.scope.filter fun stmt => !stmt.isImport) = front ++ back := by
  rw [framed.scope_eq, List.filter_append, List.filter_append, framed.front_plain.filter_not,
    framed.back_plain.filter_not, framed.filter_not_block, List.append_nil]

theorem before_eq (framed : edit.Framed front back block) : edit.before = front := by
  rw [before, framed.scope_eq, framed.place, List.append_assoc, List.take_left,
    framed.front_plain.filter_not]

theorem behind_eq (framed : edit.Framed front back block) : edit.behind = back := by
  rw [behind, framed.scope_eq, framed.place, List.append_assoc, List.drop_left,
    List.filter_append, framed.filter_not_block, framed.back_plain.filter_not, List.nil_append]

/-- The first import is where the block starts. -/
theorem firstImport? (framed : edit.Framed front back block) (some : block ≠ [])
    : SourceFile.firstImport? edit.scope = .some front.length := by
  obtain ⟨head, rest, rfl⟩ := List.exists_cons_of_ne_nil some
  have absent : front.findIdx? Stmt.isImport = none :=
    List.findIdx?_eq_none_iff.mpr framed.front_plain
  rw [framed.scope_eq, List.append_assoc, SourceFile.firstImport?, List.findIdx?_append, absent]
  simp [List.findIdx?_cons, framed.imports head (.head _)]

/-- Removal takes imports out of the block only. -/
theorem remove (framed : edit.Framed front back block) (aliases : List Text)
    : (edit.remove aliases).Framed front back
        (block.filter fun stmt => (stmt.importUnder? aliases).isNone) where
  front_plain := framed.front_plain
  back_plain := framed.back_plain
  imports stmt member := framed.imports stmt (List.mem_filter.mp member).1
  scope_eq := by
    rw [Edit.scope_remove, framed.scope_eq, List.filter_append, List.filter_append,
      framed.front_plain.filter_kept, framed.back_plain.filter_kept]
  place := framed.place

/-- Sorting puts the block in order where it stands. -/
theorem mergeSort (framed : edit.Framed front back block)
    : edit.sort.Framed front back
        (block.mergeSort fun left right => left.sortKey.le right.sortKey) where
  front_plain := framed.front_plain
  back_plain := framed.back_plain
  imports stmt member := framed.imports stmt (List.mem_mergeSort.mp member)
  scope_eq := by
    by_cases filled : block = []
    · subst filled
      have none : SourceFile.firstImport? edit.scope = Option.none := by
        refine List.findIdx?_eq_none_iff.mpr fun stmt member => ?_
        simp only [framed.scope_eq, List.append_nil, List.mem_append] at member
        exact member.elim (framed.front_plain stmt) (framed.back_plain stmt)
      rw [Edit.scope_sort_of_none none, framed.scope_eq, List.mergeSort_nil]
    · rw [Edit.scope_sort_of_some (framed.firstImport? filled), framed.filter_not,
        framed.filter_isImport, List.take_left, List.drop_left]
  place := edit.insertAt_sort.trans framed.place

/-- Sorting rearranges the block where it stands. -/
theorem sort (framed : edit.Framed front back block)
    : ∃ sorted, sorted.Perm block ∧ edit.sort.Framed front back sorted :=
  ⟨_, List.mergeSort_perm block _, framed.mergeSort⟩

/-- An import that goes no further than the end of the block goes into the block, behind those
that were added before.
-/
theorem insert (framed : edit.Framed front back block) {name : Name}
    (absent : edit.isImported name = false)
    (inside : edit.inserted ≤ block.length ∨ back = [])
    : (edit.add name).Framed front back
        (block.take edit.inserted ++ Stmt.ofImport name :: block.drop edit.inserted) where
  front_plain := framed.front_plain
  back_plain := framed.back_plain
  imports stmt member := by
    rcases List.mem_append.mp member with early | late
    · exact framed.imports stmt (List.mem_of_mem_take early)
    · rcases List.mem_cons.mp late with rfl | later
      · rfl
      · exact framed.imports stmt (List.mem_of_mem_drop later)
  scope_eq := by
    have place : min (edit.insertAt + edit.inserted) edit.scope.length
        = front.length + min edit.inserted block.length := by
      rw [framed.place, framed.length_scope]
      rcases inside with within | rfl
      · omega
      · rw [List.length_nil]
        omega
    have reach : min edit.inserted block.length ≤ block.length := Nat.min_le_right ..
    have taken : block.take (min edit.inserted block.length) = block.take edit.inserted :=
      List.take_eq_take_iff.mpr (by omega)
    have dropped : block.drop (min edit.inserted block.length) = block.drop edit.inserted :=
      List.drop_eq_drop_iff.mpr (by omega)
    rw [Edit.scope_add absent, place, framed.scope_eq, List.append_assoc,
      List.take_length_add_append, List.drop_length_add_append, List.take_append_of_le_length reach,
      List.drop_append_of_le_length reach, taken, dropped]
    simp
  place := (insertAt_add edit name).trans framed.place

/-- An import that goes no further than the end of the block makes it one longer. -/
theorem add (framed : edit.Framed front back block) {name : Name}
    (absent : edit.isImported name = false)
    (inside : edit.inserted ≤ block.length ∨ back = [])
    : ∃ wider, wider.length = block.length + 1 ∧ (edit.add name).Framed front back wider := by
  refine ⟨_, ?_, framed.insert absent inside⟩
  simp only [List.length_append, List.length_cons, List.length_take, List.length_drop]
  omega

/-- An import that goes further than the end of the block stands behind another statement. -/
theorem not_inPlace_add (framed : edit.Framed front back block) {name : Name}
    (absent : edit.isImported name = false) (outside : block.length < edit.inserted)
    (filled : back ≠ [])
    : ¬ (edit.add name).InPlace front back := by
  rintro ⟨wider, imports, scope_eq⟩
  obtain ⟨next, rest, rfl⟩ := List.exists_cons_of_ne_nil filled
  -- The statement right behind the block is the same before and after the addition.
  have before : edit.scope[front.length + block.length]? = some next := by
    rw [framed.scope_eq, ← List.length_append, List.getElem?_append_right (Nat.le_refl _)]
    simp
  have longer : wider.length = block.length + 1 := by
    have lengths := (Edit.scope_add_perm absent).length_eq
    rw [scope_eq, List.length_cons, framed.length_scope, List.length_append,
      List.length_append] at lengths
    omega
  have bound : front.length + block.length
      < min (edit.insertAt + edit.inserted) edit.scope.length := by
    rw [framed.place, framed.length_scope, List.length_cons]
    omega
  have after : (edit.add name).scope[front.length + block.length]? = some next := by
    rw [Edit.scope_add absent, List.getElem?_append_left (by rw [List.length_take]; omega),
      List.getElem?_take_of_lt bound, before]
  have member : next ∈ wider := by
    rw [scope_eq, List.getElem?_append_left (by rw [List.length_append]; omega),
      List.getElem?_append_right (Nat.le_add_right ..)] at after
    exact List.mem_of_getElem? after
  have plain := framed.back_plain next (.head _)
  rw [imports next member] at plain
  cases plain

end Edit.Framed

-----------------------------------------------------------------------------------------
-- The start
-----------------------------------------------------------------------------------------

/-- A file that passes the check has no import behind the first run of them. -/
theorem SourceFile.strayImport?_eq_none {file : SourceFile}
    (checked : file.checkStructure = .ok ())
    : SourceFile.strayImport? file.importScope = none := by
  have contiguous : file.checkContiguous = .ok () := by
    unfold SourceFile.checkStructure at checked
    split at checked
    · cases checked
    · split at checked
      · exact checked
      · cases checked
    · exact checked
  unfold SourceFile.checkContiguous at contiguous
  split at contiguous
  · cases contiguous
  · assumption

/-- The top of the scope lies in it. -/
theorem SourceFile.scopeTop_le (file : SourceFile) : file.scopeTop ≤ file.importScope.length := by
  unfold SourceFile.scopeTop SourceFile.importScope
  cases file.firstNamespace? with
  | some space => exact Nat.zero_le _
  | none => exact (List.takeWhile_prefix _).length_le

/-- An edit starts with its imports in one block at the place of new ones. -/
theorem Edit.framed_of_start {file : SourceFile} {source : Text} {edit : Edit}
    (started : Edit.start file source = .ok edit)
    : ∃ block, edit.Framed edit.before edit.behind block := by
  obtain ⟨checked, same, _, _, place, _⟩ := Edit.start_eq_ok started
  subst same
  suffices framed : ∃ front back block, edit.Framed front back block by
    obtain ⟨front, back, block, framed⟩ := framed
    exact ⟨block, by rwa [framed.before_eq, framed.behind_eq]⟩
  cases found : SourceFile.firstImport? edit.scope with
  | none =>
      have plain : NoImport edit.scope := List.findIdx?_eq_none_iff.mp found
      have top : edit.insertAt = edit.file.scopeTop :=
        place.trans (congrArg (Option.getD · _) found)
      refine ⟨edit.scope.take edit.insertAt, edit.scope.drop edit.insertAt, [],
        fun stmt member => plain stmt (List.mem_of_mem_take member),
        fun stmt member => plain stmt (List.mem_of_mem_drop member), by simp, by simp, ?_⟩
      have fits : edit.insertAt ≤ edit.scope.length := top ▸ edit.file.scopeTop_le
      rw [List.length_take, Nat.min_eq_left fits]
  | some first =>
      obtain ⟨fits, index⟩ := List.findIdx?_eq_some_iff_findIdx_eq.mp found
      have early : (edit.scope.takeWhile fun stmt => !stmt.isImport).length = edit.insertAt := by
        simp only [List.takeWhile_eq_take_findIdx_not, Bool.not_not, index, List.length_take]
        rw [place.trans (congrArg (Option.getD · _) found), Option.getD_some]
        omega
      let later := edit.scope.dropWhile fun stmt => !stmt.isImport
      refine ⟨edit.scope.takeWhile fun stmt => !stmt.isImport, later.dropWhile Stmt.isImport,
        later.takeWhile Stmt.isImport, fun stmt member => ?_, fun stmt member => ?_,
        fun stmt member => List.mem_takeWhile_imp member, ?_, early.symm⟩
      · simpa using List.mem_takeWhile_imp member
      · have stray := SourceFile.strayImport?_eq_none checked
        simpa using List.find?_eq_none.mp stray stmt member
      · rw [List.append_assoc, List.takeWhile_append_dropWhile, List.takeWhile_append_dropWhile]

-----------------------------------------------------------------------------------------
-- Sequences of calls
-----------------------------------------------------------------------------------------

/-- Whether a call leaves the imports in one block: the name to add is imported already, or as
many imports are there as were added, or no statement follows the block.
-/
def Edit.Admits (edit : Edit) (back : List Stmt) : Call → Prop
  | .remove _ => True
  | .add name =>
      edit.isImported name = true ∨ edit.inserted ≤ edit.imports.length ∨ back = []
  | .sort => True

instance (edit : Edit) (back : List Stmt) : (call : Call) → Decidable (edit.Admits back call)
  | .remove _ => .isTrue trivial
  | .add name =>
      inferInstanceAs
        (Decidable
          (edit.isImported name = true ∨ edit.inserted ≤ edit.imports.length ∨ back = []))
  | .sort => .isTrue trivial

namespace Edit.Framed

variable {front back block : List Stmt} {edit : Edit}

/-- One call keeps the frame exactly if the edit admits it. -/
theorem perform_iff (framed : edit.Framed front back block) (call : Call)
    : (∃ next, (edit.perform call).Framed front back next) ↔ edit.Admits back call := by
  cases call with
  | remove aliases => exact ⟨fun _ => trivial, fun _ => ⟨_, framed.remove aliases⟩⟩
  | sort =>
      obtain ⟨sorted, _, kept⟩ := framed.sort
      exact ⟨fun _ => trivial, fun _ => ⟨sorted, kept⟩⟩
  | add name =>
      simp only [Admits, framed.length_imports, perform]
      cases absent : edit.isImported name with
      | true =>
          rw [Edit.add_of_imported absent]
          exact ⟨fun _ => .inl rfl, fun _ => ⟨block, framed⟩⟩
      | false =>
          refine ⟨fun ⟨next, kept⟩ => .inr ?_, fun admits => ?_⟩
          · by_contra outside
            obtain ⟨further, filled⟩ := not_or.mp outside
            exact framed.not_inPlace_add absent (Nat.lt_of_not_le further) filled kept.inPlace
          · obtain ⟨wider, _, kept⟩ := framed.add absent (admits.resolve_left Bool.false_ne_true)
            exact ⟨wider, kept⟩

/-- Calls that the edit admits one after the other keep the frame. -/
theorem performAll (framed : edit.Framed front back block) {calls : List Call}
    (admitted : ∀ done call, done ++ [call] <+: calls → (edit.performAll done).Admits back call)
    : ∃ last, (edit.performAll calls).Framed front back last := by
  induction calls using List.reverseRecOn with
  | nil => exact ⟨block, framed⟩
  | append_singleton done call ih =>
      obtain ⟨current, kept⟩ := ih fun early next earlier =>
        admitted early next (earlier.trans (List.prefix_append ..))
      rw [performAll_concat]
      exact (kept.perform_iff call).mpr (admitted done call (List.prefix_refl _))

/-- An edit whose imports are in place after some calls is framed as at its start. -/
theorem of_inPlace (framed : edit.Framed front back block) {calls : List Call}
    (kept : (edit.performAll calls).InPlace front back)
    : ∃ last, (edit.performAll calls).Framed front back last := by
  obtain ⟨last, imports, scope_eq⟩ := kept
  exact ⟨last, framed.front_plain, framed.back_plain, imports, scope_eq,
    (edit.insertAt_performAll calls).trans framed.place⟩

/-- Without additions the frame is kept, and nothing counts as added. -/
theorem performAll_removals (framed : edit.Framed front back block) {calls : List Call}
    (removals : ∀ name, .add name ∉ calls)
    : ∃ last,
        (edit.performAll calls).Framed front back last
        ∧ (edit.performAll calls).inserted = edit.inserted := by
  induction calls using List.reverseRecOn with
  | nil => exact ⟨block, framed, rfl⟩
  | append_singleton done call ih =>
      obtain ⟨current, kept, counted⟩ := ih fun name listed =>
        removals name (List.mem_append_left _ listed)
      rw [performAll_concat]
      cases call with
      | remove aliases => exact ⟨_, kept.remove aliases, counted⟩
      | sort =>
          obtain ⟨sorted, _, framed'⟩ := kept.sort
          exact ⟨sorted, framed', (inserted_sort _).trans counted⟩
      | add name => exact absurd (List.mem_append_right _ (.head _)) (removals name)

/-- Without removals every import that counts as added is still there, so the next one goes
into the block.
-/
theorem performAll_additions (framed : edit.Framed front back block) {calls : List Call}
    (additions : ∀ aliases, .remove aliases ∉ calls) (counted : edit.inserted ≤ block.length)
    : ∃ last,
        (edit.performAll calls).Framed front back last
        ∧ (edit.performAll calls).inserted ≤ last.length := by
  induction calls using List.reverseRecOn with
  | nil => exact ⟨block, framed, counted⟩
  | append_singleton done call ih =>
      obtain ⟨current, kept, counted⟩ := ih fun aliases listed =>
        additions aliases (List.mem_append_left _ listed)
      rw [performAll_concat]
      cases call with
      | remove aliases => exact absurd (List.mem_append_right _ (.head _)) (additions aliases)
      | sort =>
          obtain ⟨sorted, same, framed'⟩ := kept.sort
          exact ⟨sorted, framed', by rw [same.length_eq]; exact (inserted_sort _).trans_le counted⟩
      | add name =>
          cases absent : (edit.performAll done).isImported name with
          | true =>
              rw [perform, Edit.add_of_imported absent]
              exact ⟨current, kept, counted⟩
          | false =>
              obtain ⟨wider, longer, framed'⟩ := kept.add absent (.inl counted)
              refine ⟨wider, framed', ?_⟩
              rw [longer, perform, inserted_add absent]
              exact Nat.succ_le_succ counted

end Edit.Framed

/-- An edit that has added a name and removed it again does not admit another addition. -/
theorem Edit.exists_not_admits
    : ∃ file edit,
        parse "<?php\nf();\ng();\n".toList = .ok file
        ∧ Edit.start file "<?php\nf();\ng();\n".toList = .ok edit
        ∧ ¬ (edit.performAll [.add ⟨["A".toList], .unqualified⟩, .remove ["A".toList]]).Admits
            edit.behind (.add ⟨["B".toList], .unqualified⟩) := by
  obtain ⟨file, edit, _, run, tested⟩ :=
    Run.exists_of_reachesEdit "<?php\nf();\ng();\n".toList default default
      (fun file => (Edit.start file "<?php\nf();\ng();\n".toList).toOption.any
        fun (edit : Edit) =>
          !decide ((edit.performAll [.add ⟨["A".toList], .unqualified⟩,
            .remove ["A".toList]]).Admits edit.behind (.add ⟨["B".toList], .unqualified⟩)))
      (by decide +kernel)
  simp only [run.started, Except.toOption, Option.any_some, Bool.not_eq_true',
    decide_eq_false_iff_not] at tested
  exact ⟨file, edit, run.parsed, run.started, tested⟩

/-- Calls keep the imports in one block between the statements that stood around their place,
each at its turn, exactly if each addition of a new name finds at least as many imports as
were added before it, or nothing behind the block. Calls that remove before they add always
do.
-/
theorem Edit.calls_keep_block {file : SourceFile} {source : Text} {edit : Edit}
    (started : Edit.start file source = .ok edit) (calls : List Call)
    : ((∀ done, done <+: calls → (edit.performAll done).InPlace edit.before edit.behind)
        ↔ ∀ done call,
            done ++ [call] <+: calls → (edit.performAll done).Admits edit.behind call)
      ∧ ∀ removals additions,
          (∀ name, .add name ∉ removals)
          → (∀ aliases, .remove aliases ∉ additions)
          → (edit.performAll (removals ++ additions)).InPlace edit.before edit.behind := by
  obtain ⟨block, framed⟩ := Edit.framed_of_start started
  refine ⟨⟨fun kept done call early => ?_, fun admitted done early => ?_⟩, ?_⟩
  · obtain ⟨current, framed'⟩ :=
      framed.of_inPlace (kept done ((List.prefix_append ..).trans early))
    have next := framed.of_inPlace (kept _ early)
    rw [performAll_concat] at next
    exact (framed'.perform_iff call).mp next
  · obtain ⟨last, framed'⟩ := framed.performAll fun before call earlier =>
      admitted before call (earlier.trans early)
    exact framed'.inPlace
  · intro removals additions noAdd noRemove
    obtain ⟨current, framed', counted⟩ := framed.performAll_removals noAdd
    obtain ⟨_, _, _, _, _, fresh, _⟩ := Edit.start_eq_ok started
    obtain ⟨last, framed'', _⟩ :=
      framed'.performAll_additions noRemove (by rw [counted, fresh]; exact Nat.zero_le _)
    rw [performAll_append]
    exact framed''.inPlace

/-- An addition, a removal and an addition do not keep the block in place. The same calls with the
removal first do.
-/
theorem Edit.calls_keep_block_of_two_additions
    : ∃ source file edit,
        source = "<?php\nf();\ng();\n".toList
        ∧ Edit.start file source = .ok edit
        ∧ ¬ (∀ done,
              done <+: [.add ⟨["A".toList], .unqualified⟩, .remove ["A".toList],
                .add ⟨["B".toList], .unqualified⟩]
              → (edit.performAll done).InPlace edit.before edit.behind)
        ∧ (edit.performAll [.remove ["A".toList], .add ⟨["A".toList], .unqualified⟩,
            .add ⟨["B".toList], .unqualified⟩]).InPlace edit.before edit.behind := by
  obtain ⟨file, edit, _, started, refused⟩ := Edit.exists_not_admits
  refine ⟨_, file, edit, rfl, started, fun kept => refused ?_, ?_⟩
  · exact (Edit.calls_keep_block started _).1.mp kept _ _ (List.prefix_refl _)
  · exact (Edit.calls_keep_block started []).2 [.remove ["A".toList]] _ (by simp) (by simp)

/-- A name that is added and removed again pushes the next one behind a statement of the body. -/
theorem Edit.readdition_leaves_block
    : ∃ source file edit,
        source = "<?php\nf();\ng();\n".toList
        ∧ parse source = .ok file
        ∧ Edit.start file source = .ok edit
        ∧ ¬ (edit.performAll [.add ⟨["A".toList], .unqualified⟩, .remove ["A".toList],
            .add ⟨["B".toList], .unqualified⟩]).InPlace edit.before edit.behind := by
  obtain ⟨file, edit, parsed, started, refused⟩ := Edit.exists_not_admits
  obtain ⟨block, framed⟩ := Edit.framed_of_start started
  refine ⟨_, file, edit, rfl, parsed, started, fun kept => refused ?_⟩
  obtain ⟨_, _, _, _, _, fresh, _⟩ := Edit.start_eq_ok started
  have noRemove : ∀ aliases, Call.remove aliases ∉ [Call.add ⟨["A".toList], .unqualified⟩] := by
    simp
  obtain ⟨wider, added, _⟩ :=
    framed.performAll_additions noRemove (fresh ▸ Nat.zero_le block.length)
  exact ((added.remove ["A".toList]).perform_iff _).mp (framed.of_inPlace kept)

end ImportHeader
