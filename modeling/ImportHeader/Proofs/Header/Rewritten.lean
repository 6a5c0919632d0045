import ImportHeader.Proofs.Header.Contents
import ImportHeader.Proofs.Header.Others
import ImportHeader.Proofs.Header.Staging

/-! Files that were read from the text of an edited file. Such a file holds what the source holds
besides its imports, its imports are those of the edit, and its header can be edited again.
-/

namespace ImportHeader

open ImportHeader.Lexer ImportHeader.Parser

/-- A file that holds what another one holds, but with the given imports. -/
structure Rewritten (file : SourceFile) (declarations : List Import) (again : SourceFile) : Prop where
  entries_eq : again.entries = file.entries
  facts_eq : again.facts = file.facts
  segments_eq : again.spaceSegments? = file.spaceSegments?
  imports_eq : again.imports.map Import.unplaced = declarations.map Import.reread
  outer_eq : again.outerImports.map Import.unplaced = file.outerImports.map Import.unplaced
  checked : again.checkStructure = .ok ()

namespace Rewritten

variable {file again : SourceFile} {declarations : List Import}

/-- The imports are printed as those that are given. -/
theorem print_eq (rewritten : Rewritten file declarations again)
    : again.imports.map Import.print = declarations.map Import.print := by
  calc again.imports.map Import.print
    _ = (again.imports.map Import.unplaced).map Import.print := by
      rw [List.map_map]
      exact (List.map_congr_left fun declaration _ => declaration.print_unplaced).symm
    _ = (declarations.map Import.reread).map Import.print := by
      rw [rewritten.imports_eq]
    _ = declarations.map Import.print := by
      rw [List.map_map]
      exact List.map_congr_left fun declaration _ => declaration.print_reread

theorem map_bindings_unplaced (declarations : List Import)
    : declarations.map Import.bindings
      = (declarations.map Import.unplaced).map Import.bindings := by
  rw [List.map_map]
  exact (List.map_congr_left fun declaration _ => declaration.bindings_unplaced).symm

/-- The imports bind what those bind that are given. -/
theorem bindings_eq (rewritten : Rewritten file declarations again)
    : again.imports.map Import.bindings = declarations.map Import.bindings := by
  calc again.imports.map Import.bindings
    _ = (again.imports.map Import.unplaced).map Import.bindings :=
      map_bindings_unplaced again.imports
    _ = (declarations.map Import.reread).map Import.bindings := by
      rw [rewritten.imports_eq]
    _ = declarations.map Import.bindings := by
      rw [List.map_map]
      exact List.map_congr_left fun declaration _ => declaration.bindings_reread

/-- The imports around the namespace bind what they did. -/
theorem outer_bindings_eq (rewritten : Rewritten file declarations again)
    : again.outerImports.map Import.bindings = file.outerImports.map Import.bindings := by
  rw [map_bindings_unplaced, rewritten.outer_eq, ← map_bindings_unplaced]

end Rewritten

/-- Imports in one run are contiguous. -/
theorem SourceFile.strayImport?_of_run {front block back : List Stmt} (plain : NoImport front)
    (imports : ∀ stmt ∈ block, stmt.isImport = true) (plain' : NoImport back)
    : SourceFile.strayImport? (front ++ (block ++ back)) = none := by
  have stays (stmts : List Stmt) (none : NoImport stmts) : ∀ stmt ∈ stmts, (!stmt.isImport) = true :=
    fun stmt listed => by rw [none stmt listed]; rfl
  unfold SourceFile.strayImport?
  dsimp only
  rw [List.dropWhile_append_of_pos (stays front plain)]
  cases block with
  | nil =>
      rw [List.nil_append, List.dropWhile_eq_nil_iff.mpr (stays back plain')]
      rfl
  | cons first block =>
      have starts : (first :: (block ++ back)).dropWhile (fun stmt => !stmt.isImport)
          = first :: block ++ back :=
        List.dropWhile_cons_of_neg (by simp [imports first List.mem_cons_self])
      rw [List.cons_append, starts, List.dropWhile_append_of_pos imports]
      refine List.find?_eq_none.mpr fun stmt listed => ?_
      rw [plain' stmt ((List.dropWhile_sublist _).subset listed)]
      exact Bool.false_ne_true

theorem Part.facts_append (left right : List Part)
    : Part.facts (left ++ right) = Part.facts left ++ Part.facts right :=
  List.flatMap_append

theorem Part.facts_map_bare (parts : List Part)
    : Part.facts (parts.map Part.bare) = Part.facts parts := by
  rw [Part.facts, List.flatMap_map]
  rfl

theorem Sheet.facts_bare (sheet : Sheet) : sheet.bare.facts = sheet.facts := by
  obtain ⟨frame?, inside⟩ := sheet
  cases frame? with
  | none => exact Part.facts_map_bare inside
  | some frame =>
      change Part.facts (frame.before.map Part.bare)
        ++ (Part.facts (inside.map Part.bare) ++ Part.facts (frame.after.map Part.bare)) = _
      rw [Part.facts_map_bare, Part.facts_map_bare, Part.facts_map_bare]
      rfl

theorem facts_redrawn {frame? : Option Frame} {front old back : List Part}
    (none : Part.facts old = []) (declarations : List Import)
    : (redrawn frame? front declarations back).facts
      = (⟨frame?, front ++ (old ++ back)⟩ : Sheet).facts := by
  have none' : Part.facts (declarations.map partOf) = [] := by
    rw [Part.facts, List.flatMap_map]
    exact List.flatMap_eq_nil_iff.mpr fun _ _ => rfl
  have inside : Part.facts (front ++ (declarations.map partOf ++ back))
      = Part.facts (front ++ (old ++ back)) := by
    rw [Part.facts_append, Part.facts_append, Part.facts_append, Part.facts_append, none, none']
  cases frame? with
  | none => exact inside
  | some frame =>
      change Part.facts frame.before
        ++ (Part.facts (front ++ (declarations.map partOf ++ back)) ++ Part.facts frame.after) = _
      rw [inside]
      rfl

namespace Staged

variable {source text markup tag code : Text} {file again : SourceFile} {edit : Edit}
  {frame? : Option Frame} {front old back : List Part} {declarations : List Import}
  {sheet : Sheet}

/-- The imports of a file that was read from a redrawn one are in one run. -/
theorem strayImport?_of_redrawn
    (staged : Staged source file edit markup tag code frame? front old back)
    (describes : Describes text sheet again.items)
    (bare : sheet.bare = (redrawn frame? front declarations back).bare)
    : SourceFile.strayImport? again.importScope = none := by
  obtain ⟨plain, plain'⟩ := staged.plain
  have same := congrArg Sheet.inside bare
  change sheet.inside.map Part.bare
    = (front ++ (declarations.map partOf ++ back)).map Part.bare at same
  rw [List.map_append, List.map_append] at same
  obtain ⟨front', later, cut, sameFront, same⟩ := List.map_eq_append_iff.mp same
  obtain ⟨middle, back', rfl, sameMiddle, sameBack⟩ := List.map_eq_append_iff.mp same
  have pairs := describes.scope
  rw [cut] at pairs
  obtain ⟨stmts, rest, scope, first, pairs⟩ := Pairing.split pairs
  obtain ⟨block, stmts', rfl, second, third⟩ := Pairing.split pairs
  rw [scope]
  refine SourceFile.strayImport?_of_run
    (noImport_of_parts first (Part.forall_of_bare (·.2.1.isSome = false) sameFront plain))
    (fun stmt listed => ?_)
    (noImport_of_parts third (Part.forall_of_bare (·.2.1.isSome = false) sameBack plain'))
  obtain ⟨part, inside, isPart⟩ := Pairing.exists_left second listed
  exact (isImport_of_isPart isPart).trans (Part.forall_of_bare (·.2.1.isSome = true) sameMiddle
    (imports_map_partOf declarations) part inside)

/-- A file that was read from the redrawn blocks of a source is the file of that source with other
imports.
-/
theorem rewritten (staged : Staged source file edit markup tag code frame? front old back)
    (started : Edit.start file source = .ok edit) (describes : Describes text sheet again.items)
    (bare : sheet.bare = (redrawn frame? front declarations back).bare)
    : Rewritten file declarations again := by
  have before := staged.drawn.describes
  obtain ⟨plain, plain'⟩ := staged.plain
  have frames := congrArg Sheet.frame? bare
  change sheet.frame?.map Frame.bare = (frame?.map Frame.redrawn).map Frame.bare at frames
  refine ⟨?_, ?_, ?_, imports_of_redrawn describes bare plain plain', ?_, ?_⟩
  · rw [describes.entries_eq, ← Sheet.entries_bare, bare, Sheet.entries_bare]
    exact (entries_redrawn staged.imports declarations).trans before.entries_eq.symm
  · obtain ⟨block, isOld, framed⟩ := staged.isOld
    rw [describes.facts_eq, ← Sheet.facts_bare, bare, Sheet.facts_bare]
    exact (facts_redrawn (facts_of_imports isOld framed.imports) declarations).trans
      before.facts_eq.symm
  · rw [describes.spaceSegments?_eq, before.spaceSegments?_eq]
    cases frame? with
    | none => rw [Option.map_eq_none_iff.mp frames]
    | some frame =>
        obtain ⟨frame', here, same⟩ := Option.map_eq_some_iff.mp frames
        have name := congrArg Frame.name? same
        change frame'.name? = frame.redrawn.name? at name
        rw [here, Option.bind_some, name, frame.segments_redrawn]
        rfl
  · rw [describes.outerImports_eq, ← Sheet.outerImports_bare, bare, Sheet.outerImports_bare,
      before.outerImports_eq]
    exact outerImports_redrawn frame? front old back declarations
  · refine describes.checkStructure_iff.mpr ⟨fun frame here => ?_,
      staged.strayImport?_of_redrawn describes bare⟩
    obtain ⟨checked, _⟩ := Edit.start_eq_ok started
    have directives := (before.checkStructure_iff.mp checked).1
    rw [Option.mem_def.mp here, Option.map_some] at frames
    obtain ⟨frame', found, same⟩ := Option.map_eq_some_iff.mp frames.symm
    obtain ⟨origin, given, rfl⟩ := Option.map_eq_some_iff.mp found
    exact Part.forall_of_bare (·.1 = true) (congrArg Frame.before same).symm
      (directives origin given)

end Staged

end ImportHeader
