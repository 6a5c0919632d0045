import ImportHeader.Proofs.Header.Behind
import ImportHeader.Proofs.Header.Ending
import ImportHeader.Proofs.Header.Others
import ImportHeader.Proofs.Header.Redrawing
import ImportHeader.Proofs.Parser.Closing
import ImportHeader.Proofs.Parser.Spelling

/-! A source under edit as blocks: those before the imports, the imports, and those behind them. -/

namespace ImportHeader

open ImportHeader.Lexer ImportHeader.Parser

/-- The blocks of a source under edit, cut where the imports stand or would stand. -/
structure Parted (source : Text) (file : SourceFile) (edit : Edit) (markup tag code : Text)
    (frame? : Option Frame) (front old back : List Part) : Prop where
  coded : Coded source markup tag code
  lays : Lays code (⟨frame?, front ++ (old ++ back)⟩ : Sheet).blocks
  describes : Describes source ⟨frame?, front ++ (old ++ back)⟩ file.items
  tagged : ∃ comment?, file.openTag? = some ⟨tag, ⟨markup.size, (markup ++ tag).size⟩, comment?⟩
  lines : file.lines = LineIndex.ofText source
  readable : Readable ⟨frame?, front ++ (old ++ back)⟩
  starts
    : ∀ frame ∈ frame?,
        StartsSpace frame.opening.pieces ∧ (frame.braced = true ∨ frame.name?.isSome = true)
  isFront : List.Forall₂ (IsPart source) front edit.before
  isOld : ∃ block, List.Forall₂ (IsPart source) old block
      ∧ edit.Framed edit.before edit.behind block
  isBack : List.Forall₂ (IsPart source) back edit.behind

theorem Parted.drawn {source : Text} {file : SourceFile} {edit : Edit} {markup tag code : Text}
    {frame? : Option Frame} {front old back : List Part}
    (parted : Parted source file edit markup tag code frame? front old back)
    : Drawn source markup tag code ⟨frame?, front ++ (old ++ back)⟩ file :=
  ⟨parted.coded, parted.lays, parted.describes, parted.tagged, parted.lines⟩

/-- A source is cut into blocks when an edit of it starts. -/
theorem exists_parted {source : Text} {file : SourceFile} {edit : Edit} {opening : OpenTag}
    (parsed : parse source = .ok file) (tagged : file.openTag? = some opening)
    (started : Edit.start file source = .ok edit)
    : ∃ code frame? front old back,
        Parted source file edit (file.markup?.getD []) opening.text code frame? front old back := by
  obtain ⟨checked, sameFile, _⟩ := Edit.start_eq_ok started
  obtain ⟨markup, sheet, code, coded, rfl, placed, lays, readable, describes, starts⟩ :=
    exists_sheet_of_parse parsed tagged (SourceFile.shape_of_checkStructure checked)
  obtain ⟨_, _, _, _, _, _, _, lines⟩ := coded.parse_eq_ok_iff.mp parsed
  obtain ⟨block, framed⟩ := Edit.framed_of_start started
  obtain ⟨frame?, inside⟩ := sheet
  have pairs := describes.scope
  have scope : file.importScope = edit.before ++ (block ++ edit.behind) := by
    rw [← List.append_assoc, ← framed.scope_eq, Edit.scope, sameFile]
  rw [scope] at pairs
  obtain ⟨front, rest, rfl, isFront, pairs⟩ := Pairing.split_right pairs
  obtain ⟨old, back, rfl, isOld, isBack⟩ := Pairing.split_right pairs
  refine ⟨code, frame?, front, old, back, coded, lays, describes, ⟨opening.comment?, ?_⟩, lines,
    readable, starts, isFront, ⟨block, isOld, framed⟩, isBack⟩
  rw [tagged, ← placed]

/-- The blocks of a source under edit before its imports are in its header. -/
theorem Sheet.mem_head {frame? : Option Frame} {front old : List Part} {part : Part}
    (listed : part ∈ frame?.elim [] Frame.before ++ front)
    : part.block ∈ Sheet.head frame? (front ++ old) := by
  rcases List.mem_append.mp listed with here | here
  · cases frame? with
    | none => cases here
    | some frame => exact List.mem_append_left _ (List.mem_append_left _ (List.mem_map_of_mem here))
  · exact List.mem_append_right _ (List.mem_map_of_mem (List.mem_append_left _ here))

/-- No block of a source under edit ends between a close tag and an open tag. -/
theorem Parted.apart {source : Text} {file : SourceFile} {edit : Edit} {markup tag code : Text}
    {frame? : Option Frame} {front old back : List Part}
    (parted : Parted source file edit markup tag code frame? front old back)
    : AreApart (⟨frame?, front ++ (old ++ back)⟩ : Sheet).blocks :=
  areApart_of_readable parted.readable fun frame here => (parted.starts frame here).1

/-- What stands before the place of imports in a file that has none: nothing in a namespace, and
else all directives at the start of the file.
-/
theorem Edit.top_of_start {source : Text} {file : SourceFile} {edit : Edit}
    (started : Edit.start file source = .ok edit)
    (framed : edit.Framed edit.before edit.behind [])
    : edit.preceding = 0
      ∧ (file.firstNamespace?.isSome = true → edit.before = [])
      ∧ (file.firstNamespace? = none
        → (∀ stmt ∈ edit.before, stmt.isDeclare = true)
          ∧ ∀ stmt ∈ edit.behind.head?, stmt.isDeclare = false) := by
  obtain ⟨_, rfl, _, _, place, _, preceding⟩ := Edit.start_eq_ok started
  have scope : edit.file.importScope = edit.before ++ edit.behind := by
    rw [← List.append_nil edit.before, ← framed.scope_eq, Edit.scope]
  have absent : SourceFile.firstImport? edit.file.importScope = none := by
    refine List.findIdx?_eq_none_iff.mpr ?_
    rw [scope]
    intro stmt listed
    rcases List.mem_append.mp listed with here | here
    · exact framed.front_plain stmt here
    · exact framed.back_plain stmt here
  rw [absent, Option.getD_none] at place preceding
  rw [framed.place] at place
  refine ⟨preceding, fun spaced => ?_, fun flat => ?_⟩
  · obtain ⟨space, first⟩ := Option.isSome_iff_exists.mp spaced
    rw [SourceFile.scopeTop, first] at place
    exact List.eq_nil_of_length_eq_zero place
  · have top : edit.before.length = (edit.file.importScope.takeWhile Stmt.isDeclare).length := by
      have all : edit.file.importScope = edit.file.items.filterMap Item.stmt? := by
        rw [SourceFile.importScope, flat]
      rw [place, SourceFile.scopeTop, flat, all]
    have cut := List.takeWhile_append_dropWhile (p := Stmt.isDeclare) (l := edit.file.importScope)
    rw [scope] at cut top
    obtain ⟨before, behind⟩ := List.append_inj cut.symm top
    refine ⟨fun stmt listed => ?_, fun stmt first => ?_⟩
    · rw [before] at listed
      exact List.mem_takeWhile_imp listed
    · have stops := List.head?_dropWhile_not Stmt.isDeclare (edit.before ++ edit.behind)
      rw [← behind, Option.mem_def.mp first] at stops
      simpa using stops

variable {source markup tag code : Text} {file : SourceFile} {edit : Edit}
  {frame? : Option Frame} {front old back : List Part}

namespace Parted

theorem plain (parted : Parted source file edit markup tag code frame? front old back)
    : NoImports front ∧ NoImports back := by
  obtain ⟨block, _, framed⟩ := parted.isOld
  exact ⟨noImports_of_parts parted.isFront framed.front_plain,
    noImports_of_parts parted.isBack framed.back_plain⟩

theorem imports (parted : Parted source file edit markup tag code frame? front old back)
    : ∀ part ∈ old, part.essence.2.1.isSome = true := by
  obtain ⟨block, isOld, framed⟩ := parted.isOld
  intro part listed
  obtain ⟨stmt, here, isPart⟩ := Pairing.exists_right isOld listed
  exact (isImport_of_isPart isPart).symm.trans (framed.imports stmt here)

theorem eq_nil_iff (parted : Parted source file edit markup tag code frame? front old back)
    : old = [] ↔ edit.imports = [] := by
  obtain ⟨block, isOld, framed⟩ := parted.isOld
  have length := framed.length_imports
  rw [← isOld.length_eq] at length
  rw [← List.length_eq_zero_iff, ← List.length_eq_zero_iff, length]

/-- Directives are read as such. -/
theorem isDeclare_iff (parted : Parted source file edit markup tag code frame? front old back)
    : (∀ part ∈ front, part.essence.1 = true) ↔ ∀ stmt ∈ edit.before, stmt.isDeclare = true := by
  constructor
  · intro all stmt listed
    obtain ⟨part, here, isPart⟩ := Pairing.exists_left parted.isFront listed
    exact (isDeclare_of_isPart isPart).trans (all part here)
  · intro all part listed
    obtain ⟨stmt, here, isPart⟩ := Pairing.exists_right parted.isFront listed
    exact (isDeclare_of_isPart isPart).symm.trans (all stmt here)

theorem firstNamespace?_eq_none
    (parted : Parted source file edit markup tag code frame? front old back) (flat : frame? = none)
    : file.firstNamespace? = none :=
  (parted.describes.flat_eq flat).1

/-- The parts behind the place of imports start with no directive if the statements do not. -/
theorem endsTop (parted : Parted source file edit markup tag code frame? front old back)
    {middle : List Part}
    (ends : file.firstNamespace? = none → middle = []
      → (∀ stmt ∈ edit.before, stmt.isDeclare = true)
      → ∀ stmt ∈ edit.behind.head?, stmt.isDeclare = false)
    : EndsTop frame? front middle back := by
  intro flat none all part first
  have stops := ends (parted.firstNamespace?_eq_none flat) none (parted.isDeclare_iff.mp all)
  have pairs := parted.isBack
  generalize edit.behind = behind at pairs stops
  cases pairs with
  | nil => cases first
  | cons here _ =>
      obtain rfl := Option.some.inj first
      exact (isDeclare_of_isPart here).symm.trans (stops _ rfl)

/-- Where the statements before the imports are counted, and what they are in a file without
imports.
-/
theorem counted (parted : Parted source file edit markup tag code frame? front old back)
    (started : Edit.start file source = .ok edit)
    : (edit.preceding = front.length ∨ edit.preceding = 0 ∧ IsTop frame? front)
      ∧ (old = [] → IsTop frame? front) ∧ EndsTop frame? front old back := by
  obtain ⟨block, isOld, framed⟩ := parted.isOld
  by_cases none : block = []
  · subst none
    obtain ⟨zero, spaced, flat⟩ := Edit.top_of_start started framed
    have top : IsTop frame? front := by
      cases frame? with
      | some frame =>
          obtain ⟨space, first, _⟩ := parted.describes.space rfl
          have length := parted.isFront.length_eq
          rw [spaced (by rw [first]; rfl)] at length
          exact List.eq_nil_of_length_eq_zero length
      | none => exact parted.isDeclare_iff.mpr (flat (parted.firstNamespace?_eq_none rfl)).1
    exact ⟨.inr ⟨zero, top⟩, fun _ => top, parted.endsTop fun noSpace _ _ => (flat noSpace).2⟩
  · have found := framed.firstImport? none
    obtain ⟨_, sameFile, _, _, _, _, preceding⟩ := Edit.start_eq_ok started
    rw [← sameFile] at preceding
    change edit.preceding = (SourceFile.firstImport? edit.scope).getD 0 at preceding
    rw [found, Option.getD_some] at preceding
    have some : old ≠ [] := by
      rintro rfl
      cases isOld
      exact none rfl
    exact ⟨.inl (preceding.trans parted.isFront.length_eq.symm), fun none => absurd none some,
      fun _ none => absurd none some⟩

/-- Before a namespace stands no import. -/
theorem leading (parted : Parted source file edit markup tag code frame? front old back)
    (checked : file.checkStructure = .ok ())
    : ∀ frame ∈ frame?, NoImports frame.before := by
  rintro frame rfl part listed
  have directive := (parted.describes.checkStructure_iff.mp checked).1 frame rfl part listed
  have describes := parted.describes
  generalize file.items = found at describes
  cases describes with
  | framed earlier spaced later =>
      obtain ⟨stmt, _, isPart⟩ := Pairing.exists_right earlier listed
      rw [← isPart.essence_eq] at directive ⊢
      cases kind : stmt.kind with
      | declare exprs => rfl
      | _ =>
          rw [kind] at directive
          cases directive

end Parted

-----------------------------------------------------------------------------------------
-- Imports outside the scope
-----------------------------------------------------------------------------------------

/-- Whether an import can be read back does not hang on the places of its items. -/
theorem Rereads.unplaced {declaration : Import} (rereads : Rereads declaration)
    : Rereads declaration.unplaced := by
  obtain ⟨⟨spelled, shaped⟩, plain⟩ := rereads
  have same : declaration.unplaced.isSpelled = declaration.isSpelled := by
    rw [Import.isSpelled, Import.unplaced, List.all_map]
    rfl
  have same' : declaration.unplaced.isAmbiguous = declaration.isAmbiguous := by
    unfold Import.isAmbiguous Import.unplaced
    cases declaration.group? with
    | some group => exact List.any_map
    | none =>
        dsimp only
        rw [← List.map_take, List.any_map]
        rfl
  refine ⟨⟨same.trans spelled, fun item listed => ?_, fun none => ?_⟩, same'.trans plain⟩
  · obtain ⟨item', here, rfl⟩ := List.mem_map.mp listed
    exact shaped.kinds item' here
  · obtain ⟨some, kinds⟩ := shaped.listed none
    refine ⟨fun empty => some (List.map_eq_nil_iff.mp empty), fun item listed => ?_⟩
    obtain ⟨item', here, rfl⟩ := List.mem_map.mp listed
    exact kinds item' here

/-- Each statement of a file is read from one of its blocks. -/
theorem Parser.Describes.exists_part {source : Text} {sheet : Sheet} {items : List Item}
    (describes : Describes source sheet items) {item : Item} (listed : item ∈ items) {stmt : Stmt}
    (among : stmt ∈ item.stmts)
    : ∃ part, part.block ∈ sheet.blocks ∧ IsPart source part stmt := by
  cases describes with
  | flat isParts =>
      obtain ⟨other, here, rfl⟩ := List.mem_map.mp listed
      obtain rfl := List.mem_singleton.mp among
      obtain ⟨part, inside, isPart⟩ := Pairing.exists_left isParts here
      exact ⟨part, Sheet.mem_blocks_inside inside, isPart⟩
  | framed earlier spaced later =>
      rcases List.mem_append.mp listed with here | here
      · obtain ⟨other, found, rfl⟩ := List.mem_map.mp here
        obtain rfl := List.mem_singleton.mp among
        obtain ⟨part, inside, isPart⟩ := Pairing.exists_left earlier found
        exact ⟨part, Sheet.mem_blocks_before rfl inside, isPart⟩
      rcases List.mem_cons.mp here with rfl | here
      · obtain ⟨part, inside, isPart⟩ := Pairing.exists_left spaced.stmts among
        exact ⟨part, Sheet.mem_blocks_inside inside, isPart⟩
      · obtain ⟨other, found, rfl⟩ := List.mem_map.mp here
        obtain rfl := List.mem_singleton.mp among
        obtain ⟨part, inside, isPart⟩ := Pairing.exists_left later found
        exact ⟨part, Sheet.mem_blocks_after rfl inside, isPart⟩

/-- What stands behind the namespace is read from statements of the file. -/
theorem Parser.Describes.exists_after {source : Text} {frame : Frame} {inside : List Part}
    {file : SourceFile} (describes : Describes source ⟨some frame, inside⟩ file.items)
    {part : Part} (listed : part ∈ frame.after)
    : ∃ stmt, IsPart source part stmt ∧ .plain stmt ∈ file.items := by
  generalize file.items = found at describes
  cases describes with
  | framed earlier spaced later =>
      obtain ⟨stmt, here, isPart⟩ := Pairing.exists_right later listed
      exact ⟨stmt, isPart, List.mem_append_right _ (.tail _ (List.mem_map_of_mem here))⟩

/-- The imports behind the namespace can be read back if no name in them is taken for a keyword. -/
theorem Parted.rereads_after (parted : Parted source file edit markup tag code frame? front old back)
    (written : ∀ item ∈ file.items, item.IsSpelled) (tidy : ∀ item ∈ file.items, item.IsTidy)
    (plain : ∀ declaration ∈ file.outerImports, declaration.isAmbiguous = false)
    : ∀ frame ∈ frame?, ∀ part ∈ frame.after, ∀ declaration ∈ part.essence.2.1,
        Rereads declaration := by
  rintro frame rfl part listed declaration imports
  obtain ⟨stmt, isPart, here⟩ := parted.describes.exists_after listed
  rw [import_of_isPart isPart] at imports
  obtain ⟨origin, found, rfl⟩ := Option.map_eq_some_iff.mp imports
  have spelled : stmt.IsSpelled := written (.plain stmt) here
  have shaped : stmt.IsTidy := tidy (.plain stmt) here
  refine Rereads.unplaced ⟨⟨spelled origin found, shaped.shaped origin found⟩, plain origin ?_⟩
  obtain ⟨space, first, _⟩ := parted.describes.space rfl
  rw [SourceFile.outerImports, first]
  exact List.mem_filterMap.mpr ⟨stmt, List.mem_filterMap.mpr ⟨_, here, rfl⟩, found⟩

end ImportHeader
