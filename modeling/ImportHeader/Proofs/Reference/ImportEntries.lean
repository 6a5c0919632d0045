import ImportHeader.Proofs.Reference.Facts
import ImportHeader.Proofs.Reference.Faithful

/-! The extracted imports in the order of the source. Each of them stands at the start of a token of
its own, so no two of them have the same position.
-/

namespace ImportHeader

/-- What is extracted from a statement that is an import. -/
def Stmt.importEntries (lines : LineIndex) (stmt : Stmt) : List ImportEntry :=
  stmt.declaration?.elim [] fun declaration => (Node.importing declaration).importEntries lines

-----------------------------------------------------------------------------------------
-- What is extracted, statement by statement
-----------------------------------------------------------------------------------------

namespace Outline

/-- What is extracted from some outlines. -/
def importEntries (lines : LineIndex) (outlines : List Outline) : List ImportEntry :=
  (preorderAll outlines).flatMap (Node.importEntries lines)

variable {lines : LineIndex}

theorem importEntries_append (left right : List Outline)
    : importEntries lines (left ++ right)
      = importEntries lines left ++ importEntries lines right := by
  rw [importEntries, preorderAll_append, List.flatMap_append]
  rfl

theorem importEntries_of_importFree {outlines : List Outline} (free : ImportFree outlines)
    : importEntries lines outlines = [] := by
  refine List.flatMap_eq_nil_iff.mpr fun node listed => ?_
  have plain := free node listed
  cases node with
  | importing declaration => cases plain
  | _ => rfl

theorem importEntries_node {here : Node} (plain : here.isImporting = false) (inside : List Outline)
    : importEntries lines [.node here inside] = importEntries lines inside := by
  have none : here.importEntries lines = [] := by
    cases here with
    | importing declaration => cases plain
    | _ => rfl
  simp [importEntries, preorderAll, preorder, none]

theorem importEntries_ofStmt (stmt : Stmt)
    : importEntries lines [ofStmt stmt] = stmt.importEntries lines := by
  obtain ⟨kind, span?, text, comments, trailing?⟩ := stmt
  rw [ofStmt, importEntries_node rfl]
  cases kind with
  | importing declaration =>
      change importEntries lines [.node (.importing declaration) []] = _
      simp [importEntries, preorderAll, preorder, Stmt.importEntries, Stmt.declaration?]
  | declare exprs => exact importEntries_of_importFree (importFree_ofExprs exprs)
  | other exprs => exact importEntries_of_importFree (importFree_ofExprs exprs)
  | classLike declaration => exact importEntries_of_importFree (importFree_ofClass declaration)
  | function declaration => exact importEntries_of_importFree (importFree_ofFunction declaration)

/-- What is extracted from each of some things is extracted from all of them in order. -/
theorem importEntries_map {α : Type} {outline : α → Outline} {entries : α → List ImportEntry}
    (each : ∀ x, importEntries lines [outline x] = entries x) (xs : List α)
    : importEntries lines (xs.map outline) = xs.flatMap entries := by
  induction xs with
  | nil => rfl
  | cons x xs ih =>
      rw [List.map_cons, ← List.singleton_append, importEntries_append, each, ih, List.flatMap_cons]

theorem importEntries_ofItem (item : Item)
    : importEntries lines [ofItem item] = item.stmts.flatMap (Stmt.importEntries lines) := by
  cases item with
  | plain stmt =>
      rw [ofItem, importEntries_ofStmt, Item.stmts, List.flatMap_singleton]
  | scope space =>
      rw [ofItem, importEntries_node rfl]
      exact importEntries_map importEntries_ofStmt space.stmts

end Outline

/-- The extracted imports are those of the statements in order. -/
theorem SourceFile.extract_imports (file : SourceFile)
    : file.extract.imports = file.stmts.flatMap (Stmt.importEntries file.lines) := by
  rw [stmts, List.flatMap_assoc]
  exact Outline.importEntries_map Outline.importEntries_ofItem file.items

/-- The statements of the import scope are statements of the file, in the same order. -/
theorem SourceFile.importScope_sublist (file : SourceFile)
    : file.importScope.Sublist file.stmts := by
  unfold importScope stmts firstNamespace?
  induction file.items with
  | nil => exact .refl _
  | cons item items ih =>
      cases item with
      | scope space => exact List.sublist_append_left _ _
      | plain stmt =>
          have later : (Item.plain stmt :: items).findSome? Item.space?
              = items.findSome? Item.space? := rfl
          rw [later]
          cases first : items.findSome? Item.space? with
          | some space =>
              rw [first] at ih
              exact ih.cons _
          | none =>
              rw [first] at ih
              exact ih.cons_cons _

-----------------------------------------------------------------------------------------
-- Positions
-----------------------------------------------------------------------------------------

namespace SourceFile

variable {source : Text} {file : SourceFile}

/-- The items of the imports of a file start at tokens of its code, in their order. -/
theorem itemStarts_sublist (parsed : parse source = .ok file)
    : (file.stmts.flatMap Stmt.itemStarts).Sublist
        ((tokensOfCode source).map fun token => some token.offset) := by
  rw [← List.filterMap_eq_map]
  exact (among_of_view parsed fun _ _ => Parser.shows_itemStarts).order trivial

/-- The position of what starts somewhere. -/
def positionOfStart (lines : LineIndex) (start? : Option Nat) : Position :=
  start?.elim ⟨0, 0⟩ lines.positionAt

theorem map_position_importEntries (lines : LineIndex) (stmts : List Stmt)
    : (stmts.flatMap (Stmt.importEntries lines)).map ImportEntry.position
      = (stmts.flatMap Stmt.itemStarts).map (positionOfStart lines) := by
  have each (stmt : Stmt) : (stmt.importEntries lines).map ImportEntry.position
      = stmt.itemStarts.map (positionOfStart lines) := by
    unfold Stmt.importEntries Stmt.itemStarts
    cases stmt.declaration? with
    | none => rfl
    | some declaration =>
        simp only [Option.elim_some, Node.importEntries, itemStarts, List.map_map]
        refine List.map_congr_left fun item _ => ?_
        cases place : item.span? with
        | none => simp [place, positionOfStart]
        | some span => simp [place, positionOfStart]
  rw [List.map_flatMap, List.map_flatMap]
  exact List.flatMap_congr fun stmt _ => each stmt

/-- The extracted imports have later and later positions. -/
theorem pairwise_extract_imports (parsed : parse source = .ok file)
    : file.extract.imports.Pairwise fun left right => left.position.Before right.position := by
  have lines := (parse_eq_ok parsed).2.2.1
  have positions := (itemStarts_sublist parsed).map (positionOfStart file.lines)
  rw [← map_position_importEntries, ← extract_imports, List.map_map] at positions
  refine List.pairwise_map.mp (List.Pairwise.sublist positions (List.pairwise_map.mpr ?_))
  refine (pairwise_offset (tokensOfCode_sublist source)).imp fun less => ?_
  change (file.lines.positionAt _).Before (file.lines.positionAt _)
  rw [lines]
  exact LineIndex.positionAt_before source less

end SourceFile

end ImportHeader
