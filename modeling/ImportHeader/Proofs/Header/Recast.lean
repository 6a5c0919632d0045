import ImportHeader.Proofs.Header.Bounds
import ImportHeader.Proofs.Header.Edited
import ImportHeader.Proofs.Header.Layout

/-! A file under edit, as rows. The rows of the edited file fit the blocks of the source around the new
imports.
-/

namespace ImportHeader

open ImportHeader.Lexer ImportHeader.Parser

/-- What stands around an import scope, with the opening of the namespace as it is printed. -/
def Frame.redrawn (frame : Frame) : Frame :=
  frame.reopened (frame.name?.map Name.imported) (openingPieces frame.name? frame.braced)

/-- A file with other imports, as it is printed. -/
def redrawn (frame? : Option Frame) (front : List Part) (declarations : List Import)
    (back : List Part) : Sheet :=
  ⟨frame?.map Frame.redrawn, front ++ (declarations.map partOf ++ back)⟩

/-- What is printed of a part: an import in a fixed form, and everything else as it is. -/
def Part.reprinted (part : Part) : Part :=
  match part.essence.2.1 with
  | some declaration => respelledPart declaration
  | none => part

/-- What stands around an import scope, as it is printed. -/
def Frame.reprinted (frame : Frame) : Frame :=
  { frame.redrawn with after := frame.after.map Part.reprinted }

theorem Part.reprinted_of_plain {part : Part} (plain : part.essence.2.1.isSome = false)
    : part.reprinted = part := by
  cases imported : part.essence.2.1 with
  | none => rw [reprinted, imported]
  | some declaration =>
      rw [imported] at plain
      cases plain

theorem map_reprinted {parts : List Part} (plain : NoImports parts)
    : parts.map Part.reprinted = parts := by
  have same : parts.map Part.reprinted = parts.map id :=
    List.map_congr_left fun part listed => Part.reprinted_of_plain (plain part listed)
  rw [same, List.map_id]

theorem noImports_of_parts {source : Text} {parts : List Part} {stmts : List Stmt}
    (pairs : List.Forall₂ (IsPart source) parts stmts) (plain : NoImport stmts)
    : NoImports parts := by
  intro part listed
  obtain ⟨stmt, here, isPart⟩ := Pairing.exists_right pairs listed
  exact (isImport_of_isPart isPart).symm.trans (plain stmt here)

theorem Stmt.code_of_declaration? {stmt : Stmt} {declaration : Import}
    (found : stmt.declaration? = some declaration)
    : stmt.code = declaration.print := by
  unfold Stmt.declaration? at found
  unfold Stmt.code
  cases kind : stmt.kind with
  | importing other =>
      rw [kind] at found
      rw [Option.some.inj found]
  | _ =>
      rw [kind] at found
      cases found

namespace Row

variable {source : Text} {row : Row} {rows : List Row} {stmt : Stmt} {stmts : List Stmt}
  {part : Part} {parts : List Part} {pieces : List Piece} {all : List (List Piece)}

/-- The code in a row is given pieces, and no comment stands behind pieces that run on. -/
structure Holds (row : Row) (pieces : List Piece) : Prop where
  text_eq : row.text = joined pieces
  bare : RunsOn pieces → row.trailing? = none

theorem Holds.fits (holds : row.Holds pieces) (solid : IsSolid pieces) : row.Fits pieces :=
  ⟨holds.text_eq, solid.isBlock, solid.isFirm⟩

theorem fits_of_holds (pairs : List.Forall₂ Holds rows all) (solid : ∀ pieces ∈ all, IsSolid pieces)
    : List.Forall₂ Fits rows all := by
  induction pairs with
  | nil => exact .nil
  | cons here _ ih =>
      exact .cons (here.fits (solid _ List.mem_cons_self))
        (ih fun pieces listed => solid pieces (List.mem_cons_of_mem _ listed))

theorem isTidy_of_isOf (isOf : IsOf stmt row) (tidy : stmt.IsTidy) : row.IsTidy :=
  ⟨isOf.comments_eq ▸ tidy.comments, isOf.trailing_eq ▸ tidy.trailing⟩

theorem isTidy_of_rows (pairs : List.Forall₂ IsOf stmts rows) (tidy : ∀ stmt ∈ stmts, stmt.IsTidy)
    : ∀ row ∈ rows, row.IsTidy := by
  induction pairs with
  | nil => nofun
  | cons here _ ih =>
      intro row listed
      rcases List.mem_cons.mp listed with rfl | later
      · exact isTidy_of_isOf here (tidy _ List.mem_cons_self)
      · exact ih (fun stmt listed => tidy stmt (List.mem_cons_of_mem _ listed)) row later

theorem holds_of_declaration? {declaration printed : Import} (isOf : IsOf stmt row)
    (found : stmt.declaration? = some declaration) (same : printed.print = declaration.print)
    : row.Holds (importPieces printed) := by
  refine ⟨?_, fun runsOn => absurd runsOn (stays_importPieces printed)⟩
  rw [isOf.text_eq, joined_importPieces, same, Stmt.code_of_declaration? found]

/-- The row of a statement that was read holds what is printed of its part. -/
theorem holds_of_isPart (isOf : IsOf stmt row) (isPart : IsPart source part stmt)
    (tidy : stmt.IsTidy) (ended : RunsOn part.block.pieces → part.block.behind = [])
    : row.Holds part.reprinted.block.pieces := by
  cases found : stmt.declaration? with
  | some declaration =>
      have essence : part.essence.2.1 = some declaration.unplaced := by
        rw [import_of_isPart isPart, found]
        rfl
      rw [Part.reprinted, essence]
      exact holds_of_declaration? isOf found declaration.print_unplaced
  | none =>
      have plain : stmt.isImport = false := by rw [Stmt.isImport, found]; rfl
      rw [Part.reprinted_of_plain ((isImport_of_isPart isPart).symm.trans plain)]
      refine ⟨?_, fun runsOn => ?_⟩
      · rw [isOf.text_eq, ← isPart.text_eq, Stmt.code]
        split
        · rename_i declaration kind
          rw [Stmt.declaration?, kind] at found
          cases found
        · rfl
      · rw [isOf.trailing_eq, Option.eq_none_iff_forall_ne_some]
        intro comment given
        have inside := isPart.trailing comment given
        rw [ended runsOn, List.infix_nil] at inside
        subst inside
        exact not_isComment_nil (tidy.trailing [] given).1.1

theorem holds_of_parts (pairs : List.Forall₂ (IsPart source) parts stmts)
    (pairs' : List.Forall₂ IsOf stmts rows) (tidy : ∀ stmt ∈ stmts, stmt.IsTidy)
    (ended : ∀ part ∈ parts, RunsOn part.block.pieces → part.block.behind = [])
    : List.Forall₂ Holds rows ((parts.map Part.reprinted).map fun part => part.block.pieces) := by
  induction pairs generalizing rows with
  | nil =>
      cases pairs'
      exact .nil
  | cons here _ ih =>
      cases pairs' with
      | cons here' later =>
          refine .cons (holds_of_isPart here' here (tidy _ List.mem_cons_self)
            (ended _ List.mem_cons_self)) (ih later ?_ ?_)
          · exact fun stmt listed => tidy stmt (List.mem_cons_of_mem _ listed)
          · exact fun part listed => ended part (List.mem_cons_of_mem _ listed)

/-- The rows of imports hold their printed pieces. -/
theorem holds_of_imports (pairs : List.Forall₂ IsOf stmts rows)
    (imports : ∀ stmt ∈ stmts, stmt.isImport = true)
    : List.Forall₂ Holds rows ((stmts.filterMap Stmt.declaration?).map importPieces) := by
  induction pairs with
  | nil => exact .nil
  | @cons stmt row stmts rows isOf _ ih =>
      obtain ⟨declaration, found⟩ : ∃ declaration, stmt.declaration? = some declaration :=
        Option.isSome_iff_exists.mp (imports stmt List.mem_cons_self)
      rw [List.filterMap_cons_some found]
      exact .cons (holds_of_declaration? isOf found rfl)
        (ih fun stmt listed => imports stmt (List.mem_cons_of_mem _ listed))

/-- The row that opens a namespace holds its name as it was read, whatever statements follow. -/
theorem holds_of_opening {opening : Block} {name? : Option Name} {braced : Bool}
    {inside : List Part} {space : Namespace} {scope : List Stmt}
    (spaced : Parser.SpaceAt source opening name? braced inside space)
    (isOpening : IsOpening { space with stmts := scope } row)
    : row.Holds (openingPieces name? braced) := by
  refine ⟨?_, fun runsOn => absurd runsOn (stays_openingPieces _ _)⟩
  have same : Namespace.openingCode { space with stmts := scope } = space.openingCode := rfl
  rw [isOpening.text_eq, same, Namespace.openingCode_eq, spaced.name_eq, spaced.braced_eq]

theorem isTidy_of_isOpening {space : Namespace} (isOpening : IsOpening space row)
    (comments : ∀ comment ∈ space.comments, IsNote comment)
    (header : ∀ comment ∈ space.headerComment?, IsNote comment ∧ '\n' ∉ comment)
    : row.IsTidy :=
  ⟨isOpening.comments_eq ▸ comments, isOpening.trailing_eq ▸ header⟩

/-- The row that closes a namespace is its brace. -/
theorem holds_of_closing {blocks : List Block} {braced : Bool} (closes : Closes blocks braced)
    (isClosing : if braced then ∃ row, rows = [row] ∧ IsClosing row else rows = [])
    (stands : ∀ block ∈ blocks, ∃ text, Stands block.pieces text)
    : List.Forall₂ Holds rows (blocks.map Block.pieces) ∧ ∀ row ∈ rows, row.IsTidy := by
  cases braced with
  | false =>
      rw [show blocks = [] from closes, show rows = [] from isClosing]
      exact ⟨.nil, nofun⟩
  | true =>
      obtain ⟨block, mark, rfl, marked⟩ := closes
      obtain ⟨row, rfl, isRow⟩ := isClosing
      obtain ⟨text, stands⟩ := stands block List.mem_cons_self
      rw [marked] at stands
      obtain ⟨c, body, rfl⟩ := List.exists_cons_of_ne_nil (stands.ne_nil _ List.mem_cons_self)
      have munched := (stands_cons.mp stands).1
      obtain rfl : c = '}' := eq_of_beq (canStart_of_munch munched)
      have none : body = [] := List.eq_nil_of_length_eq_zero (Prod.mk.inj munched).2.symm
      rw [none] at marked
      refine ⟨.cons ⟨?_, fun _ => isRow.trailing_eq⟩ .nil, fun other listed => ?_⟩
      · rw [isRow.text_eq, marked]
        rfl
      · obtain rfl := List.mem_singleton.mp listed
        exact ⟨by simp [isRow.comments_eq], by simp [isRow.trailing_eq]⟩

end Row

section

variable {source : Text} {file : SourceFile} {frame? : Option Frame} {front old back : List Part}

/-- The rows of an edited import scope hold the blocks of the source around the new imports. -/
theorem exists_scope_rows {edited : Edit} {stmts block stmts' : List Stmt} {rows : List Row}
    (framed : edited.Framed stmts stmts' block)
    (isFront : List.Forall₂ (IsPart source) front stmts)
    (isBack : List.Forall₂ (IsPart source) back stmts')
    (tidy : ∀ stmt ∈ edited.scope, stmt.IsTidy)
    (ended : ∀ part ∈ front ++ back, RunsOn part.block.pieces → part.block.behind = [])
    (each : List.Forall₂ Row.IsOf edited.scope rows)
    : ∃ upper lower,
        rows = upper ++ lower
        ∧ List.Forall₂ Row.Holds upper
            ((front.map fun part => part.block.pieces) ++ edited.imports.map importPieces)
        ∧ List.Forall₂ Row.Holds lower (back.map fun part => part.block.pieces) := by
  have imports : edited.imports = block.filterMap Stmt.declaration? := by
    rw [Edit.imports_eq, framed.scope_eq, List.filterMap_append, List.filterMap_append,
      framed.front_plain.declarations, framed.back_plain.declarations, List.nil_append,
      List.append_nil]
  rw [framed.scope_eq] at each tidy
  obtain ⟨first, lower, rfl, each1, each3⟩ := Pairing.split each
  obtain ⟨upper, middle, rfl, each1, each2⟩ := Pairing.split each1
  rw [imports]
  refine ⟨upper ++ middle, lower, rfl,
    List.rel_append ?_ (Row.holds_of_imports each2 framed.imports), ?_⟩
  · rw [← map_reprinted (noImports_of_parts isFront framed.front_plain)]
    exact Row.holds_of_parts isFront each1 (fun stmt listed => tidy stmt (by simp [listed]))
      fun part listed => ended part (List.mem_append_left _ listed)
  · rw [← map_reprinted (noImports_of_parts isBack framed.back_plain)]
    exact Row.holds_of_parts isBack each3 (fun stmt listed => tidy stmt (by simp [listed]))
      fun part listed => ended part (List.mem_append_right _ listed)

/-- The rows around the statements of a namespace hold the blocks there. -/
theorem exists_frame_rows {frame : Frame} {inside : List Part} {before after scope : List Stmt}
    {space : Namespace} {rows : List (List Row)}
    (earlier : List.Forall₂ (IsPart source) frame.before before)
    (spaced : Parser.SpaceAt source frame.opening frame.name? frame.braced inside space)
    (later : List.Forall₂ (IsPart source) frame.after after)
    (tidy : ∀ item ∈ before.map Item.plain ++ .scope space :: after.map .plain, item.IsTidy)
    (stands : ∀ block ∈ frame.closing, ∃ text, Stands block.pieces text)
    (ended
      : ∀ part ∈ frame.before ++ frame.after,
          RunsOn part.block.pieces → part.block.behind = [])
    (leading : NoImports frame.before) (closes : Closes frame.closing frame.braced)
    (each
      : List.Forall₂ Row.AreOf
          (before.map .plain ++ .scope { space with stmts := scope } :: after.map .plain) rows)
    : ∃ upper inner lower,
        rows.flatten = upper ++ (inner ++ lower)
        ∧ List.Forall₂ Row.Holds upper
            ((frame.before.map fun part => part.block.pieces) ++ [frame.redrawn.opening.pieces])
        ∧ List.Forall₂ Row.IsOf scope inner
        ∧ List.Forall₂ Row.Holds lower
            (frame.closing.map Block.pieces
              ++ (frame.after.map Part.reprinted).map fun part => part.block.pieces)
        ∧ ∀ row ∈ upper ++ lower, row.IsTidy := by
  obtain ⟨rowsBefore, row, inner, closing, rowsAfter, cut, isBefore, isOpening, isInner, isClosing,
    isAfter⟩ := Row.exists_framed_rows each
  have tidySpace : space.IsTidy := tidy (.scope space) (by simp)
  have tidyBefore : ∀ stmt ∈ before, stmt.IsTidy := fun stmt listed =>
    tidy (.plain stmt) (by simp [listed])
  have tidyAfter : ∀ stmt ∈ after, stmt.IsTidy := fun stmt listed =>
    tidy (.plain stmt) (by simp [listed])
  have isRow : row.Holds frame.redrawn.opening.pieces := Row.holds_of_opening spaced isOpening
  have holdsBefore := Row.holds_of_parts earlier isBefore tidyBefore
    fun part listed => ended part (List.mem_append_left _ listed)
  rw [map_reprinted leading] at holdsBefore
  have holdsAfter := Row.holds_of_parts later isAfter tidyAfter
    fun part listed => ended part (List.mem_append_right _ listed)
  rw [spaced.braced_eq] at isClosing
  obtain ⟨holdsClosing, tidyClosing⟩ := Row.holds_of_closing closes isClosing stands
  refine ⟨rowsBefore ++ [row], inner, closing ++ rowsAfter, by simp [cut],
    List.rel_append holdsBefore (.cons isRow .nil), isInner,
    List.rel_append holdsClosing holdsAfter, ?_⟩
  intro other listed
  simp only [List.mem_append, List.mem_singleton] at listed
  rcases listed with (here | rfl) | here | here
  · exact Row.isTidy_of_rows isBefore tidyBefore other here
  · exact Row.isTidy_of_isOpening isOpening tidySpace.comments tidySpace.header
  · exact tidyClosing other here
  · exact Row.isTidy_of_rows isAfter tidyAfter other here

/-- The edited file is printed as rows that hold the blocks of the source around the new imports.
-/
theorem exists_held_rows {edited : Edit} {opening : OpenTag} {stmts block stmts' : List Stmt}
    (describes : Describes source ⟨frame?, front ++ (old ++ back)⟩ file.items)
    (stands
      : ∀ block ∈ (⟨frame?, front ++ (old ++ back)⟩ : Sheet).blocks,
          ∃ text, Stands block.pieces text)
    (ended
      : ∀ block ∈ (⟨frame?, front ++ (old ++ back)⟩ : Sheet).blocks,
          RunsOn block.pieces → block.behind = [])
    (isOn : edited.IsOn file) (tagged : file.openTag? = some opening)
    (tidy : ∀ item ∈ file.items, item.IsTidy) (tidy' : ∀ stmt ∈ edited.scope, stmt.IsTidy)
    (framed : edited.Framed stmts stmts' block)
    (isFront : List.Forall₂ (IsPart source) front stmts)
    (isBack : List.Forall₂ (IsPart source) back stmts')
    (leading : ∀ frame ∈ frame?, NoImports frame.before)
    (closes : ∀ frame ∈ frame?, Closes frame.closing frame.braced)
    : ∃ headRows footRows : List Row,
        edited.file.print
        = file.markup?.getD [] ++ opening.text
          ++ (printTrailing opening.comment?
            ++ (Row.printAll id ['\n'] (headRows ++ footRows) ++ ['\n']))
        ∧ List.Forall₂ Row.Holds headRows
            ((Sheet.head (frame?.map Frame.redrawn) front).map Block.pieces
              ++ edited.imports.map importPieces)
        ∧ List.Forall₂ Row.Holds footRows
            ((Sheet.foot (frame?.map Frame.reprinted) back).map Block.pieces)
        ∧ (∀ row ∈ headRows ++ footRows, row.IsTidy)
        ∧ ∃ rows, List.Forall₂ Row.AreOf edited.file.items rows
            ∧ rows.flatten = headRows ++ footRows := by
  have inner {rows : List Row} (each : List.Forall₂ Row.IsOf edited.scope rows) :=
    exists_scope_rows framed isFront isBack tidy'
      (fun part listed => ended _ (Sheet.mem_blocks_inside (by
        rcases List.mem_append.mp listed with here | here <;> simp [here]))) each
  obtain ⟨rows, each, printed⟩ := Row.exists_rows (isOn.openTag.trans tagged)
  rw [isOn.markup] at printed
  have areOf := each
  generalize items : file.items = found at describes tidy
  cases describes with
  | flat isParts =>
      rw [isOn.items, SourceFile.withImportScope_flat items] at each
      have scope := Row.exists_plain_rows each
      obtain ⟨upper, lower, cut, holds, holds'⟩ := inner scope
      rw [cut] at printed scope
      refine ⟨upper, lower, printed, ?_, ?_, Row.isTidy_of_rows scope tidy', rows, areOf, cut⟩
      · simpa [Sheet.head, Function.comp_def] using holds
      · simpa [Sheet.foot, Function.comp_def] using holds'
  | @framed frame inside before space after earlier spaced later =>
      rw [isOn.items, SourceFile.withImportScope_framed items] at each
      obtain ⟨above, rows', below, cut, isAbove, isInner, isBelow, tidyAround⟩ :=
        exists_frame_rows earlier spaced later tidy
          (fun block listed => stands _ (Sheet.mem_blocks_closing rfl listed))
          (fun part listed => (List.mem_append.mp listed).elim
            (fun here => ended _ (Sheet.mem_blocks_before rfl here))
            fun here => ended _ (Sheet.mem_blocks_after rfl here))
          (leading frame rfl) (closes frame rfl) each
      obtain ⟨upper, lower, rfl, holds, holds'⟩ := inner isInner
      refine ⟨above ++ upper, lower ++ below, by simp [printed, cut], ?_, ?_, ?_, rows, areOf,
        by simp [cut]⟩
      · have kept : frame.redrawn.before = frame.before := rfl
        simpa [Sheet.head, Function.comp_def, kept] using List.rel_append isAbove holds
      · have kept : frame.reprinted.closing = frame.closing := rfl
        have printed : frame.reprinted.after = frame.after.map Part.reprinted := rfl
        simpa [Sheet.foot, Function.comp_def, kept, printed] using List.rel_append holds' isBelow
      · intro row listed
        simp only [List.mem_append] at listed tidyAround
        have tidyInner := Row.isTidy_of_rows isInner tidy' row
        rcases listed with (here | here) | here | here
        · exact tidyAround row (.inl here)
        · exact tidyInner (List.mem_append_left _ here)
        · exact tidyInner (List.mem_append_right _ here)
        · exact tidyAround row (.inr here)

end

/-- The blocks through the imports are printed as those before them, and the imports. -/
theorem Sheet.map_pieces_head (frame? : Option Frame) (front : List Part)
    (declarations : List Import)
    : (Sheet.head frame? (front ++ declarations.map partOf)).map Block.pieces
      = (Sheet.head frame? front).map Block.pieces ++ declarations.map importPieces := by
  simp [Sheet.head, partOf, Function.comp_def]

/-- Nothing but the statements behind a namespace is printed differently there. -/
theorem Sheet.head_reprinted (frame? : Option Frame) (upper : List Part)
    : Sheet.head (frame?.map Frame.reprinted) upper
      = Sheet.head (frame?.map Frame.redrawn) upper := by
  cases frame? with
  | none => rfl
  | some frame => rfl

/-- What holds of the blocks before the imports, of the opening of a namespace as it is printed, and
of printed imports holds of all blocks of the printed header.
-/
theorem forall_head_redrawn (holds : List Piece → Prop) {frame? : Option Frame} {front : List Part}
    {declarations : List Import}
    (leading : ∀ part ∈ frame?.elim [] Frame.before ++ front, holds part.block.pieces)
    (opening : ∀ frame ∈ frame?, holds (openingPieces frame.name? frame.braced))
    (imports : ∀ declaration ∈ declarations, holds (importPieces declaration))
    : ∀ block ∈ Sheet.head (frame?.map Frame.redrawn) (front ++ declarations.map partOf),
        holds block.pieces := by
  intro block listed
  rw [Sheet.head, List.map_append] at listed
  rcases List.mem_append.mp listed with around | inside
  · cases frame? with
    | none => cases around
    | some frame =>
        rcases List.mem_append.mp around with before | last
        · obtain ⟨part, among, rfl⟩ := List.mem_map.mp before
          exact leading part (List.mem_append_left _ among)
        · rw [List.mem_singleton.mp last]
          exact opening frame rfl
  · rcases List.mem_append.mp inside with here | here
    · obtain ⟨part, among, rfl⟩ := List.mem_map.mp here
      exact leading part (List.mem_append_right _ among)
    · obtain ⟨part, among, rfl⟩ := List.mem_map.mp here
      obtain ⟨declaration, printed, rfl⟩ := List.mem_map.mp among
      exact imports declaration printed

end ImportHeader
