import ImportHeader.Proofs.Header.Printed
import ImportHeader.Proofs.Header.Rewritten
import Mathlib.Tactic.MkIffOfInductiveProp

/-! The text of an edited file says what the edited file says. It parses, its imports are those of
the edit, and everything else in it is as it was in the source.
-/

namespace ImportHeader

open ImportHeader.Lexer ImportHeader.Parser

/-- The statements before the first namespace of a file that has one. -/
def SourceFile.leading (file : SourceFile) : List Stmt :=
  match file.firstNamespace? with
  | some _ => file.beforeNamespace.filterMap Item.stmt?
  | none => []

/-- When the text of an edited file keeps all of the source but the imports: the source leaves no
heredoc open, and a string only at its end, the header leaves nothing open, only white space is dropped
around the comment of the header, the names that are printed can be read back, a statement in the header
has the line endings of the source, and what stands before the imports neither runs into the next
statement nor ends in directives that go on behind removed imports.
-/
@[mk_iff] structure Edit.IsSafe (source : Text) (file : SourceFile) (edit edited : Edit)
    : Prop where
  sound : IsSound ((tokenize source).map Token.piece)
  closed
    : ∀ stmt ∈ file.leading ++ edit.before, ∀ piece ∈ cut stmt.text, Piece.IsClosed piece
  blanks
    : ∀ region ∈ file.headerRegion?,
        ((file.restOfLine source region).margins ++ source.blankBehind region.line).all isSpace
          = true
  printable : ∀ declaration ∈ edited.imports, declaration.isPrintable = true
  named
    : ∀ space ∈ file.firstNamespace?,
        ∀ located ∈ space.name?, located.name.isPrintable = true
  outside : ∀ declaration ∈ file.outerImports, declaration.isAmbiguous = false
  endings
    : ∀ stmt ∈ file.leading ++ edit.before,
        Text.relined (lineEnding source) stmt.text = stmt.text
  directives
    : file.firstNamespace? = none
      → edited.imports = []
      → (∀ stmt ∈ edit.before, stmt.isDeclare = true)
      → ∀ stmt ∈ edit.behind.head?, stmt.isDeclare = false
  seam
    : (∀ stmt ∈ edit.before.getLast?, EndsClosed (cut stmt.text))
      ∨ (edit.imports = []
          → edited.imports ≠ []
          → ∃ next ∈ edit.behind.head?, next.text.head? ≠ some '?')
        ∧ (edit.imports ≠ []
          → edited.imports = []
          → ∀ next ∈ edit.behind.head?,
              ∀ piece ∈ (cut next.text).head?, joinsControl piece = false)

instance (piece : Piece) : Decidable (Piece.IsClosed piece) :=
  inferInstanceAs (Decidable (piece.1 = .error → piece.2.head?.any opensText = false))

instance (tokens : List Piece) : Decidable (EndsClosed tokens) :=
  inferInstanceAs (Decidable (tokens.getLast?.map Prod.fst = some .semicolon))

instance (source : Text) (file : SourceFile) (edit edited : Edit)
    : Decidable (Edit.IsSafe source file edit edited) :=
  decidable_of_iff' _ (Edit.isSafe_iff source file edit edited)

theorem isEnding_lineEnding (source : Text) : Text.IsEnding (lineEnding source) := by
  rcases endsLinesLike_lineEnding source with ⟨_, ending⟩ | ⟨_, ending⟩
  · exact .inr ending
  · exact .inl ending

theorem Text.relined_of_not_mem {ending text : Text} (absent : '\n' ∉ text)
    (other : text.getLast? ≠ some '\r')
    : Text.relined ending text = text := by
  rw [Text.relined_eq_reline other, Text.reline_of_not_mem absent]

theorem Row.keeps_of_fits {ending : Text} {rows : List Row} {all : List (List Piece)}
    (fits : List.Forall₂ Fits rows all)
    (relined : ∀ pieces ∈ all, Text.relined ending (joined pieces) = joined pieces)
    : ∀ row ∈ rows, row.Keeps ending := by
  intro row listed
  obtain ⟨pieces, inside, here⟩ := Pairing.exists_right fits listed
  rw [Keeps, here.text_eq]
  exact relined pieces inside

namespace Edit.IsSafe

variable {source : Text} {file : SourceFile} {edit edited : Edit}

theorem returns (safe : Edit.IsSafe source file edit edited)
    (tidy : ∀ stmt ∈ edited.scope, stmt.IsTidy)
    : ∀ declaration ∈ edited.imports, Returns declaration := by
  intro declaration listed
  obtain ⟨stmt, here, found⟩ := List.mem_filterMap.mp listed
  exact ⟨safe.printable declaration listed, (tidy stmt here).shaped declaration found⟩

/-- All names in a file after a safe edit are spelled, if those in the source are. -/
theorem isSpelled (safe : Edit.IsSafe source file edit edited)
    (structured : file.checkStructure = .ok ()) (isOn : edited.IsOn file)
    (written : ∀ item ∈ file.items, item.IsSpelled)
    : ∀ item ∈ edited.file.items, item.IsSpelled := by
  refine isOn.isSpelled (SourceFile.shape_of_checkStructure structured) written ?_
  intro stmt listed declaration found
  have printed : declaration ∈ edited.imports := List.mem_filterMap.mpr ⟨stmt, listed, found⟩
  exact (printable_import (safe.printable declaration printed)).1

end Edit.IsSafe

namespace Staged

variable {source markup tag code : Text} {file : SourceFile} {edit edited : Edit}
  {frame? : Option Frame} {front old back : List Part}

/-- The statements outside the namespace are those of the blocks around it. -/
theorem around {frame : Frame}
    (staged : Staged source file edit markup tag code (some frame) front old back)
    : List.Forall₂ (IsPart source) frame.before file.leading
      ∧ ∃ stmts, List.Forall₂ (IsPart source) frame.after stmts
          ∧ file.items.filterMap Item.stmt? = file.leading ++ stmts := by
  have plain (stmts : List Stmt) : (stmts.map Item.plain).filterMap Item.stmt? = stmts := by
    rw [List.filterMap_map]
    exact List.filterMap_some
  obtain ⟨space, first, _⟩ := staged.drawn.describes.space rfl
  have describes := staged.drawn.describes
  have leading : file.leading = file.beforeNamespace.filterMap Item.stmt? := by
    rw [SourceFile.leading, first]
  generalize items : file.items = found at describes
  cases describes with
  | @framed _ _ before space after earlier spaced later =>
      rw [leading, SourceFile.beforeNamespace_eq items, plain]
      refine ⟨earlier, after, later, ?_⟩
      rw [List.filterMap_append, List.filterMap_cons_none rfl, plain, plain]

theorem named (staged : Staged source file edit markup tag code frame? front old back)
    (safe : Edit.IsSafe source file edit edited)
    : ∀ frame ∈ frame?, ∀ name ∈ frame.name?, name.isPrintable = true := by
  rintro frame rfl name given
  obtain ⟨space, first, spaced⟩ := staged.drawn.describes.space rfl
  rw [← spaced.name_eq] at given
  obtain ⟨located, here, rfl⟩ := Option.map_eq_some_iff.mp given
  exact safe.named space first located here

theorem spelled (staged : Staged source file edit markup tag code frame? front old back)
    (safe : Edit.IsSafe source file edit edited)
    : ∀ frame ∈ frame?, ∀ name ∈ frame.name?, name.isSpelled = true :=
  fun frame here name given => Name.isSpelled_of_isPrintable (staged.named safe frame here name given)

/-- The blocks before the imports are those of statements in the header. -/
theorem exists_leading (staged : Staged source file edit markup tag code frame? front old back)
    {part : Part} (listed : part ∈ frame?.elim [] Frame.before ++ front)
    : part.block ∈ (⟨frame?, front ++ (old ++ back)⟩ : Sheet).blocks
      ∧ ∃ stmt ∈ file.leading ++ edit.before, IsPart source part stmt := by
  rcases List.mem_append.mp listed with here | here
  · cases frame? with
    | none => cases here
    | some frame =>
        obtain ⟨stmt, among, isPart⟩ := Pairing.exists_right staged.around.1 here
        exact ⟨Sheet.mem_blocks_before rfl here, stmt, List.mem_append_left _ among, isPart⟩
  · obtain ⟨stmt, among, isPart⟩ := Pairing.exists_right staged.isFront here
    exact ⟨Sheet.mem_blocks_inside (List.mem_append_left _ here), stmt,
      List.mem_append_right _ among, isPart⟩

/-- A safe edit leaves nothing open in the header. -/
theorem shut (staged : Staged source file edit markup tag code frame? front old back)
    (safe : Edit.IsSafe source file edit edited)
    : Shut source file edit markup tag code frame? front old back := by
  refine ⟨staged, fun part listed => ?_⟩
  obtain ⟨inside, stmt, among, isPart⟩ := staged.exists_leading listed
  have alone := (staged.isFixed.1 _ inside).alone
  have cuts : cut stmt.text = part.block.pieces := by
    rw [isPart.text_eq]
    simpa [Stands] using alone
  exact cuts ▸ safe.closed stmt among

/-- What is printed of the header keeps its line endings. -/
theorem relined_head (staged : Staged source file edit markup tag code frame? front old back)
    (safe : Edit.IsSafe source file edit edited) {declarations : List Import}
    (all : ∀ declaration ∈ declarations, declaration.isPrintable = true)
    : ∀ block ∈ Sheet.head (frame?.map Frame.redrawn) (front ++ declarations.map partOf),
        Text.relined (lineEnding source) (joined block.pieces) = joined block.pieces := by
  refine forall_head_redrawn
    (fun pieces => Text.relined (lineEnding source) (joined pieces) = joined pieces)
    (fun part listed => ?_) (fun frame here => ?_) fun declaration listed => ?_
  · obtain ⟨_, stmt, among, isPart⟩ := staged.exists_leading listed
    rw [← isPart.text_eq]
    exact safe.endings stmt among
  · have last : (joined (openingPieces frame.name? frame.braced)).getLast? ≠ some '\r' := by
      rw [getLast?_openingPieces]
      cases frame.braced <;> decide
    exact Text.relined_of_not_mem
      (not_mem_openingPieces rfl frame.braced (staged.spelled safe frame here)) last
  · have last : (joined (importPieces declaration)).getLast? ≠ some '\r' := by
      rw [getLast?_importPieces]
      decide
    exact Text.relined_of_not_mem
      (not_mem_importPieces rfl (printable_import (all declaration listed)).1) last

theorem keeps_head (staged : Staged source file edit markup tag code frame? front old back)
    (safe : Edit.IsSafe source file edit edited) {rows : List Row}
    (fits
      : List.Forall₂ Row.Fits rows
          ((Sheet.head (frame?.map Frame.redrawn) (front ++ edited.imports.map partOf)).map
            Block.pieces))
    : ∀ row ∈ rows, row.Keeps (lineEnding source) := by
  refine Row.keeps_of_fits fits fun pieces listed => ?_
  obtain ⟨block, inside, rfl⟩ := List.mem_map.mp listed
  exact staged.relined_head safe safe.printable block inside

/-- The blocks of the source can be drawn with the imports of a safe edit. -/
theorem isDrawable (staged : Staged source file edit markup tag code frame? front old back)
    (safe : Edit.IsSafe source file edit edited) (top : old = [] → IsTop frame? front)
    (all : ∀ declaration ∈ edited.imports, Returns declaration)
    : (redrawn frame? front edited.imports back).IsDrawable := by
  refine staged.redraft all (staged.named safe) ((staged.shut safe).seam top ?_)
  simp only [ne_eq, staged.eq_nil_iff]
  exact safe.seam

end Staged

theorem Sheet.foot_redrawn (frame? : Option Frame) (lower : List Part)
    : Sheet.foot (frame?.map Frame.redrawn) lower = Sheet.foot frame? lower := by
  cases frame? with
  | none => rfl
  | some frame => rfl

theorem isTop_map {frame? : Option Frame} {front : List Part} (change : Frame → Frame)
    : IsTop (frame?.map change) front ↔ IsTop frame? front := by
  cases frame? with
  | none => rfl
  | some frame => rfl

theorem endsTop_map {frame? : Option Frame} {front middle back : List Part}
    (ends : EndsTop frame? front middle back) (change : Frame → Frame)
    : EndsTop (frame?.map change) front middle back :=
  fun flat => ends (Option.map_eq_none_iff.mp flat)

/-- The statements in the scope of a whole edit to a parsed file are tidy. -/
theorem Edit.isTidy_apply {source : Text} {file : SourceFile} {edit : Edit}
    (started : Edit.start file source = .ok edit) (tidy : ∀ item ∈ file.items, item.IsTidy)
    (names : List Name) (aliases : List Text)
    : ∀ stmt ∈ (edit.apply names aliases).scope, stmt.IsTidy :=
  Edit.forall_scope_apply started (SourceFile.isTidy_importScope tidy)
    (fun name _ => Stmt.isNoted_ofImport name) aliases

/-- A safe edit gives a text that parses to the file of the source with the imports of the edit. -/
theorem Edit.exists_rewritten {source text : Text} {file : SourceFile} {edit : Edit}
    {names : List Name} {aliases : List Text} (parsed : parse source = .ok file)
    (code : file.hasCode = true) (started : Edit.start file source = .ok edit)
    (safe : Edit.IsSafe source file edit (edit.apply names aliases))
    (finished : (edit.apply names aliases).finish = .ok text)
    : ∃ again,
        parse text = .ok again
        ∧ again.hasCode = true
        ∧ Rewritten file (edit.apply names aliases).imports again := by
  obtain ⟨opening, tagged⟩ := Option.isSome_iff_exists.mp code
  obtain ⟨noted, tidy⟩ := isTidy_of_parse parsed tagged
  obtain ⟨structured, _, atSource, atRegion, _⟩ := Edit.start_eq_ok started
  obtain ⟨region, header⟩ := SourceFile.headerRegion?_of_parse parsed code
  have origin := edit.sameOrigin_apply names aliases
  have isOn := Edit.isOn_apply started names aliases
  have tidy' := Edit.isTidy_apply started tidy names aliases
  obtain ⟨block, framed⟩ := Edit.framed_apply started names aliases
  have hushed := fun all => Edit.hushed_apply started all names aliases
  generalize edit.apply names aliases = edited at *
  -- The blocks of the source, and those of the edited file.
  obtain ⟨code, frame?, front, old, back, parted⟩ := exists_parted parsed tagged started
  have staged : Staged source file edit _ _ code frame? front old back := ⟨parted, safe.sound⟩
  have shut := staged.shut safe
  obtain ⟨counted, top, ends⟩ := staged.counted started
  obtain ⟨plain, plain'⟩ := staged.plain
  have all := safe.returns tidy'
  have written := isSpelled_of_parse parsed tagged
  have after := staged.rereads_after written tidy safe.outside
  have drawable := staged.isDrawable safe top all
  obtain ⟨headRows, footRows, printed, fitsHead, solid, holdsFoot, tidyRows, rows, areOf, cut⟩ :=
    shut.exists_fitting_rows structured top isOn tagged tidy tidy' framed
      (fun declaration listed => (all declaration listed).prints) (staged.spelled safe)
  have tidyHead : ∀ row ∈ headRows, row.IsTidy := fun row listed =>
    tidyRows row (List.mem_append_left _ listed)
  -- The check of the header, and the text.
  obtain ⟨checked, reparsed, reread, text_eq⟩ :=
    Edit.finish_eq_ok (origin.region?.trans (atRegion.trans header)) finished
  rw [origin.source, atSource] at checked text_eq
  rw [splice_eq] at text_eq
  have lays := shut.lays_body top ends header
    (SourceFile.isNote_of_headerRegion? tagged noted tidy header) isOn.lines checked
    (List.all_eq_true.mp (safe.blanks region header))
  rw [← Sheet.foot_redrawn] at lays
  have counted' : edited.preceding = front.length
      ∨ edited.preceding = 0 ∧ IsTop (frame?.map Frame.reprinted) front := by
    rw [origin.preceding, isTop_map]
    exact counted
  have ends' : EndsTop (frame?.map Frame.reprinted) front (edited.imports.map partOf) back := by
    refine endsTop_map (staged.endsTop fun flat none => safe.directives flat ?_) _
    exact List.map_eq_nil_iff.mp none
  have keeps := staged.keeps_head safe fitsHead
  obtain ⟨each, stays, texts⟩ := staged.reprints_foot after
  -- The header leaves no comment open, and behind one that the rest leaves open none ends.
  have quiet := shut.quiet_head (fun declaration listed => (all declaration listed).prints)
    (staged.spelled safe)
  have behind := Row.areHushed_of_items areOf (hushed (staged.areHushed parsed tagged))
    (safe.isSpelled structured isOn written)
  rw [cut] at behind
  rw [headerLines_of_print staged.coded (drawable.reprinted after) printed noted
    (Sheet.head_reprinted frame? _ ▸ fitsHead) (Sheet.head_reprinted frame? _ ▸ solid)
    (Sheet.head_reprinted frame? _ ▸ quiet) holdsFoot behind.suffix texts each stays tidyRows
    (imports_map_partOf _) plain plain' ends' counted' (isEnding_lineEnding source) keeps reread]
    at text_eq
  -- The text is read as the edited file.
  obtain ⟨sheet, again, found, tagged', describes, bare⟩ := exists_reread staged.coded drawable
    noted fitsHead tidyHead quiet (isEnding_lineEnding source) lays
  rw [← text_eq] at found describes
  exact ⟨again, found, tagged', staged.rewritten started describes bare⟩

theorem Edit.finish_of_editImports {source text : Text} {file : SourceFile} {edit : Edit}
    {names : List Name} {aliases : List Text} (started : Edit.start file source = .ok edit)
    (done : editImports file names aliases source = .ok text)
    : (edit.apply names aliases).finish = .ok text := by
  rw [editImports, started] at done
  exact done

/-- An edit of a source loses, adds, moves and changes no statement besides the imports, and leaves
the namespace as it is, if it is safe. The imports of the text are those of the edit.
-/
theorem editImports_keeps_others {source text : Text} {file : SourceFile} {edit : Edit}
    {names : List Name} {aliases : List Text} (parsed : parse source = .ok file)
    (code : file.hasCode = true) (started : Edit.start file source = .ok edit)
    (safe : Edit.IsSafe source file edit (edit.apply names aliases))
    (done : editImports file names aliases source = .ok text)
    : ∃ again,
        parse text = .ok again
        ∧ again.entries = file.entries
        ∧ again.imports.map Import.print
          = (edit.apply names aliases).imports.map Import.print := by
  obtain ⟨again, reread, _, rewritten⟩ :=
    Edit.exists_rewritten parsed code started safe (Edit.finish_of_editImports started done)
  exact ⟨again, reread, rewritten.entries_eq, rewritten.print_eq⟩

/-- Whether a source can be edited, with a result that passes a test. -/
def editsWith (source : Text) (names : List Name) (aliases : List Text)
    (test : SourceFile → Edit → Text → Bool) : Bool :=
  match parse source with
  | .error _ => false
  | .ok file =>
      match Edit.start file source, editImports file names aliases source with
      | .ok edit, .ok text => test file edit text
      | _, _ => false

theorem exists_of_editsWith (source : Text) (names : List Name) (aliases : List Text)
    (test : SourceFile → Edit → Text → Bool) (passes : editsWith source names aliases test = true)
    : ∃ file edit text,
        parse source = .ok file
        ∧ Edit.start file source = .ok edit
        ∧ editImports file names aliases source = .ok text
        ∧ test file edit text = true := by
  unfold editsWith at passes
  split at passes
  · cases passes
  · rename_i file parsed
    split at passes
    · rename_i edit text started edited
      exact ⟨file, edit, text, parsed, started, edited, passes⟩
    · cases passes

/-- The first import of a file is put in behind its directive. -/
theorem editImports_keeps_others_behind_directive
    : ∃ source file text again,
        source = "<?php\ndeclare(strict_types=1);\nnew X(1);\n".toList
        ∧ parse source = .ok file
        ∧ editImports file [⟨["A".toList, "X".toList], .qualified⟩] [] source = .ok text
        ∧ text = "<?php\n\ndeclare(strict_types=1);\n\nuse A\\X;\n\nnew X(1);\n".toList
        ∧ parse text = .ok again
        ∧ again.entries = file.entries := by
  obtain ⟨file, edit, text, parsed, started, edited, checked⟩ := exists_of_editsWith
    "<?php\ndeclare(strict_types=1);\nnew X(1);\n".toList
    [⟨["A".toList, "X".toList], .qualified⟩] []
    (fun file edit text => file.hasCode
      && text == "<?php\n\ndeclare(strict_types=1);\n\nuse A\\X;\n\nnew X(1);\n".toList
      && decide (Edit.IsSafe "<?php\ndeclare(strict_types=1);\nnew X(1);\n".toList file edit
        (edit.apply [⟨["A".toList, "X".toList], .qualified⟩] [])))
    (by decide +kernel)
  simp only [Bool.and_eq_true, beq_iff_eq, decide_eq_true_eq] at checked
  obtain ⟨⟨code, written⟩, safe⟩ := checked
  obtain ⟨again, reread, kept, _⟩ := editImports_keeps_others parsed code started safe edited
  exact ⟨_, file, text, again, rfl, parsed, edited, written, reread, kept⟩

/-- The header is printed with the line ending of the first line, also within a string. -/
theorem edit_changes_line_ending_in_string
    : ∃ source file text,
        source = "<?php\nrequire 'a\r\nb';\nuse A\\X;\n".toList
        ∧ parse source = .ok file
        ∧ editImports file [] [] source = .ok text
        ∧ file.entries = [.stmt false "require 'a\r\nb';".toList]
        ∧ (parse text).toOption.map SourceFile.entries
          = some [.stmt false "require 'a\nb';".toList] := by
  obtain ⟨file, _, text, parsed, _, edited, checked⟩ := exists_of_editsWith
    "<?php\nrequire 'a\r\nb';\nuse A\\X;\n".toList [] []
    (fun file _ text => decide (file.entries = [.stmt false "require 'a\r\nb';".toList])
      && decide ((parse text).toOption.map SourceFile.entries
        = some [.stmt false "require 'a\nb';".toList]))
    (by decide +kernel)
  simp only [Bool.and_eq_true, decide_eq_true_eq] at checked
  exact ⟨_, file, text, rfl, parsed, edited, checked⟩

end ImportHeader
