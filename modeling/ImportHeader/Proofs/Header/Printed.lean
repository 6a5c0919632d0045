import ImportHeader.Proofs.Header.Ending
import ImportHeader.Proofs.Header.Redrawing
import ImportHeader.Proofs.Header.Splice

/-! Rows that are read again. A source that is made of rows parses to a file with their blocks, and
the lines of its header are those of the rows that belong to it.
-/

namespace ImportHeader

open ImportHeader.Lexer ImportHeader.Parser

namespace Row

variable {fit : Text → Text} {ending tail : Text} {rows : List Row} {all : List (List Piece)}

/-- The blocks of rows have the pieces of the rows. -/
theorem map_pieces_blocks (fits : List.Forall₂ Fits rows all)
    : (blocks fit ending tail rows all).map Block.pieces = all := by
  induction fits with
  | nil => rfl
  | cons here _ ih => rw [blocks, List.map_cons, ih]

theorem not_mem_printTrailing {comment? : Option Text} (single : ∀ comment ∈ comment?, '\n' ∉ comment)
    : '\n' ∉ printTrailing comment? := by
  cases comment? with
  | none => exact List.not_mem_nil
  | some comment =>
      have absent := single comment rfl
      simp [printTrailing, absent]

/-- Behind the last of some rows there is its comment, which breaks no line. -/
theorem count_behindAll {comment? : Option Text} (single : ∀ comment ∈ comment?, '\n' ∉ comment)
    (fits : List.Forall₂ Fits rows all) (tidy : ∀ row ∈ rows, row.IsTidy)
    : (behindAll (printTrailing comment? ++ (printAll id ['\n'] rows ++ tail))
        (blocks id ['\n'] tail rows all)).count '\n'
      = tail.count '\n' := by
  induction fits generalizing comment? with
  | nil =>
      change (printTrailing comment? ++ ([] ++ tail)).count '\n' = _
      rw [List.count_append, List.count_eq_zero_of_not_mem (not_mem_printTrailing single),
        Nat.zero_add, List.nil_append]
  | @cons row pieces rows others here _ ih =>
      rw [blocks, behindAll_cons, Option.map_id_fun, id]
      exact ih (fun comment here => ((tidy row List.mem_cons_self).trailing comment here).2)
        fun other listed => tidy other (List.mem_cons_of_mem _ listed)

end Row

/-- A file that has its pieces from another one is opened as that is. -/
theorem opens_of_bare {sheet draft : Sheet} (bare : sheet.bare = draft.bare)
    (opens : ∀ frame ∈ draft.frame?, Opens frame.opening.pieces frame.name? frame.braced)
    : ∀ frame ∈ sheet.frame?, Opens frame.opening.pieces frame.name? frame.braced := by
  intro frame here
  have frames := congrArg Sheet.frame? bare
  simp only [Sheet.bare, Option.mem_def.mp here, Option.map_some] at frames
  obtain ⟨frame', here', same⟩ := Option.map_eq_some_iff.mp frames.symm
  have opening : frame'.bare.opening.pieces = frame.bare.opening.pieces := by rw [same]
  have name : frame'.bare.name? = frame.bare.name? := by rw [same]
  have braced : frame'.bare.braced = frame.bare.braced := by rw [same]
  change frame'.opening.pieces = frame.opening.pieces at opening
  change frame'.name? = frame.name? at name
  change frame'.braced = frame.braced at braced
  rw [← opening, ← name, ← braced]
  exact opens frame' here'

/-- Rows before a text that is laid out as the other blocks of a file are read as that file. -/
theorem exists_drawn_of_rows {fit : Text → Text} {source markup tag ending tail : Text}
    {comment? : Option Text} {rows : List Row} {all : List (List Piece)} {others : List Block}
    {draft : Sheet}
    (coded
      : Coded source markup tag
          (printTrailing (comment?.map fit) ++ (Row.printAll fit ending rows ++ tail)))
    (isEnding : Text.IsEnding ending)
    (fitted : ∀ comment, IsComment comment → IsComment (fit comment))
    (noted : ∀ comment ∈ comment?, Row.IsNote comment)
    (fits : List.Forall₂ Row.Fits rows all) (tidy : ∀ row ∈ rows, row.IsTidy)
    (quiet : ∀ pieces ∈ all, ¬OpensComment pieces)
    (breaks : Row.BreaksLine tail) (lays : Lays tail others)
    (pieces : all ++ others.map Block.pieces = draft.blocks.map Block.pieces)
    (drawable : draft.IsDrawable)
    : ∃ sheet file,
        parse source = .ok file
        ∧ Drawn source markup tag
            (printTrailing (comment?.map fit) ++ (Row.printAll fit ending rows ++ tail)) sheet file
        ∧ sheet.bare = draft.bare
        ∧ sheet.blocks = Row.blocks fit ending tail rows all ++ others := by
  have laid : Lays (printTrailing (comment?.map fit) ++ (Row.printAll fit ending rows ++ tail))
      (Row.blocks fit ending tail rows all ++ others) :=
    Row.lays_trailing (fun comment here => fitted _ (noted comment here).1)
      (Row.breaksLine_printAll isEnding breaks)
      (Row.lays_printAll isEnding fits tidy fitted (Row.isHushed_of_quiet quiet) breaks lays)
  have same : (Row.blocks fit ending tail rows all ++ others).map Block.bare
      = draft.blocks.map Block.bare := by
    rw [map_bare, map_bare, List.map_append, Row.map_pieces_blocks fits, pieces]
  obtain ⟨sheet, blocks, bare⟩ := Sheet.exists_of_bare same
  rw [← blocks] at laid
  have readable' : Readable sheet := by
    rw [← readable_bare, bare]
    exact readable_bare.mpr drawable.readable
  obtain ⟨file, parsed, describes, tagged, _, lines⟩ :=
    exists_parse coded laid readable' (opens_of_bare bare drawable.opens)
  exact ⟨sheet, file, parsed, ⟨coded, laid, describes, tagged, lines⟩, bare, blocks⟩

/-- Rows of which the last can run on are read as a file in which each block that they hold
is read in the same way.
-/
theorem exists_drawn_of_held_rows {source markup tag tail : Text} {comment? : Option Text}
    {headRows footRows : List Row} {upper lower : List (List Piece)} {draft : Sheet}
    (coded
      : Coded source markup tag
          (printTrailing comment? ++ (Row.printAll id ['\n'] headRows ++ tail)))
    (noted : ∀ comment ∈ comment?, Row.IsNote comment)
    (fitsHead : List.Forall₂ Row.Fits headRows upper)
    (holdsFoot : List.Forall₂ Row.Holds footRows lower)
    (tidy : ∀ row ∈ headRows ++ footRows, row.IsTidy)
    (quiet : ∀ pieces ∈ upper, ¬OpensComment pieces) (hushed : Row.AreHushed footRows)
    (texts
      : lower.Pairwise fun pieces other => OpensComment pieces → EndsNoComment (joined other))
    (each : ∀ pieces ∈ lower, IsSolid pieces ∨ IsFinal pieces)
    (stays : lower.Pairwise fun pieces _ => ¬RunsOn pieces)
    (behind : Row.printAll id ['\n'] footRows ++ ['\n'] = tail)
    (pieces : upper ++ lower = draft.blocks.map Block.pieces) (drawable : draft.IsDrawable)
    : ∃ sheet file others,
        parse source = .ok file
        ∧ Drawn source markup tag
            (printTrailing comment? ++ (Row.printAll id ['\n'] headRows ++ tail)) sheet file
        ∧ sheet.outline = draft.outline
        ∧ sheet.blocks = Row.blocks id ['\n'] tail headRows upper ++ others := by
  have newline : Text.IsEnding ['\n'] := .inl rfl
  have breaks : Row.BreaksLine tail :=
    behind ▸ Row.breaksLine_printAll newline Row.breaksLine_newline
  obtain ⟨others, lays, alike⟩ := Row.exists_lays holdsFoot
    (fun row listed => tidy row (List.mem_append_right _ listed))
    (Row.isHushed_blocks holdsFoot (alone_of_solid_or_final each) hushed texts) each stays
  rw [behind] at lays
  have tidyHead : ∀ row ∈ headRows, row.IsTidy := fun row listed =>
    tidy row (List.mem_append_left _ listed)
  have laid : Lays (printTrailing (comment?.map id)
      ++ (Row.printAll id ['\n'] headRows ++ tail))
      (Row.blocks id ['\n'] tail headRows upper ++ others) :=
    Row.lays_trailing (fun comment here => (noted comment here).1)
      (Row.breaksLine_printAll newline breaks)
      (Row.lays_printAll newline fitsHead tidyHead (fun _ given => given)
        (Row.isHushed_of_quiet quiet) breaks lays)
  rw [Option.map_id_fun, id] at laid
  have all : List.Forall₂ Block.Alike draft.blocks
      (Row.blocks id ['\n'] tail headRows upper ++ others) := by
    have same : List.Forall₂ Block.Alike ((draft.blocks.map Block.pieces).map bareBlock)
        (Row.blocks id ['\n'] tail headRows upper ++ others) := by
      have head : (Row.blocks id ['\n'] tail headRows upper).map Block.pieces = upper :=
        Row.map_pieces_blocks fitsHead
      rw [← pieces, List.map_append]
      nth_rewrite 1 [← head]
      rw [← map_bare]
      refine List.rel_append (List.forall₂_map_left_iff.mpr ?_) alike
      exact List.forall₂_same.mpr fun block _ => alike_refl (solids block.pieces)
    rw [List.map_map, List.forall₂_map_left_iff] at same
    exact same
  obtain ⟨sheet, blocks, outline, readable, opens⟩ :=
    Sheet.exists_alike all laid.areBlocks drawable.readable drawable.opens
  rw [← blocks] at laid
  obtain ⟨file, parsed, describes, tagged, _, lines⟩ := exists_parse coded laid readable opens
  exact ⟨sheet, file, others, parsed, ⟨coded, laid, describes, tagged, lines⟩, outline, blocks⟩

-----------------------------------------------------------------------------------------
-- The lines of the header
-----------------------------------------------------------------------------------------

theorem Sheet.length_head (frame? : Option Frame) (upper : List Part)
    : (Sheet.head frame? upper).length
      = (frame?.map fun frame => frame.before.length).elim 0 (· + 1) + upper.length := by
  cases frame? with
  | none => simp [Sheet.head]
  | some frame =>
      simp [Sheet.head]
      omega

section

variable {frame? frame?' : Option Frame} {front middle back front' middle' back' : List Part}

theorem isTop_of_essences (frames : frame?' = none ↔ frame? = none)
    (same : front'.map Part.essence = front.map Part.essence) (top : IsTop frame? front)
    : IsTop frame?' front' := by
  cases frame? with
  | none =>
      obtain rfl := frames.mpr rfl
      exact Part.forall_of_essences (·.1 = true) same top
  | some frame =>
      obtain ⟨frame', rfl⟩ := Option.ne_none_iff_exists'.mp (mt frames.mp (Option.some_ne_none _))
      obtain rfl : front = [] := top
      exact List.map_eq_nil_iff.mp same

theorem endsTop_of_essences (frames : frame?' = none ↔ frame? = none)
    (same : front'.map Part.essence = front.map Part.essence)
    (imports : middle'.map Part.essence = middle.map Part.essence)
    (same' : back'.map Part.essence = back.map Part.essence) (ends : EndsTop frame? front middle back)
    : EndsTop frame?' front' middle' back' := by
  intro flat none all part first
  subst none
  have none : middle = [] := List.map_eq_nil_iff.mp imports.symm
  have stops := ends (frames.mp flat) none (Part.forall_of_essences (·.1 = true) same.symm all)
  cases back' with
  | nil => cases first
  | cons part' back' =>
      obtain rfl := Option.some.inj first
      obtain ⟨part, others, rfl, essence, later⟩ := List.map_eq_cons_iff.mp same'.symm
      exact essence ▸ stops part rfl

end

/-- The header of rows that are read again ends with the row of its last block. -/
theorem printedEnd_of_rows {edit : Edit} {source markup tag tail : Text} {comment? : Option Text}
    {rows : List Row} {others : List Block} {sheet : Sheet} {file : SourceFile}
    {frame? : Option Frame} {front middle back : List Part}
    (drawn
      : Drawn source markup tag (printTrailing comment? ++ (Row.printAll id ['\n'] rows ++ tail))
          sheet file)
    (outline : sheet.outline = (⟨frame?, front ++ (middle ++ back)⟩ : Sheet).outline)
    (blocks
      : sheet.blocks
        = Row.blocks id ['\n'] tail rows
            ((Sheet.head frame? (front ++ middle)).map Block.pieces) ++ others)
    (single : ∀ comment ∈ comment?, '\n' ∉ comment)
    (fits
      : List.Forall₂ Row.Fits rows ((Sheet.head frame? (front ++ middle)).map Block.pieces))
    (tidy : ∀ row ∈ rows, row.IsTidy)
    (solid : ∀ block ∈ Sheet.head frame? (front ++ middle), IsSolid block.pieces)
    (imports : ∀ part ∈ middle, part.essence.2.1.isSome = true) (plain : NoImports front)
    (plain' : NoImports back) (ends : EndsTop frame? front middle back)
    (counted : edit.preceding = front.length ∨ edit.preceding = 0 ∧ IsTop frame? front)
    : edit.printedEnd file
      = (markup ++ tag ++ (printTrailing comment? ++ Row.printAll id ['\n'] rows)).count '\n' := by
  -- The parts of the file are read as those of the draft.
  obtain ⟨frame?', inside⟩ := sheet
  obtain ⟨sizes, parts⟩ := Prod.mk.inj outline
  have frames : frame?' = none ↔ frame? = none := by
    rw [← Option.map_eq_none_iff (f := fun frame : Frame => frame.before.length), sizes,
      Option.map_eq_none_iff]
  rw [List.map_append, List.map_append] at parts
  obtain ⟨front', rest, rfl, sameFront, sameRest⟩ := List.map_eq_append_iff.mp parts
  obtain ⟨middle', back', rfl, sameMiddle, sameBack⟩ := List.map_eq_append_iff.mp sameRest
  have lengths : front'.length = front.length := by
    simpa using congrArg List.length sameFront
  have lengths' : middle'.length = middle.length := by
    simpa using congrArg List.length sameMiddle
  have counted' : edit.preceding = front'.length ∨ edit.preceding = 0 ∧ IsTop frame?' front' := by
    rw [lengths]
    exact counted.imp_right fun ⟨zero, top⟩ => ⟨zero, isTop_of_essences frames sameFront top⟩
  -- The blocks of the header are those of the rows.
  have pieces : (Row.blocks id ['\n'] tail rows _).map Block.pieces = _ :=
    Row.map_pieces_blocks fits
  have head : Sheet.head frame?' (front' ++ middle')
      = Row.blocks id ['\n'] tail rows
          ((Sheet.head frame? (front ++ middle)).map Block.pieces) := by
    have length := congrArg List.length pieces
    rw [List.length_map, List.length_map, Sheet.length_head, List.length_append, ← lengths,
      ← lengths', ← sizes, ← List.length_append, ← Sheet.length_head] at length
    rw [← List.append_assoc, Sheet.blocks_append] at blocks
    exact (List.append_inj blocks length.symm).1
  have solid' : ∀ block ∈ Sheet.head frame?' (front' ++ middle'), IsSolid block.pieces := by
    intro block listed
    have inside : block.pieces ∈ (Sheet.head frame? (front ++ middle)).map Block.pieces := by
      rw [← pieces, ← head]
      exact List.mem_map_of_mem listed
    obtain ⟨block', listed', same⟩ := List.mem_map.mp inside
    exact same ▸ solid block' listed'
  have ended : edit.printedEnd file = _ := drawn.printedEnd_eq solid'
    (Part.forall_of_essences (·.2.1.isSome = true) sameMiddle imports)
    (Part.forall_of_essences (·.2.1.isSome = false) sameFront plain)
    (Part.forall_of_essences (·.2.1.isSome = false) sameBack plain')
    (endsTop_of_essences frames sameFront sameMiddle sameBack ends) counted'
  rw [ended, head, Text.lineBefore, Row.count_behindAll single fits tidy, drawn.coded.whole]
  simp only [List.count_append]
  omega

theorem ends_of_isOpenTag {tag : Text} (isTag : IsOpenTag tag)
    : tag.head? = some '<' ∧ tag.getLast? ≠ some '\r' := by
  rcases isTag with rfl | ⟨word, folded, rfl⟩
  · simp
  · refine ⟨rfl, fun last => ?_⟩
    have listed : '\r' ∈ word := by simpa using List.mem_of_getLast? last
    have lowered : Char.toLower '\r' ∈ Text.lower word := List.mem_map_of_mem listed
    rw [folded] at lowered
    exact absurd lowered (by decide)

/-- The lines of a header of rows with another line ending. -/
theorem headerLines_of_rows {ending tag : Text} {comment? : Option Text} {rows : List Row}
    (markup back : Text) (isEnding : Text.IsEnding ending) (isTag : IsOpenTag tag)
    (noted : ∀ comment ∈ comment?, Row.IsNote comment ∧ '\n' ∉ comment)
    (tidy : ∀ row ∈ rows, row.IsTidy) (keeps : ∀ row ∈ rows, row.Keeps ending)
    : headerLines ending
        (markup ++ tag ++ (printTrailing comment? ++ Row.printAll id ['\n'] rows) ++ '\n' :: back)
        ((markup ++ tag ++ (printTrailing comment? ++ Row.printAll id ['\n'] rows)).count '\n')
      = Text.reline ending markup ++ tag
        ++ (printTrailing (comment?.map (Text.reline ending))
          ++ Row.printAll (Text.reline ending) ending rows) := by
  obtain ⟨tagStart, tagEnd⟩ := ends_of_isOpenTag isTag
  have trailingEnd : (printTrailing comment?).getLast? ≠ some '\r' := by
    have last := Row.getLast?_trailing fun comment here => (noted comment here).1
    rwa [Option.map_id_fun, id] at last
  have rowsEnd := Row.getLast?_printAll isEnding tidy keeps
  have wholeEnd
      : (markup ++ tag ++ (printTrailing comment? ++ Row.printAll id ['\n'] rows)).getLast?
        ≠ some '\r' := by
    refine Row.getLast?_append_ne ?_ (Row.getLast?_append_ne trailingEnd rowsEnd)
    rwa [List.getLast?_append_of_ne_nil]
    rintro rfl
    cases tagStart
  have trailing : Text.reline ending (printTrailing comment?)
      = printTrailing (comment?.map (Text.reline ending)) := by
    have single : Text.reline ending (printTrailing (comment?.map id)) = _ :=
      Row.reline_trailing fun comment here => (noted comment here).2
    rwa [Option.map_id_fun, id] at single
  rw [headerLines, Text.take_lines]
  change Text.relined ending _ = _
  rw [Text.relined_eq_reline wholeEnd, List.append_assoc, Text.reline_append ?_,
    Row.reline_append_of_ne tagEnd, Text.reline_of_not_mem (not_mem_of_isOpenTag isTag),
    Row.reline_append_of_ne trailingEnd, trailing, Row.reline_printAll isEnding tidy keeps,
    List.append_assoc]
  intro _ first
  rw [List.head?_append, tagStart] at first
  cases first

-----------------------------------------------------------------------------------------
-- Printed files
-----------------------------------------------------------------------------------------

section

variable {source markup tag code ending : Text} {comment? : Option Text}
  {headRows footRows : List Row} {frame? : Option Frame} {front middle back : List Part}

/-- A file as blocks is those through its imports and those behind them. -/
theorem map_pieces_append {all : List (List Piece)} {others : List Block}
    (head : all = (Sheet.head frame? (front ++ middle)).map Block.pieces)
    (foot : others.map Block.pieces = (Sheet.foot frame? back).map Block.pieces)
    : all ++ others.map Block.pieces
      = (⟨frame?, front ++ (middle ++ back)⟩ : Sheet).blocks.map Block.pieces := by
  rw [head, foot, ← List.append_assoc, Sheet.blocks_append, List.map_append]

/-- The lines of the header of a printed file, with another line ending. -/
theorem headerLines_of_print {edit : Edit} {reparsed : SourceFile} {printed : Text}
    (coded : Coded source markup tag code)
    (drawable : Sheet.IsDrawable ⟨frame?, front ++ (middle ++ back)⟩)
    (printed_eq
      : printed
        = markup ++ tag ++ (printTrailing comment?
          ++ (Row.printAll id ['\n'] (headRows ++ footRows) ++ ['\n'])))
    (noted : ∀ comment ∈ comment?, Row.IsNote comment ∧ '\n' ∉ comment)
    (fitsHead
      : List.Forall₂ Row.Fits headRows
          ((Sheet.head frame? (front ++ middle)).map Block.pieces))
    (solid : ∀ block ∈ Sheet.head frame? (front ++ middle), IsSolid block.pieces)
    (quiet : ∀ block ∈ Sheet.head frame? (front ++ middle), ¬OpensComment block.pieces)
    (holdsFoot : List.Forall₂ Row.Holds footRows ((Sheet.foot frame? back).map Block.pieces))
    (hushed : Row.AreHushed footRows)
    (texts
      : ((Sheet.foot frame? back).map Block.pieces).Pairwise
          fun pieces other => OpensComment pieces → EndsNoComment (joined other))
    (each
      : ∀ pieces ∈ (Sheet.foot frame? back).map Block.pieces, IsSolid pieces ∨ IsFinal pieces)
    (stays
      : ((Sheet.foot frame? back).map Block.pieces).Pairwise fun pieces _ => ¬RunsOn pieces)
    (tidy : ∀ row ∈ headRows ++ footRows, row.IsTidy)
    (imports : ∀ part ∈ middle, part.essence.2.1.isSome = true) (plain : NoImports front)
    (plain' : NoImports back) (ends : EndsTop frame? front middle back)
    (counted : edit.preceding = front.length ∨ edit.preceding = 0 ∧ IsTop frame? front)
    (isEnding : Text.IsEnding ending) (keeps : ∀ row ∈ headRows, row.Keeps ending)
    (reread : parse printed = .ok reparsed)
    : headerLines ending printed (edit.printedEnd reparsed)
      = Text.reline ending markup ++ tag
        ++ (printTrailing (comment?.map (Text.reline ending))
          ++ Row.printAll (Text.reline ending) ending headRows) := by
  have newline : Text.IsEnding ['\n'] := .inl rfl
  have tidyHead : ∀ row ∈ headRows, row.IsTidy := fun row listed =>
    tidy row (List.mem_append_left _ listed)
  -- What is printed behind the header starts with a line feed.
  obtain ⟨tail, behind⟩ : ∃ tail, Row.printAll id ['\n'] footRows ++ ['\n'] = '\n' :: tail := by
    cases footRows with
    | nil => exact ⟨[], rfl⟩
    | cons row rows =>
        rw [Row.printAll, List.flatMap_cons, Row.print_id, Row.breaks_succ]
        exact ⟨_, rfl⟩
  have breaks : Row.BreaksLine ('\n' :: tail) := ⟨['\n'], tail, newline, rfl⟩
  rw [Row.printAll_append, List.append_assoc (Row.printAll id ['\n'] headRows), behind]
    at printed_eq
  subst printed_eq
  obtain ⟨sheet, file, others, parsed, drawn, outline, blocks⟩ :=
    exists_drawn_of_held_rows (coded.recode_rows newline breaks comment?)
      (fun comment here => (noted comment here).1) fitsHead holdsFoot tidy
      (List.forall_mem_map.mpr quiet) hushed texts each stays behind (map_pieces_append rfl rfl)
      drawable
  obtain rfl := Except.ok.inj (parsed.symm.trans reread)
  rw [printedEnd_of_rows drawn outline blocks (fun comment here => (noted comment here).2) fitsHead
    tidyHead solid imports plain plain' ends counted]
  rw [← headerLines_of_rows markup tail isEnding coded.isTag noted tidyHead keeps]
  simp only [List.append_assoc]

/-- The header of a printed file before the body of a source is read as the printed file is. -/
theorem exists_reread {body : Text} (coded : Coded source markup tag code)
    (drawable : Sheet.IsDrawable ⟨frame?, front ++ (middle ++ back)⟩)
    (noted : ∀ comment ∈ comment?, Row.IsNote comment ∧ '\n' ∉ comment)
    (fitsHead
      : List.Forall₂ Row.Fits headRows
          ((Sheet.head frame? (front ++ middle)).map Block.pieces))
    (tidy : ∀ row ∈ headRows, row.IsTidy)
    (quiet : ∀ block ∈ Sheet.head frame? (front ++ middle), ¬OpensComment block.pieces)
    (isEnding : Text.IsEnding ending)
    (lays : Lays body (Sheet.foot frame? back))
    : ∃ sheet again,
        parse
            (Text.reline ending markup ++ tag
              ++ (printTrailing (comment?.map (Text.reline ending))
                ++ Row.printAll (Text.reline ending) ending headRows)
              ++ ending ++ if body = [] then [] else ending ++ body)
          = .ok again
        ∧ again.hasCode = true
        ∧ Describes
            (Text.reline ending markup ++ tag
              ++ (printTrailing (comment?.map (Text.reline ending))
                ++ Row.printAll (Text.reline ending) ending headRows)
              ++ ending ++ if body = [] then [] else ending ++ body)
            sheet again.items
        ∧ sheet.bare = (⟨frame?, front ++ (middle ++ back)⟩ : Sheet).bare := by
  obtain ⟨rest, behind⟩ : ∃ rest, (if body = [] then [] else ending ++ body) = rest := ⟨_, rfl⟩
  have spaces := Row.isSpace_of_mem_ending isEnding
  have laysRest : Lays (ending ++ rest) (Sheet.foot frame? back) := by
    refine (lays_spaces_iff spaces).mpr ?_
    rw [← behind]
    split
    · rename_i empty
      rwa [← empty]
    · exact (lays_spaces_iff spaces).mpr lays
  have breaks : Row.BreaksLine (ending ++ rest) := ⟨ending, rest, isEnding, rfl⟩
  have broken
      : Row.BreaksLine (Row.printAll (Text.reline ending) ending headRows ++ (ending ++ rest)) :=
    Row.breaksLine_printAll isEnding breaks
  obtain ⟨c, more, space, first⟩ := exists_space broken (comment?.map (Text.reline ending))
  have coded' := coded.recode_reline isEnding space more
  rw [← first] at coded'
  obtain ⟨sheet, again, parsed, drawn, bare, _⟩ :=
    exists_drawn_of_rows coded' isEnding (fun comment given => given.reline isEnding)
      (fun comment here => (noted comment here).1) fitsHead tidy (List.forall_mem_map.mpr quiet)
      breaks laysRest (map_pieces_append rfl rfl) drawable
  obtain ⟨_, tagged⟩ := drawn.tagged
  refine ⟨sheet, again, ?_, by rw [SourceFile.hasCode, tagged]; rfl, ?_, bare⟩
  · rw [behind]
    simpa only [List.append_assoc] using parsed
  · rw [behind]
    simpa only [List.append_assoc] using drawn.describes

end

end ImportHeader
