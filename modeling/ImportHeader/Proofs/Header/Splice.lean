import ImportHeader.Proofs.Fix.Plan
import ImportHeader.Proofs.Parser.Run
import ImportHeader.Proofs.Text.Lines

/-! An edit replaces the lines of the header and keeps the body behind them to the byte. Only
blank lines between the header and the body are dropped.
-/

namespace ImportHeader

-----------------------------------------------------------------------------------------
-- The header of a parsed file
-----------------------------------------------------------------------------------------

/-- A statement read from a source has a place. -/
theorem Parser.span?_of_stmt {start stop : Cursor} {stmt : Stmt}
    (ran : Parser.stmt.run start = .ok (stmt, stop))
    : stmt.span?.isSome = true := by
  unfold Parser.stmt at ran
  obtain ⟨cursor, _, _, ran⟩ := bind_eq_ok.mp ran
  obtain ⟨kind, _, _, ran⟩ := bind_eq_ok.mp ran
  obtain ⟨span, _, _, ran⟩ := bind_eq_ok.mp ran
  obtain ⟨trailing, _, _, ran⟩ := bind_eq_ok.mp ran
  obtain ⟨rfl, _⟩ := pure_eq_ok.mp ran
  rfl

/-- Every statement at the top level of a parsed file has a place. -/
theorem Parser.span?_of_itemTurn {start stop : Cursor} {result : Parser.Turn Item}
    (ran : Parser.itemTurn.run start = .ok (result, stop))
    : ∀ item ∈ result.found, ∀ stmt, item.stmt? = some stmt → stmt.span?.isSome = true := by
  unfold Parser.itemTurn at ran
  obtain ⟨cursor, middle, _, ran⟩ := bind_eq_ok.mp ran
  cases next : cursor.token? 0 with
  | none =>
      rw [next] at ran
      obtain ⟨rfl, _⟩ := pure_eq_ok.mp ran
      simp [Turn.found]
  | some token =>
      simp only [next] at ran
      split at ran
      · simp at ran
      · split at ran
        · obtain ⟨space, _, _, ran⟩ := bind_eq_ok.mp ran
          obtain ⟨rfl, _⟩ := pure_eq_ok.mp ran
          simp [Turn.found, Item.stmt?]
        · obtain ⟨stmt, _, read, ran⟩ := bind_eq_ok.mp ran
          obtain ⟨rfl, _⟩ := pure_eq_ok.mp ran
          simpa [Turn.found, Item.stmt?] using Parser.span?_of_stmt read

/-- The header of a parsed file with code ends somewhere. -/
theorem SourceFile.headerRegion?_of_parse {source : Text} {file : SourceFile}
    (parsed : parse source = .ok file) (code : file.hasCode = true)
    : ∃ region, file.headerRegion? = some region := by
  obtain ⟨_, _, _, ⟨_, absent, _⟩ | ⟨tag, rest, comment?, stop, _, ran, opened⟩⟩ :=
    parse_eq_ok parsed
  · simp [SourceFile.hasCode, absent] at code
  have places : ∀ item ∈ file.items, ∀ stmt, item.stmt? = some stmt →
      stmt.span?.isSome = true := by
    unfold Parser.code at ran
    obtain ⟨_, _, _, ran⟩ := Parser.bind_eq_ok.mp ran
    obtain ⟨items, _, collected, done⟩ := Parser.bind_eq_ok.mp ran
    obtain ⟨same, _⟩ := Parser.pure_eq_ok.mp done
    obtain ⟨_, rfl⟩ := Prod.mk.inj same
    exact (Parser.turns_of_collect collected).forall Parser.span?_of_itemTurn
  unfold SourceFile.headerRegion?
  rw [opened]
  simp only [Option.bind_eq_bind, Option.bind_some]
  cases last : file.lastImport? with
  | some stmt =>
      have placed := List.find?_some last
      obtain ⟨span, place⟩ := Option.isSome_iff_exists.mp (Bool.and_eq_true_iff.mp placed).2
      exact ⟨file.regionAfter span stmt.trailing?,
        by simp only [SourceFile.regionAfterStmt?, place, Option.map_some]⟩
  | none =>
      cases file.firstNamespace? with
      | some space => exact ⟨_, rfl⟩
      | none =>
          cases declare : file.lastDeclare? with
          | none => exact ⟨_, rfl⟩
          | some stmt =>
              have member := List.takeWhile_subset _ (List.mem_of_getLast? declare)
              obtain ⟨item, listed, isStmt⟩ := List.mem_filterMap.mp member
              obtain ⟨span, place⟩ := Option.isSome_iff_exists.mp (places item listed stmt isStmt)
              exact ⟨file.regionAfter span stmt.trailing?,
                by simp only [SourceFile.regionAfterStmt?, place, Option.map_some]⟩

-----------------------------------------------------------------------------------------
-- The spliced text
-----------------------------------------------------------------------------------------

/-- The lines of a printed file through a given one, with the given line ending. -/
def headerLines (ending printed : Text) (last : Nat) : Text :=
  List.intercalate ending ((printed.lines.take (last + 1)).map Text.withoutReturn)

/-- A source whose first line ends with a carriage return and a line feed. -/
def startsWithReturn (source : Text) : Prop :=
  ∃ first rest, source = first ++ '\r' :: '\n' :: rest ∧ '\n' ∉ first

/-- A text is written with the line ending of the first line of a source: a carriage return
and a line feed if these end it, and else a line feed.
-/
def EndsLinesLike (source ending : Text) : Prop :=
  startsWithReturn source ∧ ending = ['\r', '\n'] ∨ ¬startsWithReturn source ∧ ending = ['\n']

/-- The first line ends with a carriage return and a line feed if the first of several lines
has a carriage return at its end.
-/
theorem startsWithReturn_iff {source : Text}
    : startsWithReturn source
      ↔ ∃ first next rest, source.lines = first :: next :: rest
          ∧ first.getLast? = some '\r' := by
  constructor
  · rintro ⟨first, rest, rfl, absent⟩
    obtain ⟨next, more, cut⟩ := List.exists_cons_of_ne_nil (Text.lines_ne_nil rest)
    refine ⟨first ++ ['\r'], next, more, ?_, by simp⟩
    have apart : first ++ '\r' :: '\n' :: rest = (first ++ ['\r']) ++ '\n' :: rest := by simp
    rw [apart, Text.lines_append_newline, cut,
      Text.lines_of_not_mem (by simpa using absent)]
    rfl
  · rintro ⟨first, next, rest, cut, last⟩
    obtain ⟨front, rfl⟩ := List.getLast?_eq_some_iff.mp last
    have absent := Text.not_mem_of_mem_lines (cut ▸ List.mem_cons_self)
    refine ⟨front, List.intercalate ['\n'] (next :: rest), ?_, by simp_all⟩
    rw [← Text.intercalate_lines source, cut, List.intercalate_cons_cons]
    simp

/-- The line ending of a source is that of its first line. -/
theorem endsLinesLike_lineEnding (source : Text)
    : EndsLinesLike source (lineEnding source) := by
  unfold EndsLinesLike lineEnding
  rw [startsWithReturn_iff]
  split
  · rename_i first next rest cut
    split
    · rename_i last
      exact .inl ⟨⟨first, next, rest, cut, last⟩, rfl⟩
    · rename_i last
      refine .inr ⟨?_, rfl⟩
      rintro ⟨first', next', rest', cut', last'⟩
      obtain ⟨rfl, _⟩ := List.cons.inj (cut.symm.trans cut')
      exact last last'
  · rename_i single
    refine .inr ⟨?_, rfl⟩
    rintro ⟨first, next, rest, cut, _⟩
    exact single first next rest cut

/-- A splice is the header, an empty line, and the body behind the old header. -/
theorem splice_eq (printed source : Text) (printedEnd sourceEnd : Nat)
    : splice printed printedEnd source sourceEnd
      = headerLines (lineEnding source) printed printedEnd ++ lineEnding source
        ++ if source.bodyBehind sourceEnd = [] then
            []
          else
            lineEnding source ++ source.bodyBehind sourceEnd := by
  unfold splice
  simp only [headerLines, Text.bodyBehind_eq_intercalate]
  congr 1
  cases remaining : (source.lines.drop (sourceEnd + 1)).dropWhile Text.allBlank with
  | nil => simp
  | cons first rest =>
      have visible : Text.allBlank first = false := by
        have head := List.head?_dropWhile_not Text.allBlank (source.lines.drop (sourceEnd + 1))
        rw [remaining] at head
        simpa using head
      simp [Text.intercalate_ne_nil visible]

/-- A splice ends with the body behind the old header. -/
theorem bodyBehind_suffix_splice (printed source : Text) (printedEnd sourceEnd : Nat)
    : source.bodyBehind sourceEnd <:+ splice printed printedEnd source sourceEnd := by
  rw [splice_eq]
  split
  · rename_i empty
    rw [empty]
    exact List.nil_suffix
  · rw [← List.append_assoc]
    exact List.suffix_append _ _

/-- A text that an edit of a source gives: the source is cut into the lines through the end of
its old header, the blank lines behind them, and the body; the text is the header of the
edited file, in the line ending of the source, and behind an empty line the same body.
-/
def IsSplice (source : Text) (file : SourceFile) (edited : Edit) (text : Text) : Prop :=
  ∃ region reparsed ending through blanks body,
    file.headerRegion? = some region
    ∧ parse edited.file.print = .ok reparsed
    ∧ EndsLinesLike source ending
    ∧ through = source.throughLine region.line
    ∧ blanks = source.blankBehind region.line
    ∧ source = through ++ blanks ++ body
    ∧ Text.allBlank blanks = true
    ∧ (body ≠ [] → ∃ first rest, body.lines = first :: rest ∧ Text.allBlank first = false)
    ∧ text
      = headerLines ending edited.file.print (edited.printedEnd reparsed) ++ ending
        ++ (if body = [] then [] else ending ++ body)
    ∧ body <:+ text

/-- An edit that finishes has passed the check of its header and prints a file that parses. -/
theorem Edit.finish_eq_ok {edit : Edit} {region : HeaderRegion} {text : Text}
    (header : edit.region? = some region) (finished : edit.finish = .ok text)
    : edit.file.checkHeaderLine edit.source region = .ok ()
      ∧ ∃ reparsed, parse edit.file.print = .ok reparsed
          ∧ text = splice edit.file.print (edit.printedEnd reparsed) edit.source region.line := by
  simp only [Edit.finish, header] at finished
  cases check : edit.file.checkHeaderLine edit.source region with
  | error error => simp [check, Except.mapError, bind, Except.bind] at finished
  | ok _ =>
      cases parsed : parse edit.file.print with
      | error error => simp [check, parsed, Except.mapError, bind, Except.bind] at finished
      | ok reparsed =>
          simp only [check, parsed, Except.mapError, bind, Except.bind, pure, Except.pure,
            Except.ok.injEq] at finished
          exact ⟨rfl, reparsed, rfl, finished.symm⟩

/-- An edit of a file with code that finishes gives a splice of its source. -/
theorem Edit.isSplice_of_finish {source text : Text} {file : SourceFile} {edited : Edit}
    {region : HeaderRegion} (header : file.headerRegion? = some region)
    (origin : edited.source = source ∧ edited.region? = some region)
    (finished : edited.finish = .ok text)
    : IsSplice source file edited text := by
  obtain ⟨rfl, kept⟩ := origin
  obtain ⟨_, reparsed, parsed, rfl⟩ := Edit.finish_eq_ok kept finished
  exact ⟨region, reparsed, lineEnding edited.source, _, _, edited.source.bodyBehind region.line,
    header, parsed, endsLinesLike_lineEnding _, rfl, rfl, (Text.throughLine_append _ _).symm,
    Text.allBlank_blankBehind _ _, Text.allBlank_head_bodyBehind _ _, splice_eq _ _ _ _,
    bodyBehind_suffix_splice _ _ _ _⟩

/-- Every edit of a source with code, and every run that changes its source, keeps the body of
the source to the byte and drops nothing behind the old header but blank lines.
-/
theorem edits_keep_body
    : (∀ source file names aliases text,
        parse source = .ok file
        → file.hasCode = true
        → editImports file names aliases source = .ok text
        → ∃ edit,
            Edit.start file source = .ok edit
            ∧ IsSplice source file (edit.apply names aliases) text)
      ∧ ∀ source index config outcome,
          fixImports source index config = .ok outcome
          → outcome.text = source
            ∨ ∃ file edit plan,
                Run source index config file edit plan
                ∧ IsSplice source file plan.edit.sort outcome.text := by
  refine ⟨?_, ?_⟩
  · intro source file names aliases text parsed code edited
    obtain ⟨region, header⟩ := SourceFile.headerRegion?_of_parse parsed code
    unfold editImports at edited
    cases started : Edit.start file source with
    | error error => simp [started, Except.mapError, bind, Except.bind] at edited
    | ok edit =>
        simp only [started, Except.mapError, bind, Except.bind] at edited
        obtain ⟨_, _, atSource, atRegion, _⟩ := Edit.start_eq_ok started
        have origin := edit.sameOrigin_apply names aliases
        exact ⟨edit, rfl, Edit.isSplice_of_finish header
          ⟨origin.source.trans atSource, origin.region?.trans (atRegion.trans header)⟩ edited⟩
  · intro source index config outcome done
    obtain rfl | ⟨file, edit, plan, run, carried⟩ := fixImports_eq_ok done
    · exact .inl rfl
    obtain ⟨region, header⟩ := SourceFile.headerRegion?_of_parse run.parsed run.code
    obtain ⟨_, _, atSource, atRegion, _⟩ := Edit.start_eq_ok run.started
    have origin := plan.edit.sameOrigin_sort.trans run.sameOrigin
    unfold Plan.outcome at carried
    split at carried
    · cases carried
      exact .inl rfl
    · cases finished : plan.edit.sort.finish with
      | error error => simp [finished, bind, Except.bind] at carried
      | ok text =>
          simp only [finished, bind, Except.bind, pure, Except.pure, Except.ok.injEq] at carried
          subst carried
          exact .inr ⟨file, edit, plan, run, Edit.isSplice_of_finish header
            ⟨origin.source.trans atSource, origin.region?.trans (atRegion.trans header)⟩ finished⟩

/-- A source that mixes line endings keeps its body when an import is removed. -/
theorem edits_keep_body_of_mixed_endings
    : ∃ source file edit text,
        source = "<?php\r\nuse B\\Y;\r\nuse A\\X;\r\n\r\n \r\nnew X(1);\nexit".toList
        ∧ parse source = .ok file
        ∧ Edit.start file source = .ok edit
        ∧ IsSplice source file (edit.apply [] ["Y".toList]) text
        ∧ text = "<?php\r\n\r\nuse A\\X;\r\n\r\nnew X(1);\nexit".toList := by
  obtain ⟨source, written⟩ : ∃ source : Text, source
      = "<?php\r\nuse B\\Y;\r\nuse A\\X;\r\n\r\n \r\nnew X(1);\nexit".toList := ⟨_, rfl⟩
  obtain ⟨file, parsed, checked⟩ : ∃ file, parse source = .ok file
      ∧ (file.hasCode
        && (editImports file [] ["Y".toList] source).toOption
          == some "<?php\r\n\r\nuse A\\X;\r\n\r\nnew X(1);\nexit".toList) = true := by
    rw [written]
    exact exists_of_parses _ (by decide +kernel)
  rw [Bool.and_eq_true, beq_iff_eq] at checked
  obtain ⟨code, result⟩ := checked
  cases edited : editImports file [] ["Y".toList] source with
  | error error =>
      rw [edited] at result
      cases result
  | ok text =>
      rw [edited] at result
      obtain ⟨edit, started, spliced⟩ :=
        edits_keep_body.1 source file [] ["Y".toList] text parsed code edited
      exact ⟨source, file, edit, text, written, parsed, started, spliced, Option.some.inj result⟩

end ImportHeader
