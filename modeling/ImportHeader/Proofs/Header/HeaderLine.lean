import ImportHeader.Header.Region
import ImportHeader.Proofs.Parser.Run
import ImportHeader.Proofs.Text.LineTable

/-! The line on which a header ends is a line of the source: the check of that line reads the
same piece of the source that stands before the lines of the body.
-/

namespace ImportHeader

theorem LineIndex.endLine_lt_lineCount (text : Text) (span : Span)
    : (ofText text).endLine span < (ofText text).lineCount := by
  unfold endLine
  split
  · exact lineAt_lt_lineCount text _
  · exact lineAt_lt_lineCount text _

namespace SourceFile

variable {file : SourceFile} {region : HeaderRegion}

/-- A header ends on the line on which some span of the file ends. -/
theorem exists_endLine_of_headerRegion? (header : file.headerRegion? = some region)
    : ∃ span, region.line = file.lines.endLine span := by
  have ofStmt {stmt : Stmt} (here : file.regionAfterStmt? stmt = some region)
      : ∃ span, region.line = file.lines.endLine span := by
    obtain ⟨span, _, rfl⟩ := Option.map_eq_some_iff.mp here
    exact ⟨span, rfl⟩
  obtain ⟨tag, _, header⟩ := Option.bind_eq_some_iff.mp header
  split at header
  · exact ofStmt header
  split at header
  · obtain rfl := Option.some.inj header
    exact ⟨_, rfl⟩
  split at header
  · exact ofStmt header
  · obtain rfl := Option.some.inj header
    exact ⟨_, rfl⟩

/-- The line that is checked behind a header is a piece of the source between line feeds. The
check reads it from the end of the header on, and the lines of the body are the pieces behind it.
-/
theorem exists_piece_of_headerRegion? {text : Text} (lines : file.lines = LineIndex.ofText text)
    (header : file.headerRegion? = some region)
    : ∃ span,
        file.lines.lineSpan? region.line = some span
        ∧ text.lines
          = text.lines.take region.line
            ++ text.slice span.start span.stop :: text.lines.drop (region.line + 1)
        ∧ file.behindHeader text region = Text.trim (text.slice region.stop span.stop) := by
  obtain ⟨ending, line⟩ := exists_endLine_of_headerRegion? header
  have short : region.line < text.lines.length := by
    rw [line, lines, ← LineIndex.lineCount_ofText]
    exact LineIndex.endLine_lt_lineCount text ending
  have found := LineIndex.lineSpan?_ofText text region.line
  rw [List.getElem?_eq_getElem short, Option.map_some, ← lines] at found
  refine ⟨_, found, ?_, ?_⟩
  · rw [lines] at found
    obtain ⟨_, piece⟩ := List.getElem?_eq_some_iff.mp (LineIndex.slice_of_lineSpan? found).1
    rw [← piece, ← List.drop_eq_getElem_cons short, List.take_append_drop]
  · rw [behindHeader, found]

end SourceFile

/-- Positions and spans by the table of lines agree with the split of a text at its line feeds. The
line of an offset is the number of line feed bytes before it, and its column counts the bytes
behind the lines before it; the position leads back to the offset, and later offsets have later
positions. The table has a line for each piece of the split, and the span of a line covers its
piece. So the line that is checked behind a header is the piece before those of the body.
-/
theorem LineIndex.ofText_agrees_with_lines (text : Text)
    : (∀ offset ≤ text.size,
        ((ofText text).positionAt offset).line = (text.bytes.take offset).count Text.lineFeed
        ∧ (text.beforeLine ((ofText text).positionAt offset).line).size
            + ((ofText text).positionAt offset).column
          = offset
        ∧ (ofText text).offset? ((ofText text).positionAt offset) = some offset)
      ∧ (∀ offset later, offset < later → later ≤ text.size
        → ((ofText text).positionAt offset).Before ((ofText text).positionAt later))
      ∧ (ofText text).lineCount = text.lines.length
      ∧ (∀ line,
        ((ofText text).lineSpan? line).isSome = true ↔ line < (ofText text).lineCount)
      ∧ (∀ line span, (ofText text).lineSpan? line = some span
        → text.lines[line]? = some (text.slice span.start span.stop)
          ∧ (text.slice span.start span.stop).bytes
            = (text.bytes.take span.stop).drop span.start)
      ∧ ∀ file region, parse text = .ok file → file.headerRegion? = some region
        → ∃ span,
            file.lines.lineSpan? region.line = some span
            ∧ text.lines
              = text.lines.take region.line
                ++ text.slice span.start span.stop :: text.lines.drop (region.line + 1)
            ∧ file.behindHeader text region = Text.trim (text.slice region.stop span.stop) := by
  refine ⟨fun offset _ => ?_, fun offset later less _ => positionAt_before text less,
    lineCount_ofText text, fun line => ?_, fun line span => slice_of_lineSpan?,
    fun file region parsed header => ?_⟩
  · exact ⟨line_positionAt text offset, column_positionAt text offset,
      offset?_positionAt text offset⟩
  · rw [lineSpan?_ofText, Option.isSome_map, lineCount_ofText, isSome_getElem?]
  · obtain ⟨_, _, lines, _⟩ := parse_eq_ok parsed
    exact SourceFile.exists_piece_of_headerRegion? lines header

/-- An offset inside a character of two bytes, behind a line that ends with a carriage return. -/
theorem LineIndex.ofText_agrees_with_lines_inside_letter
    : ∃ (text : Text) (file : SourceFile) (region : HeaderRegion) (span : Span),
        text = "<?php\r\nuse É;\n".toList
        ∧ 12 ≤ text.size
        ∧ (ofText text).positionAt 12 = ⟨1, 5⟩
        ∧ (text.bytes.take 12).count Text.lineFeed = 1
        ∧ (ofText text).offset? ⟨1, 5⟩ = some 12
        ∧ ((ofText text).positionAt 6).Before ⟨1, 5⟩
        ∧ (ofText text).lineSpan? 0 = some ⟨0, 6⟩
        ∧ text.lines[0]? = some (text.slice 0 6)
        ∧ parse text = .ok file
        ∧ file.headerRegion? = some region
        ∧ file.lines.lineSpan? region.line = some span
        ∧ text.lines
          = text.lines.take region.line
            ++ text.slice span.start span.stop :: text.lines.drop (region.line + 1) := by
  obtain ⟨file, parsed, tested⟩ := @exists_of_parses "<?php\r\nuse É;\n".toList
    (fun file => file.headerRegion?.isSome) (by decide +kernel)
  obtain ⟨region, header⟩ := Option.isSome_iff_exists.mp tested
  obtain ⟨offsets, later, _, _, spans, headers⟩ :=
    ofText_agrees_with_lines "<?php\r\nuse É;\n".toList
  obtain ⟨span, found, pieces, _⟩ := headers file region parsed header
  have within : 12 ≤ Text.size "<?php\r\nuse É;\n".toList := by decide
  have position : (ofText "<?php\r\nuse É;\n".toList).positionAt 12 = ⟨1, 5⟩ := by decide
  obtain ⟨line, _, back⟩ := offsets 12 within
  have before := later 6 12 (by decide) within
  rw [position] at line back before
  have first : (ofText "<?php\r\nuse É;\n".toList).lineSpan? 0 = some ⟨0, 6⟩ := by decide
  exact ⟨_, file, region, span, rfl, within, position, line.symm, back, before, first,
    (spans 0 _ first).1, parsed, header, found, pieces⟩

end ImportHeader
