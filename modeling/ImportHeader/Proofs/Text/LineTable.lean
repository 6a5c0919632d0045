import ImportHeader.Proofs.Text.Cuts
import ImportHeader.Proofs.Text.Positions

/-! The table of the lines of a text, and the lines that a split at line feeds gives. Each line
stands where the lines before it end, and a position tells the line feeds before an offset and
the bytes behind the last of them.
-/

namespace ImportHeader

namespace Text

-----------------------------------------------------------------------------------------
-- Bytes
-----------------------------------------------------------------------------------------

/-- The bytes of the UTF-8 form of a text. -/
def bytes (text : Text) : List UInt8 :=
  (String.ofList text).toUTF8.data.toList

/-- The byte of a line feed. -/
def lineFeed : UInt8 :=
  10

theorem bytes_eq_flatMap (text : Text) : text.bytes = text.flatMap String.utf8EncodeChar := by
  rw [bytes, String.toUTF8, String.toByteArray_ofList, List.utf8Encode,
    List.toList_data_toByteArray]

theorem bytes_cons (c : Char) (text : Text)
    : bytes (c :: text) = String.utf8EncodeChar c ++ text.bytes := by
  rw [bytes_eq_flatMap, bytes_eq_flatMap, List.flatMap_cons]

theorem bytes_append (front back : Text) : bytes (front ++ back) = front.bytes ++ back.bytes := by
  simp only [bytes_eq_flatMap, List.flatMap_append]

/-- Offsets count the bytes of a text. -/
theorem length_bytes (text : Text) : text.bytes.length = text.size := by
  induction text with
  | nil => rfl
  | cons c rest ih =>
      rw [bytes_cons, List.length_append, String.length_utf8EncodeChar, ih, size_cons]

/-- The byte of a line feed is part of no other character: its value is small, and the bytes of
longer forms are large.
-/
theorem lineFeed_not_mem {c : Char} (other : c ≠ '\n') : lineFeed ∉ String.utf8EncodeChar c := by
  have apart : c.val.toNat ≠ 10 := fun same => other (Char.ext (UInt32.toNat.inj same))
  intro listed
  have code : ∃ byte ∈ String.utf8EncodeChar c, byte.toNat = 10 := ⟨_, listed, rfl⟩
  unfold String.utf8EncodeChar at code
  extract_lets value at code
  split at code
  · simp at code
    omega
  split at code
  · simp at code
    omega
  split at code
  · simp at code
    omega
  · simp at code
    omega

/-- The bytes before an offset hold as many line feeds as the characters that end before it. -/
theorem count_take_bytes (text : Text) (offset : Nat)
    : (text.bytes.take offset).count lineFeed = (takeBytes offset text).count '\n' := by
  induction text generalizing offset with
  | nil => cases offset <;> rfl
  | cons c rest ih =>
      have whole := String.length_utf8EncodeChar c
      rw [bytes_cons, takeBytes, List.take_append, List.count_append, whole]
      split
      · rename_i fits
        have here : (String.utf8EncodeChar c).count lineFeed = [c].count '\n' := by
          by_cases line : c = '\n'
          · subst line
            rfl
          · rw [List.count_eq_zero_of_not_mem (lineFeed_not_mem line),
              List.count_eq_zero_of_not_mem (by simpa [eq_comm] using line)]
        rw [List.take_of_length_le (by omega), here, ih, ← List.count_append,
          List.singleton_append]
      · rename_i cut
        -- A proper part of a character: none of a line feed, which is one byte.
        have absent : lineFeed ∉ (String.utf8EncodeChar c).take offset := by
          by_cases line : c = '\n'
          · have one : ('\n' : Char).utf8Size = 1 := rfl
            subst line
            rw [show offset = 0 by omega, List.take_zero]
            exact List.not_mem_nil
          · exact fun listed => lineFeed_not_mem line (List.mem_of_mem_take listed)
        rw [List.count_eq_zero_of_not_mem absent, Nat.sub_eq_zero_of_le (by omega)]
        rfl

-----------------------------------------------------------------------------------------
-- The lines before a line
-----------------------------------------------------------------------------------------

/-- The lines before a given one, each with its line feed. -/
def beforeLine (text : Text) (line : Nat) : Text :=
  (text.lines.take line).flatMap (· ++ ['\n'])

/-- The lines before a given one end with a line feed, unless there are none. -/
theorem beforeLine_ends (text : Text) (line : Nat)
    : text.beforeLine line = [] ∨ ∃ front, text.beforeLine line = front ++ ['\n'] := by
  unfold beforeLine
  rcases List.eq_nil_or_concat (text.lines.take line) with none | ⟨earlier, last, some⟩
  · exact .inl (by rw [none]; rfl)
  · refine .inr ⟨earlier.flatMap (· ++ ['\n']) ++ last, ?_⟩
    rw [some, List.concat_eq_append, List.flatMap_append, List.flatMap_singleton,
      List.append_assoc]

theorem count_flatMap_lineFeed {lines : List Text} (solid : ∀ piece ∈ lines, '\n' ∉ piece)
    : (lines.flatMap (· ++ ['\n'])).count '\n' = lines.length := by
  induction lines with
  | nil => rfl
  | cons piece lines ih =>
      obtain ⟨first, others⟩ := List.forall_mem_cons.mp solid
      rw [List.flatMap_cons, List.count_append, ih others, List.count_append,
        List.count_eq_zero_of_not_mem first, List.count_singleton_self, List.length_cons]
      omega

/-- As many line feeds stand before a line as lines. -/
theorem count_beforeLine {text : Text} {line : Nat} (exists_line : line ≤ text.lines.length)
    : (text.beforeLine line).count '\n' = line := by
  have solid : ∀ piece ∈ text.lines.take line, '\n' ∉ piece :=
    fun piece listed => not_mem_of_mem_lines (List.mem_of_mem_take listed)
  rw [beforeLine, count_flatMap_lineFeed solid, List.length_take, Nat.min_eq_left exists_line]

/-- A text around one of its lines. -/
theorem exists_around_line {text piece : Text} {line : Nat}
    (listed : text.lines[line]? = some piece)
    : ∃ tail, text = text.beforeLine line ++ piece ++ tail
        ∧ '\n' ∉ piece ∧ (tail = [] ∨ ∃ back, tail = '\n' :: back) := by
  obtain ⟨short, here⟩ := List.getElem?_eq_some_iff.mp listed
  have later : text.lines.drop line = piece :: text.lines.drop (line + 1) := by
    rw [List.drop_eq_getElem_cons short, here]
  have whole : text = text.beforeLine line
      ++ List.intercalate ['\n'] (piece :: text.lines.drop (line + 1)) := by
    have joined := flatten_blocks text
    rw [blocks, ← List.take_append_drop line text.lines, later,
      terminate_append (List.cons_ne_nil _ _), List.flatten_append, flatten_terminate,
      ← List.flatMap_def] at joined
    exact joined.symm
  have solid : '\n' ∉ piece := not_mem_of_mem_lines (List.mem_of_getElem? listed)
  cases others : text.lines.drop (line + 1) with
  | nil =>
      rw [others, List.intercalate_singleton] at whole
      exact ⟨[], by rw [List.append_nil]; exact whole, solid, .inl rfl⟩
  | cons next rest =>
      rw [others, List.intercalate_cons_cons, List.append_assoc] at whole
      exact ⟨_, by rw [List.append_assoc]; exact whole, solid, .inr ⟨_, rfl⟩⟩

end Text

namespace LineIndex

-----------------------------------------------------------------------------------------
-- The table
-----------------------------------------------------------------------------------------

/-- There is an entry for each line. -/
theorem lineCount_ofText (text : Text) : (ofText text).lineCount = text.lines.length := by
  rw [lineCount, ofText, List.length_cons, length_startsAfter, Text.length_lines]

/-- A line starts behind the lines before it. -/
theorem starts_ofText (text : Text) (line : Nat)
    : (ofText text).starts[line]? = text.lines[line]?.map fun _ => (text.beforeLine line).size := by
  cases listed : text.lines[line]? with
  | none =>
      have beyond := List.getElem?_eq_none_iff.mp listed
      rw [← lineCount_ofText] at beyond
      exact List.getElem?_eq_none beyond
  | some piece =>
      obtain ⟨short, _⟩ := List.getElem?_eq_some_iff.mp listed
      obtain ⟨tail, whole, _, _⟩ := Text.exists_around_line listed
      have count := Text.count_beforeLine (Nat.le_of_lt short)
      rw [List.append_assoc] at whole
      rw [Option.map_some]
      rcases text.beforeLine_ends line with none | ⟨front, some⟩
      · rw [none] at count ⊢
        rw [← count]
        rfl
      · -- The start is the last one that the line feeds before the line give.
        have starts : (ofText text).starts
            = (0 :: startsAfter 0 front) ++ ((front ++ ['\n']).size
              :: startsAfter (front ++ ['\n']).size (piece ++ tail)) := by
          rw [whole, some, ofText, startsAfter_append, startsAfter_append, Nat.zero_add]
          simp [startsAfter]
        have place : line = (0 :: startsAfter 0 front).length := by
          rw [List.length_cons, length_startsAfter, ← count, some, List.count_append]
          rfl
        rw [starts, some, place, List.getElem?_append_right (Nat.le_refl _), Nat.sub_self]
        rfl

/-- The span of a line starts where the table says. -/
theorem start_of_lineSpan? {index : LineIndex} {line : Nat} {span : Span}
    (found : index.lineSpan? line = some span)
    : index.starts[line]? = some span.start := by
  obtain ⟨start, first, rfl⟩ := Option.map_eq_some_iff.mp found
  rw [first]
  split <;> rfl

/-- The span of a line covers it, behind the lines before it. -/
theorem lineSpan?_ofText (text : Text) (line : Nat)
    : (ofText text).lineSpan? line
      = text.lines[line]?.map fun piece =>
          ⟨(text.beforeLine line).size, (text.beforeLine line).size + piece.size⟩ := by
  have first := starts_ofText text line
  cases listed : text.lines[line]? with
  | none => rw [lineSpan?, first, listed, Option.map_none, Option.map_none, Option.map_none]
  | some piece =>
      obtain ⟨short, _⟩ := List.getElem?_eq_some_iff.mp listed
      obtain ⟨tail, whole, solid, ends⟩ := Text.exists_around_line listed
      obtain ⟨start, span⟩ := @lineSpan?_of_append (text.beforeLine line) _ _ solid ends
      rw [← whole, Text.count_beforeLine (Nat.le_of_lt short), Text.size_append] at span
      rw [start_of_lineSpan? span, listed, Option.map_some, Option.some.injEq] at first
      obtain rfl : start = (text.beforeLine line).size := first
      exact span

/-- The span of a line cuts it out of the text, and its bytes out of the bytes of the text. -/
theorem slice_of_lineSpan? {text : Text} {line : Nat} {span : Span}
    (found : (ofText text).lineSpan? line = some span)
    : text.lines[line]? = some (text.slice span.start span.stop)
      ∧ (text.slice span.start span.stop).bytes
        = (text.bytes.take span.stop).drop span.start := by
  rw [lineSpan?_ofText] at found
  obtain ⟨piece, listed, rfl⟩ := Option.map_eq_some_iff.mp found
  obtain ⟨tail, whole, _, _⟩ := Text.exists_around_line listed
  generalize text.beforeLine line = front at whole
  have slice : text.slice front.size (front.size + piece.size) = piece := by
    rw [whole, Text.slice_append]
  refine ⟨by rw [slice, listed], ?_⟩
  have bytes : text.bytes = (front.bytes ++ piece.bytes) ++ tail.bytes := by
    rw [whole, Text.bytes_append, Text.bytes_append]
  rw [slice, bytes, List.take_left' (by rw [List.length_append, Text.length_bytes,
    Text.length_bytes]), List.drop_left' (Text.length_bytes front)]

-----------------------------------------------------------------------------------------
-- Positions
-----------------------------------------------------------------------------------------

/-- Every offset is on a line. -/
theorem lineAt_lt_lineCount (text : Text) (offset : Nat)
    : (ofText text).lineAt offset < (ofText text).lineCount := by
  have shorter := (List.takeWhile_prefix (l := (ofText text).starts)
    (p := fun start => decide (start ≤ offset))).length_le
  have some : 0 < (ofText text).starts.length := Nat.succ_pos _
  unfold lineAt lineCount
  omega

/-- The line of an offset is the number of line feeds among the bytes before it. -/
theorem line_positionAt (text : Text) (offset : Nat)
    : ((ofText text).positionAt offset).line = (text.bytes.take offset).count Text.lineFeed := by
  rw [Text.count_take_bytes, ← lineAt_eq_count]
  rfl

/-- An offset stands behind the lines before its line, and behind its column. -/
theorem column_positionAt (text : Text) (offset : Nat)
    : (text.beforeLine ((ofText text).positionAt offset).line).size
      + ((ofText text).positionAt offset).column = offset := by
  have short := lineAt_lt_lineCount text offset
  have first := starts_ofText text ((ofText text).lineAt offset)
  rw [lineCount_ofText] at short
  rw [List.getElem?_eq_getElem short, Option.map_some] at first
  have start : (ofText text).starts.getD ((ofText text).lineAt offset) 0
      = (text.beforeLine ((ofText text).lineAt offset)).size := by
    rw [List.getD_eq_getElem?_getD, first]
    rfl
  have le : (ofText text).starts.getD ((ofText text).lineAt offset) 0 ≤ offset :=
    getD_takeWhile_le 0 (startsAfter 0 text) (Nat.zero_le offset)
  rw [start] at le
  change _ + (offset - (ofText text).starts.getD ((ofText text).lineAt offset) 0) = offset
  rw [start]
  exact Nat.add_sub_cancel' le

/-- The position of an offset leads back to it. -/
theorem offset?_positionAt (text : Text) (offset : Nat)
    : (ofText text).offset? ((ofText text).positionAt offset) = some offset := by
  have short := lineAt_lt_lineCount text offset
  rw [lineCount_ofText] at short
  have column := column_positionAt text offset
  have first := starts_ofText text ((ofText text).positionAt offset).line
  rw [List.getElem?_eq_getElem (show ((ofText text).positionAt offset).line < _ from short),
    Option.map_some] at first
  rw [offset?, first, Option.map_some, column]

end LineIndex

end ImportHeader
