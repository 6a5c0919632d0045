import ImportHeader.Text.Blank
import Mathlib.Data.List.Basic

/-! Lines of a text with and without the line feeds that end them, and the part of a text
behind a line, cut into blank lines and a body.
-/

namespace ImportHeader

namespace Text

/-- Cutting a text at a test is the library's split. -/
theorem splitBy_eq_splitOnP (isSeparator : Char → Bool) (text : Text)
    : splitBy isSeparator text = text.splitOnP isSeparator := by
  induction text with
  | nil => rfl
  | cons c rest ih =>
      rw [splitBy, ih, List.splitOnP_cons_eq_if_modifyHead]
      obtain ⟨part, parts, cut⟩ :=
        List.exists_cons_of_ne_nil (List.splitOnP_ne_nil isSeparator rest)
      rw [cut]
      rfl

/-- The pieces of a text are those of the library's split. -/
theorem pieces_eq_splitOn (separator : Char) (text : Text)
    : pieces separator text = text.splitOn separator :=
  splitBy_eq_splitOnP _ text

theorem exists_pieces_cons (separator : Char) (text : Text)
    : ∃ first others, pieces separator text = first :: others :=
  List.exists_cons_of_ne_nil (splitBy_ne_nil _ text)

theorem pieces_cons (separator c : Char) (text : Text)
    : pieces separator (c :: text)
      = if c = separator then [] :: pieces separator text
        else (pieces separator text).modifyHead (c :: ·) := by
  rw [pieces_eq_splitOn, List.splitOn_cons_eq_if_modifyHead, ← pieces_eq_splitOn]
  simp only [beq_iff_eq]

theorem pieces_append (separator : Char) (front back : Text)
    : pieces separator (front ++ separator :: back)
      = pieces separator front ++ pieces separator back := by
  simp only [pieces_eq_splitOn]
  exact List.splitOn_append_cons_self front back

/-- A text without separators ends the last piece of every text that it ends. -/
theorem getLast?_pieces_append {separator : Char} {back : Text} (absent : separator ∉ back)
    (front : Text)
    : ∃ kept, (pieces separator (front ++ back)).getLast? = some (kept ++ back) := by
  induction front with
  | nil =>
      refine ⟨[], ?_⟩
      rw [List.nil_append, pieces_eq_splitOn, List.splitOn_eq_singleton absent]
      rfl
  | cons c front ih =>
      obtain ⟨kept, last⟩ := ih
      obtain ⟨first, others, cut⟩ := exists_pieces_cons separator (front ++ back)
      rw [cut] at last
      rw [List.cons_append, pieces_cons, cut]
      split
      · exact ⟨kept, last⟩
      · rw [List.modifyHead_cons]
        cases others with
        | nil =>
            obtain rfl := Option.some.inj last
            exact ⟨c :: kept, rfl⟩
        | cons second others => exact ⟨kept, last⟩

theorem lines_eq_splitOn (text : Text) : text.lines = text.splitOn '\n' :=
  pieces_eq_splitOn '\n' text

theorem lines_ne_nil (text : Text) : text.lines ≠ [] := by
  rw [lines_eq_splitOn]
  exact List.splitOn_ne_nil _ _

/-- A text is its lines with line feeds between them. -/
theorem intercalate_lines (text : Text) : List.intercalate ['\n'] text.lines = text := by
  rw [lines_eq_splitOn]
  exact List.intercalate_splitOn '\n'

/-- A line feed between two texts separates their lines. -/
theorem lines_append_newline (front back : Text)
    : lines (front ++ '\n' :: back) = front.lines ++ back.lines :=
  pieces_append '\n' front back

/-- No piece holds the separator. -/
theorem not_mem_of_mem_pieces {separator : Char} {text piece : Text}
    (member : piece ∈ pieces separator text)
    : separator ∉ piece := by
  induction text generalizing piece with
  | nil =>
      obtain rfl : piece = [] := by simpa [pieces, splitBy] using member
      simp
  | cons c rest ih =>
      rw [pieces_eq_splitOn, List.splitOn_cons_eq_if_modifyHead] at member
      split at member
      · rcases List.mem_cons.mp member with rfl | later
        · simp
        · exact ih (by rwa [pieces_eq_splitOn])
      · rename_i other
        obtain ⟨first, others, cut⟩ :=
          List.exists_cons_of_ne_nil (List.splitOn_ne_nil separator rest)
        have inside := @ih
        rw [pieces_eq_splitOn, cut] at inside
        rw [cut, List.modifyHead_cons, List.mem_cons] at member
        rcases member with rfl | later
        · have absent := inside (.head _)
          simp only [List.mem_cons, not_or]
          exact ⟨fun same => other (beq_iff_eq.mpr same.symm), absent⟩
        · exact inside (.tail _ later)

/-- No line holds a line feed. -/
theorem not_mem_of_mem_lines {text line : Text} (member : line ∈ text.lines) : '\n' ∉ line :=
  not_mem_of_mem_pieces member

/-- A text without a line feed is one line. -/
theorem lines_of_not_mem {text : Text} (absent : '\n' ∉ text) : text.lines = [text] := by
  rw [lines_eq_splitOn]
  exact List.splitOn_eq_singleton absent

/-- A text is one line, or it is a first line, a line feed and the other lines. -/
theorem lines_cases (text : Text)
    : '\n' ∉ text ∧ text.lines = [text]
      ∨ ∃ first back,
          text = first ++ '\n' :: back ∧ '\n' ∉ first ∧ text.lines = first :: lines back := by
  by_cases newline : '\n' ∈ text
  · obtain ⟨first, back, rfl, absent⟩ := List.eq_append_cons_of_mem newline
    refine .inr ⟨first, back, rfl, absent, ?_⟩
    rw [lines_append_newline, lines_of_not_mem absent]
    rfl
  · exact .inl ⟨newline, lines_of_not_mem newline⟩

/-- What stands before a text prolongs its first line. -/
theorem exists_lines_append {front : Text} (absent : '\n' ∉ front) (text : Text)
    : ∃ line others,
        (text = line ∨ ∃ back, text = line ++ '\n' :: back)
        ∧ lines (front ++ text) = (front ++ line) :: others := by
  rcases text.lines_cases with ⟨none, _⟩ | ⟨first, back, rfl, none, _⟩
  · exact ⟨text, [], .inl rfl, lines_of_not_mem (by simp [absent, none])⟩
  · refine ⟨first, lines back, .inr ⟨back, rfl⟩, ?_⟩
    rw [← List.append_assoc, lines_append_newline, lines_of_not_mem (by simp [absent, none])]
    rfl

-----------------------------------------------------------------------------------------
-- Lines with their line feeds
-----------------------------------------------------------------------------------------

/-- Lines with a line feed behind each but the last. -/
def terminate : List Text → List Text
  | [] => []
  | [last] => [last]
  | line :: next :: rest => (line ++ ['\n']) :: terminate (next :: rest)

/-- The lines of a text, each with the line feed that ends it. -/
def blocks (text : Text) : List Text :=
  terminate text.lines

theorem flatten_terminate (lines : List Text)
    : (terminate lines).flatten = List.intercalate ['\n'] lines := by
  induction lines using terminate.induct with
  | case1 => rfl
  | case2 last => simp [terminate]
  | case3 line next rest ih => simp [terminate, ih]

/-- The blocks of a text join to the text. -/
theorem flatten_blocks (text : Text) : text.blocks.flatten = text := by
  rw [blocks, flatten_terminate, intercalate_lines]

theorem drop_terminate (count : Nat) (lines : List Text)
    : (terminate lines).drop count = terminate (lines.drop count) := by
  induction lines using terminate.induct generalizing count with
  | case1 => simp [terminate]
  | case2 last => cases count <;> simp [terminate]
  | case3 line next rest ih =>
      cases count with
      | zero => rfl
      | succ count => simpa [terminate] using ih count

/-- A line feed is blank, so blank lines are blank blocks. -/
theorem allBlank_append_newline (line : Text)
    : allBlank (line ++ ['\n']) = allBlank line := by
  have newline : isBlank '\n' = true := by decide
  simp [allBlank, newline]

theorem dropWhile_terminate (lines : List Text)
    : (terminate lines).dropWhile allBlank = terminate (lines.dropWhile allBlank) := by
  induction lines using terminate.induct with
  | case1 => rfl
  | case2 last => cases blank : allBlank last <;> simp [terminate, blank]
  | case3 line next rest ih =>
      cases blank : allBlank line with
      | false =>
          rw [terminate, List.dropWhile_cons_of_neg (by simp [allBlank_append_newline, blank]),
            List.dropWhile_cons_of_neg (by simp [blank]), terminate]
      | true =>
          rw [terminate, List.dropWhile_cons_of_pos (by simp [allBlank_append_newline, blank]),
            List.dropWhile_cons_of_pos blank]
          exact ih

-----------------------------------------------------------------------------------------
-- The part of a text behind a line
-----------------------------------------------------------------------------------------

/-- The lines of a text through a given one, with their line feeds. -/
def throughLine (text : Text) (line : Nat) : Text :=
  (text.blocks.take (line + 1)).flatten

/-- The blank lines directly behind a given line, with their line feeds. -/
def blankBehind (text : Text) (line : Nat) : Text :=
  ((text.blocks.drop (line + 1)).takeWhile allBlank).flatten

/-- The text from the first line behind a given one that is not blank. -/
def bodyBehind (text : Text) (line : Nat) : Text :=
  ((text.blocks.drop (line + 1)).dropWhile allBlank).flatten

/-- The three parts join to the text. -/
theorem throughLine_append (text : Text) (line : Nat)
    : text.throughLine line ++ text.blankBehind line ++ text.bodyBehind line = text := by
  simp only [throughLine, blankBehind, bodyBehind, ← List.flatten_append, List.append_assoc]
  rw [List.takeWhile_append_dropWhile, List.take_append_drop, flatten_blocks]

/-- Nothing but blanks stands between a line and the body behind it. -/
theorem allBlank_blankBehind (text : Text) (line : Nat)
    : allBlank (text.blankBehind line) = true := by
  simp only [allBlank, blankBehind, List.all_flatten]
  exact List.all_takeWhile

/-- The body behind a line is made of the remaining lines, without blank ones before them. -/
theorem bodyBehind_eq_intercalate (text : Text) (line : Nat)
    : text.bodyBehind line
      = List.intercalate ['\n'] ((text.lines.drop (line + 1)).dropWhile allBlank) := by
  rw [bodyBehind, blocks, drop_terminate, dropWhile_terminate, flatten_terminate]

/-- Lines that start with one that is not blank do not join to nothing. -/
theorem intercalate_ne_nil {line : Text} {rest : List Text} (visible : allBlank line = false)
    : List.intercalate ['\n'] (line :: rest) ≠ [] := by
  have inhabited : line ≠ [] := by
    rintro rfl
    cases visible
  cases rest with
  | nil => simpa using inhabited
  | cons next rest => simp

/-- The first line of a body is not blank. -/
theorem allBlank_head_bodyBehind (text : Text) (line : Nat) (some : text.bodyBehind line ≠ [])
    : ∃ first rest, (text.bodyBehind line).lines = first :: rest ∧ allBlank first = false := by
  rw [bodyBehind_eq_intercalate] at some ⊢
  generalize remaining : (text.lines.drop (line + 1)).dropWhile allBlank = body at some ⊢
  cases body with
  | nil => exact absurd rfl some
  | cons first rest =>
      have visible : allBlank first = false := by
        have head := List.head?_dropWhile_not allBlank (text.lines.drop (line + 1))
        rw [remaining] at head
        simpa using head
      refine ⟨first, rest, ?_, visible⟩
      rw [lines_eq_splitOn]
      refine List.splitOn_intercalate '\n' ?_ (by simp)
      intro piece member present
      have kept : piece ∈ text.lines := by
        have dropped := (List.dropWhile_suffix allBlank).sublist.subset (remaining ▸ member)
        exact List.mem_of_mem_drop dropped
      exact not_mem_of_mem_lines kept present

end Text

end ImportHeader
