import ImportHeader.Proofs.Header.Recast

/-! What stands behind the header of a source: the rest of its line with the comment of the header,
blank lines, and the body. The blocks behind the header are those of the body.
-/

namespace ImportHeader

open ImportHeader.Lexer ImportHeader.Parser

/-- The blanks that trimming takes from a text. -/
def Text.margins (text : Text) : Text :=
  text.takeWhile isBlank ++ (trimStart text).rtakeWhile isBlank

theorem Text.exists_trim (text : Text)
    : ∃ front back, text = front ++ (trim text ++ back) ∧ margins text = front ++ back
        ∧ ∀ c ∈ back, isBlank c = true := by
  refine ⟨text.takeWhile isBlank, (trimStart text).rtakeWhile isBlank, ?_, rfl,
    fun c listed => List.mem_rtakeWhile_imp listed⟩
  rw [trim, trimEnd_eq_rdropWhile, List.rdropWhile_append_rtakeWhile, trimStart,
    List.takeWhile_append_dropWhile]

/-- A line with nothing on it but a comment between white space changes no block. -/
theorem Lexer.lays_line_iff {line rest : Text} (plain : ∀ c ∈ line.margins, isSpace c = true)
    (single : '\n' ∉ line) (bare : line.trim = [] ∨ IsComment line.trim)
    (ends : rest = [] ∨ ∃ back, rest = '\n' :: back)
    {blocks : List Block}
    : Lays (line ++ rest) blocks ↔ Lays rest blocks := by
  obtain ⟨front, back, whole, margins, blank⟩ := line.exists_trim
  rw [margins] at plain
  have spaces : ∀ c ∈ front, isSpace c = true := fun c listed =>
    plain c (List.mem_append_left _ listed)
  have spaces' : ∀ c ∈ back, isSpace c = true := fun c listed =>
    plain c (List.mem_append_right _ listed)
  clear margins
  generalize line.trim = comment at whole bare
  subst whole
  rw [List.append_assoc, lays_spaces_iff spaces]
  rcases bare with rfl | isLine | isBlock
  · rw [List.nil_append, lays_spaces_iff spaces']
  · have longer : IsLineComment (comment ++ back) := by
      refine isLine.append (fun listed => single (by simp [listed])) fun bracket => ?_
      have bracketed := blank _ (List.mem_of_mem_head? bracket)
      exact absurd bracketed (by decide)
    exact lays_comment_iff (.inl longer) (ends.imp_right fun broken => .inl broken)
  · obtain ⟨kind, isComment, stands⟩ := stands_of_isBlockComment isBlock
    rw [List.append_assoc, lays_piece_iff (isTrivia_of_isComment isComment) (stands _),
      lays_spaces_iff spaces']

-----------------------------------------------------------------------------------------
-- The comment of the header
-----------------------------------------------------------------------------------------

namespace SourceFile

variable {file : SourceFile}

/-- The statements of the import scope are tidy if all of the file is. -/
theorem isTidy_importScope (tidy : ∀ item ∈ file.items, item.IsTidy)
    : ∀ stmt ∈ file.importScope, stmt.IsTidy := by
  intro stmt listed
  unfold importScope at listed
  split at listed
  · rename_i space first
    obtain ⟨item, here, same⟩ := List.exists_of_findSome?_eq_some first
    cases item with
    | plain stmt => cases same
    | scope space =>
        obtain rfl := Option.some.inj same
        exact Namespace.IsNoted.stmts (tidy _ here) stmt listed
  · obtain ⟨item, here, same⟩ := List.mem_filterMap.mp listed
    cases item with
    | plain stmt =>
        obtain rfl := Option.some.inj same
        exact tidy _ here
    | scope space => cases same

/-- The comment of the header is a whole comment on one line. -/
theorem isNote_of_headerRegion? {tag : OpenTag} {region : HeaderRegion}
    (tagged : file.openTag? = some tag)
    (noted : ∀ comment ∈ tag.comment?, Row.IsNote comment ∧ '\n' ∉ comment)
    (tidy : ∀ item ∈ file.items, item.IsTidy) (header : file.headerRegion? = some region)
    : ∀ comment ∈ region.trailing?, Row.IsNote comment ∧ '\n' ∉ comment := by
  have ofStmt {stmt : Stmt} (isTidy : stmt.IsTidy) (here : file.regionAfterStmt? stmt = some region)
      : ∀ comment ∈ region.trailing?, Row.IsNote comment ∧ '\n' ∉ comment := by
    obtain ⟨span, _, rfl⟩ := Option.map_eq_some_iff.mp here
    exact isTidy.trailing
  simp only [headerRegion?, tagged, Option.bind_eq_bind, Option.bind_some] at header
  split at header
  · rename_i stmt last
    have listed := List.mem_reverse.mp (List.mem_of_find?_eq_some last)
    exact ofStmt (isTidy_importScope tidy stmt listed) header
  split at header
  · rename_i space first
    obtain rfl := Option.some.inj header
    obtain ⟨item, here, same⟩ := List.exists_of_findSome?_eq_some first
    cases item with
    | plain stmt => cases same
    | scope space =>
        obtain rfl := Option.some.inj same
        exact Namespace.IsNoted.header (tidy _ here)
  split at header
  · rename_i stmt last
    have member := List.takeWhile_subset _ (List.mem_of_getLast? last)
    obtain ⟨item, here, same⟩ := List.mem_filterMap.mp member
    cases item with
    | plain stmt =>
        obtain rfl := Option.some.inj same
        exact ofStmt (tidy _ here) header
    | scope space => cases same
  · obtain rfl := Option.some.inj header
    exact noted

/-- What stands behind a header on its last line, with the blanks around it. -/
def restOfLine (file : SourceFile) (source : Text) (region : HeaderRegion) : Text :=
  match file.lines.lineSpan? region.line with
  | some line => source.slice region.stop line.stop
  | none => []

theorem behindHeader_eq (file : SourceFile) (source : Text) (region : HeaderRegion)
    : file.behindHeader source region = (file.restOfLine source region).trim := by
  unfold behindHeader restOfLine
  cases file.lines.lineSpan? region.line with
  | none => rfl
  | some line => rfl

theorem restOfLine_eq {front line tail : Text} {region : HeaderRegion}
    (lines : file.lines = LineIndex.ofText (front ++ line ++ tail))
    (place : region.line = front.count '\n' ∧ region.stop = front.size) (single : '\n' ∉ line)
    (ends : tail = [] ∨ ∃ back, tail = '\n' :: back)
    : file.restOfLine (front ++ line ++ tail) region = line := by
  obtain ⟨start, span⟩ : ∃ start, (LineIndex.ofText (front ++ line ++ tail)).lineSpan?
      (front.count '\n') = some ⟨start, Text.size (front ++ line)⟩ :=
    LineIndex.lineSpan?_of_append single ends
  rw [restOfLine, lines, place.1, span]
  change Text.slice _ region.stop (Text.size (front ++ line)) = _
  rw [place.2, Text.size_append, Text.slice_append]

/-- Nothing but its comment stands behind a header that passes the check. -/
theorem trim_of_checkHeaderLine {source : Text} {region : HeaderRegion}
    (checked : file.checkHeaderLine source region = .ok ())
    : (file.restOfLine source region).trim = []
      ∨ region.trailing? = some (file.restOfLine source region).trim := by
  rw [checkHeaderLine, behindHeader_eq] at checked
  split at checked
  · rename_i passes
    rcases Bool.or_eq_true_iff.mp passes with none | comment
    · exact .inl (List.isEmpty_iff.mp none)
    · exact .inr (eq_of_beq comment)
  · cases checked

end SourceFile

-----------------------------------------------------------------------------------------
-- The body
-----------------------------------------------------------------------------------------

/-- The blocks behind the header are those of the body. -/
theorem Drawn.lays_body {source markup tag code : Text} {file given : SourceFile}
    {frame? : Option Frame} {upper lower : List Part} {region : HeaderRegion}
    (drawn : Drawn source markup tag code ⟨frame?, upper ++ lower⟩ file)
    (place : ∃ trailing?,
      region = regionBefore source (behindAll code (Sheet.head frame? upper)) trailing?)
    (noted : ∀ comment ∈ region.trailing?, Row.IsNote comment ∧ '\n' ∉ comment)
    (lines : given.lines = LineIndex.ofText source)
    (checked : given.checkHeaderLine source region = .ok ())
    (plain
      : ∀ c ∈ (file.restOfLine source region).margins ++ source.blankBehind region.line,
          isSpace c = true)
    : Lays (source.bodyBehind region.line) (Sheet.foot frame? lower) := by
  obtain ⟨trailing?, placed⟩ := place
  have lays := drawn.lays
  rw [Sheet.blocks_append] at lays
  obtain ⟨⟨inner, whole⟩, behind⟩ := Lays.behindAll lays
  generalize behindAll code (Sheet.head frame? upper) = rest at whole behind placed
  have coded := drawn.coded.whole
  rw [← whole, ← List.append_assoc] at coded
  generalize markup ++ tag ++ inner = front at coded
  subst coded
  have line_eq : region.line = front.count '\n' := by
    rw [placed, regionBefore, Text.lineBefore_append]
  have stop_eq : region.stop = front.size := by
    rw [placed, regionBefore, Text.size_append, Nat.add_sub_cancel]
  obtain ⟨line, ending, cuts, single, ends⟩ := Text.exists_behind front rest
  have spaces' : ∀ c ∈ (front ++ rest).blankBehind (front.count '\n'), isSpace c = true :=
    fun c listed => plain c (List.mem_append_right _ (line_eq ▸ listed))
  rw [line_eq]
  generalize Text.blankBehind (front ++ rest) (front.count '\n') = blanks at cuts ends spaces'
  generalize Text.bodyBehind (front ++ rest) (front.count '\n') = body at cuts ends ⊢
  have broken : ending ++ (blanks ++ body) = []
      ∨ ∃ back, ending ++ (blanks ++ body) = '\n' :: back := by
    rcases ends with rfl | ⟨rfl, rfl, rfl⟩
    · exact .inr ⟨_, rfl⟩
    · exact .inl rfl
  have lines' := drawn.lines
  subst cuts
  rw [← List.append_assoc] at lines lines' checked plain
  have rest_eq := SourceFile.restOfLine_eq lines ⟨line_eq, stop_eq⟩ single broken
  have rest_eq' := SourceFile.restOfLine_eq lines' ⟨line_eq, stop_eq⟩ single broken
  have bare := SourceFile.trim_of_checkHeaderLine checked
  rw [rest_eq] at bare
  rw [rest_eq'] at plain
  have spaces : ∀ c ∈ ending ++ blanks, isSpace c = true := by
    intro c listed
    rcases List.mem_append.mp listed with here | here
    · rcases ends with rfl | ⟨rfl, _⟩
      · rw [List.mem_singleton.mp here]
        decide
      · cases here
    · exact spaces' c here
  rw [lays_line_iff (fun c listed => plain c (List.mem_append_left _ listed)) single
    (bare.imp_right fun comment => (noted _ comment).1.1) broken, ← List.append_assoc,
    lays_spaces_iff spaces] at behind
  exact behind

end ImportHeader
