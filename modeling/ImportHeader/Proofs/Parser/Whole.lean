import ImportHeader.Proofs.Parser.Sheet
import ImportHeader.Proofs.Token.Markup

/-! Sources and the blocks of their code. A source whose code is laid out as blocks that can be
read parses to a file with these blocks, and a file that was parsed gives its blocks back.
-/

namespace ImportHeader

open ImportHeader.Lexer ImportHeader.Parser

variable {source markup tag code : Text} {file : SourceFile}

theorem Coded.splitMarkup_eq (coded : Coded source markup tag code)
    : splitMarkup (tokenize source)
      = (if markup.isEmpty then none else some markup,
          ⟨.openTag, tag, markup.size⟩ :: place (markup.size + tag.size) (cut code)) := by
  rw [coded.tokenize_eq]
  cases markup with
  | nil => rfl
  | cons c markup => rfl

/-- The cursor before the code of a source. -/
def codeStart (source markup tag code : Text) : Cursor :=
  .ofTokens source (place (markup ++ tag).size (cut code)) (markup ++ tag).size

theorem Coded.before (coded : Coded source markup tag code)
    : (codeStart source markup tag code).Before (markup ++ tag) (cut code) := by
  refine ⟨?_, rfl⟩
  rw [joined_cut]
  exact coded.whole

theorem Coded.parse_eq_ok_iff (coded : Coded source markup tag code)
    : parse source = .ok file
      ↔ ∃ comment? stop,
          Parser.code.run (codeStart source markup tag code) = .ok ((comment?, file.items), stop)
          ∧ file.markup?.getD [] = markup
          ∧ (file.markup? = if markup.isEmpty then none else some markup)
          ∧ file.openTag?
            = some ⟨tag, ⟨markup.size, (markup ++ tag).size⟩, comment?⟩
          ∧ file.docComments
            = ((tokenize source).filter fun token => token.kind == .docComment).map Token.text
          ∧ file.lines = LineIndex.ofText source := by
  have start : Cursor.ofTokens source (place (markup.size + tag.size) (cut code))
      (Token.stop ⟨.openTag, tag, markup.size⟩) = codeStart source markup tag code := by
    rw [codeStart, Text.size_append]
    rfl
  unfold parse
  simp only [coded.splitMarkup_eq, start]
  cases ran : Parser.code.run (codeStart source markup tag code) with
  | error error => simp [bind, Except.bind]
  | ok result =>
      obtain ⟨⟨comment?, items⟩, stop⟩ := result
      simp only [bind, Except.bind, pure, Except.pure, Except.ok.injEq, Prod.mk.injEq]
      constructor
      · rintro rfl
        refine ⟨comment?, stop, ⟨⟨rfl, rfl⟩, rfl⟩, ?_, rfl, ?_, rfl, rfl⟩
        · cases markup <;> rfl
        · rw [Text.size_append]
          rfl
      · rintro ⟨comment?', stop', ⟨⟨rfl, rfl⟩, rfl⟩, _, markup?, openTag?, docs, lines⟩
        obtain ⟨_, _, _, _, _⟩ := file
        simp only at markup? openTag? docs lines
        rw [markup?, openTag?, docs, lines, Text.size_append]
        rfl

/-- A source with an open tag has code. -/
theorem exists_coded {opening : OpenTag} (parsed : parse source = .ok file)
    (tagged : file.openTag? = some opening)
    : ∃ markup tag code, Coded source markup tag code := by
  refine Coded.exists_of_markupLength (Nat.lt_of_not_le fun long => ?_)
  have whole : source.take (markupLength source) = source := List.take_of_length_le long
  have none : source.drop (markupLength source) = [] := List.drop_of_length_le long
  obtain ⟨_, _, _, ⟨_, absent, _⟩ | ⟨tag, rest, comment?, stop, behind, _⟩⟩ := parse_eq_ok parsed
  · rw [absent] at tagged
    cases tagged
  · unfold tokenize at behind
    simp only [whole, none] at behind
    cases source with
    | nil => cases behind
    | cons c source => cases behind

/-- A source whose code is laid out as blocks that can be read parses. -/
theorem exists_parse {sheet : Sheet} (coded : Coded source markup tag code)
    (lays : Lays code sheet.blocks) (readable : Readable sheet)
    (opens : ∀ frame ∈ sheet.frame?, Opens frame.opening.pieces frame.name? frame.braced)
    : ∃ file, parse source = .ok file ∧ Describes source sheet file.items
        ∧ (∃ comment?, file.openTag?
            = some ⟨tag, ⟨markup.size, (markup ++ tag).size⟩, comment?⟩)
        ∧ file.docComments
          = ((tokenize source).filter fun token => token.kind == .docComment).map Token.text
        ∧ file.lines = LineIndex.ofText source := by
  obtain ⟨comment?, entered, commented⟩ := exists_trailing? (codeStart source markup tag code)
  have ahead := ahead_of_run_trailing? commented
  have reached := reaches_of_run commented
  obtain ⟨passed, rest, cuts, isGap, before⟩ := reached.before_of_ahead coded.before ahead
  have faces : Faces entered sheet.blocks :=
    ⟨_, rest, before, (spells_append_iff isGap).mp (cuts ▸ lays)⟩
  obtain ⟨items, stop, collected, describes⟩ := exists_items faces readable opens
  rw [source_of_reaches reached] at describes
  let file : SourceFile := {
    markup? := if markup.isEmpty then none else some markup
    openTag? := some ⟨tag, ⟨markup.size, (markup ++ tag).size⟩, comment?⟩
    items
    docComments := ((tokenize source).filter fun token => token.kind == .docComment).map Token.text
    lines := LineIndex.ofText source }
  refine ⟨file, coded.parse_eq_ok_iff.mpr ⟨comment?, stop, ?_, ?_, rfl, rfl, rfl, rfl⟩, describes,
    ⟨comment?, rfl⟩, rfl, rfl⟩
  · exact bind_eq_ok.mpr ⟨_, _, commented, bind_eq_ok.mpr ⟨_, _, collected,
      pure_eq_ok.mpr ⟨rfl, rfl⟩⟩⟩
  · cases markup <;> rfl

/-- The run that gives a file: the comment behind the open tag, and turns through the items. -/
theorem exists_run_of_parse {opening : OpenTag} (parsed : parse source = .ok file)
    (tagged : file.openTag? = some opening)
    : ∃ markup code entered stop,
        Coded source markup opening.text code
        ∧ file.markup?.getD [] = markup
        ∧ opening.span = ⟨markup.size, (markup ++ opening.text).size⟩
        ∧ trailing?.run (codeStart source markup opening.text code)
          = .ok (opening.comment?, entered)
        ∧ Turns itemTurn entered file.items stop := by
  obtain ⟨markup, tag, code, coded⟩ := exists_coded parsed tagged
  obtain ⟨comment?, stop, ran, markup_eq, _, openTag?, _, _⟩ := coded.parse_eq_ok_iff.mp parsed
  rw [tagged] at openTag?
  obtain rfl := Option.some.inj openTag?
  obtain ⟨_, entered, commented, later⟩ := bind_eq_ok.mp ran
  obtain ⟨_, stop, collected, done⟩ := bind_eq_ok.mp later
  obtain ⟨same, _⟩ := pure_eq_ok.mp done
  obtain ⟨rfl, rfl⟩ := Prod.mk.inj same
  exact ⟨markup, code, entered, stop, coded, markup_eq, rfl, commented, turns_of_collect collected⟩

/-- The tokens of the code of a source are the pieces that it is cut into. -/
theorem piece_mem_cut {offset : Nat} {code : Text} {token : Token}
    (listed : token ∈ place offset (cut code))
    : token.piece ∈ cut code := by
  have inside := List.mem_map_of_mem (f := Token.piece) listed
  rwa [map_piece_place] at inside

/-- The blocks of a source that was parsed. -/
theorem exists_sheet_of_parse {opening : OpenTag} (parsed : parse source = .ok file)
    (tagged : file.openTag? = some opening) (shape : Shape file.items)
    : ∃ markup sheet code,
        Coded source markup opening.text code ∧ file.markup?.getD [] = markup
        ∧ opening.span = ⟨markup.size, (markup ++ opening.text).size⟩
        ∧ Lays code sheet.blocks ∧ Readable sheet ∧ Describes source sheet file.items
        ∧ ∀ frame ∈ sheet.frame?,
            StartsSpace frame.opening.pieces
            ∧ (frame.braced = true ∨ frame.name?.isSome = true) := by
  obtain ⟨markup, code, entered, stop, coded, markup_eq, span, commented, turns⟩ :=
    exists_run_of_parse parsed tagged
  have ahead := ahead_of_run_trailing? commented
  have reached := reaches_of_run commented
  obtain ⟨passed, rest, cuts, isGap, before⟩ := reached.before_of_ahead coded.before ahead
  obtain ⟨sheet, spells, readable, describes, starts⟩ :=
    exists_sheet before turns shape
  refine ⟨markup, sheet, code, coded, markup_eq, span, ?_, readable, ?_, starts⟩
  · unfold Lays
    rw [cuts]
    exact (spells_append_iff isGap).mpr spells
  · rwa [source_of_reaches reached] at describes

end ImportHeader
