import ImportHeader.Proofs.Name
import ImportHeader.Proofs.Token.Lossless
import ImportHeader.Proofs.Token.Names

/-! The texts that spell a name: the text that the name is written as, and the same with the keyword
of a relative name in another letter case. Every name token is the text of a name.
-/

namespace ImportHeader

namespace Name

variable {text behind keyword : Text} {name left right : Name}

-----------------------------------------------------------------------------------------
-- Anchors
-----------------------------------------------------------------------------------------

/-- A text that starts with the keyword of a relative name, in the given letter case, and what
stands behind the backslash of the keyword.
-/
structure HasKeyword (text keyword behind : Text) : Prop where
  whole : text = keyword ++ '\\' :: behind
  folded : Text.sameFolded keyword "namespace" = true

/-- A text with an anchor: a leading backslash, or the keyword of a relative name. -/
def IsAnchored (text : Text) : Prop :=
  text.head? = some '\\' ∨ ∃ keyword behind, HasKeyword text keyword behind

/-- The keyword of a relative name does not start with a backslash. -/
theorem HasKeyword.head?_ne (has : HasKeyword text keyword behind) : text.head? ≠ some '\\' := by
  obtain ⟨rfl, folded⟩ := has
  have solid := not_mem_of_sameFolded folded
  cases keyword with
  | nil => cases folded
  | cons c rest =>
      rintro ⟨⟩
      exact solid List.mem_cons_self

theorem HasKeyword.splitAnchor_eq (has : HasKeyword text keyword behind)
    : splitAnchor text = (some .relative, behind) := by
  rw [splitAnchor_of_head? has.head?_ne]
  obtain ⟨rfl, folded⟩ := has
  have length : (keyword ++ ['\\']).length = anchor.length := by
    have lengths := congrArg List.length (eq_of_beq folded)
    rw [Text.lower, List.length_map] at lengths
    rw [List.length_append, lengths]
    rfl
  have whole : Text.sameFolded (keyword ++ ['\\']) anchor = true := by
    have parts : Text.lower keyword = Text.lower "namespace" := eq_of_beq folded
    rw [Text.sameFolded, Text.lower, List.map_append, beq_iff_eq]
    exact congrArg (· ++ ['\\']) parts
  rw [List.append_cons, List.take_left' length, List.drop_left' length, if_pos whole]

/-- A text starts with a backslash, with the keyword of a relative name, or without an anchor. -/
theorem splitAnchor_cases (text : Text)
    : (∃ behind, text = '\\' :: behind ∧ splitAnchor text = (some .fullyQualified, behind))
      ∨ (∃ keyword behind, HasKeyword text keyword behind
        ∧ splitAnchor text = (some .relative, behind))
      ∨ ¬IsAnchored text ∧ splitAnchor text = (none, text) := by
  by_cases slash : text.head? = some '\\'
  · obtain ⟨behind, rfl⟩ := List.head?_eq_some_iff.mp slash
    exact .inl ⟨behind, rfl, rfl⟩
  have split := splitAnchor_of_head? slash
  cases folded : Text.sameFolded (text.take anchor.length) anchor with
  | true =>
      obtain ⟨keyword, whole, named⟩ := exists_keyword_of_folded folded
      exact .inr (.inl ⟨keyword, _, ⟨whole, named⟩, HasKeyword.splitAnchor_eq ⟨whole, named⟩⟩)
  | false =>
      rw [folded] at split
      refine .inr (.inr ⟨?_, split⟩)
      rintro (here | ⟨keyword, behind, has⟩)
      · exact slash here
      · rw [has.splitAnchor_eq] at split
        cases split

-----------------------------------------------------------------------------------------
-- Reading and writing
-----------------------------------------------------------------------------------------

/-- What stands behind the anchor of a text is the text of the segments, for the one name that it
spells.
-/
theorem ofText?_eq_some_iff {anchored : Option NameForm}
    (split : splitAnchor text = (anchored, behind))
    : ofText? text = some name
      ↔ name.IsProper
        ∧ name.joined = behind
        ∧ name.form = anchored.getD (plainForm name.segments) := by
  constructor
  · intro read
    refine ⟨IsRead.isProper ⟨text, read⟩, ?_⟩
    rw [ofText?, split] at read
    dsimp only at read
    split at read
    · cases read
    · cases read
      refine ⟨?_, rfl⟩
      rw [joined, Text.pieces_eq_splitOn]
      exact List.intercalate_splitOn '\\'
  · rintro ⟨⟨some, each⟩, rfl, form⟩
    have pieces : Text.pieces '\\' name.joined = name.segments := by
      rw [Text.pieces_eq_splitOn]
      exact List.splitOn_intercalate _ (fun segment listed => (each segment listed).2) some
    have full : name.segments.any List.isEmpty = false := by
      rw [List.any_eq_false]
      intro segment listed empty
      exact (each segment listed).1 (List.isEmpty_iff.mp empty)
    rw [ofText?, split]
    simp only [pieces, full, Bool.false_eq_true, if_false, ← form]

/-- A name without an anchor is written as its segments. -/
theorem display_of_plainForm (plain : name.form = plainForm name.segments)
    : name.display = name.joined := by
  unfold display
  rw [plain, plainForm]
  by_cases several : name.segments.length > 1
  · rw [if_pos several]
  · rw [if_neg several]

/-- A name is read back from the text that it is written as. -/
theorem ofText?_display (read : ofText? text = some name) : ofText? name.display = some name := by
  rcases splitAnchor_cases text with ⟨_, _, split⟩ | ⟨_, _, _, split⟩ | ⟨plain, split⟩
  · obtain ⟨proper, _, form⟩ := (ofText?_eq_some_iff split).mp read
    have split' : splitAnchor ('\\' :: name.joined) = (some .fullyQualified, name.joined) := rfl
    rw [display, form]
    exact (ofText?_eq_some_iff split').mpr ⟨proper, rfl, form⟩
  · obtain ⟨proper, _, form⟩ := (ofText?_eq_some_iff split).mp read
    have has : HasKeyword (anchor ++ name.joined) "namespace" name.joined := ⟨rfl, by decide⟩
    rw [display, form]
    exact (ofText?_eq_some_iff has.splitAnchor_eq).mpr ⟨proper, rfl, form⟩
  · obtain ⟨_, whole, form⟩ := (ofText?_eq_some_iff split).mp read
    rw [display_of_plainForm form, whole, read]

/-- A relative name is written with its keyword in small letters. -/
theorem display_of_hasKeyword (read : ofText? text = some name)
    (has : HasKeyword text keyword behind)
    : name.display = "namespace".toList ++ '\\' :: behind := by
  obtain ⟨_, rfl, form⟩ := (ofText?_eq_some_iff has.splitAnchor_eq).mp read
  rw [display, form]
  rfl

/-- A name is written as the text that spells it, but for the letter case of the keyword of a
relative name.
-/
theorem display_of_ofText? (read : ofText? text = some name)
    (usual : ∀ keyword behind, HasKeyword text keyword behind → keyword = "namespace".toList)
    : name.display = text := by
  rcases splitAnchor_cases text with ⟨_, rfl, split⟩ | ⟨keyword, _, has, _⟩ | ⟨_, split⟩
  · obtain ⟨_, whole, form⟩ := (ofText?_eq_some_iff split).mp read
    rw [display, form, ← whole]
    rfl
  · rw [display_of_hasKeyword read has, has.whole, usual _ _ has]
  · obtain ⟨_, whole, form⟩ := (ofText?_eq_some_iff split).mp read
    rw [display_of_plainForm form, whole]

/-- A name is unqualified if it has one segment and no anchor. -/
theorem unqualified_iff (read : ofText? text = some name)
    : name.form = .unqualified ↔ name.segments.length = 1 ∧ ¬IsAnchored text := by
  rcases splitAnchor_cases text with ⟨behind, rfl, split⟩ | ⟨keyword, behind, has, split⟩
    | ⟨plain, split⟩
  · obtain ⟨_, _, form⟩ := (ofText?_eq_some_iff split).mp read
    have anchored : IsAnchored ('\\' :: behind) := .inl rfl
    simp [form, anchored]
  · obtain ⟨_, _, form⟩ := (ofText?_eq_some_iff split).mp read
    have anchored : IsAnchored text := .inr ⟨keyword, behind, has⟩
    simp [form, anchored]
  · obtain ⟨⟨some, _⟩, _, form⟩ := (ofText?_eq_some_iff split).mp read
    have one := List.length_pos_iff.mpr some
    rw [form, Option.getD_none, plainForm]
    split
    · simp [plain]
      omega
    · simp [plain]
      omega

/-- Names with the same form and the same text are the same. -/
theorem IsRead.eq (read : left.IsRead) (read' : right.IsRead) (form : left.form = right.form)
    (joined : left.joined = right.joined)
    : left = right := by
  rw [Name.mk.injEq]
  exact ⟨read.isProper.segments_eq read'.isProper joined, form⟩

/-- The first segments of two names in a row are those of the first name. -/
theorem take?_append (proper : left.IsProper) (right : Name)
    : ∃ front, (left ++ right).take? left.length = some front
        ∧ front.segments = left.segments := by
  have segments : (left ++ right).segments.take left.length = left.segments := List.take_left
  have some : left.segments.isEmpty = false := by simpa using proper.1
  have full : left.segments.any List.isEmpty = false := by
    rw [List.any_eq_false]
    intro segment listed empty
    exact (proper.2 segment listed).1 (List.isEmpty_iff.mp empty)
  refine ⟨⟨left.segments, plainForm left.segments⟩, ?_, rfl⟩
  rw [take?, segments, ofSegments?, some, full]
  rfl

end Name

open Lexer

/-- Every name token is the text of a name. -/
theorem exists_ofText?_of_mem_tokenize {source : Text} {token : Token}
    (listed : token ∈ tokenize source) (named : token.kind = .name)
    : ∃ name, Name.ofText? token.text = some name := by
  obtain ⟨markup, rest, rfl, isMarkup⟩ := exists_isMarkup source
  have placed := List.mem_map_of_mem (f := Token.piece) listed
  rw [isMarkup.tokenize_eq, map_piece_place, List.mem_append, mem_markupPieces] at placed
  rcases placed with ⟨_, html⟩ | coded
  · rw [(Prod.mk.inj html).1] at named
    cases named
  have each : ∀ piece ∈ cut rest, piece.1 = .name → ∃ name, Name.ofText? piece.2 = some name := by
    refine forall_mem_cut (fun c rest named => ?_) rest
    rcases isWritten_of_munch named with written | ⟨text, same, written⟩
    · obtain ⟨⟨name, read, _⟩, _⟩ := Name.exists_ofText? written
      exact ⟨name, read⟩
    · obtain ⟨_, name, read, _⟩ := Name.exists_ofText? written
      exact ⟨name, by rw [same, read]⟩
  exact each _ coded named

/-- Texts of names go back and forth. A name that is read has proper segments, and is unqualified if
it is a single one without an anchor. It is read back from the text that it is written as; that is
the text it was read from, but for the letter case of the keyword of a relative name. The form and
the joined segments tell names apart, a name below another consists of both, and every name token is
the text of a name.
-/
theorem Name.texts_round_trip
    : (∀ text name, ofText? text = some name
        → name.segments ≠ []
          ∧ (∀ segment ∈ name.segments, segment ≠ [] ∧ '\\' ∉ segment)
          ∧ (name.form = .unqualified ↔ name.segments.length = 1 ∧ ¬IsAnchored text)
          ∧ ofText? name.display = some name
          ∧ ((∀ keyword behind, HasKeyword text keyword behind → keyword = "namespace".toList)
            → name.display = text)
          ∧ ∀ keyword behind, HasKeyword text keyword behind
            → name.display = "namespace".toList ++ '\\' :: behind)
      ∧ (∀ left right : Name, left.IsRead → right.IsRead → left.form = right.form
        → left.joined = right.joined → left = right)
      ∧ (∀ left right : Name, left.IsRead → right.IsRead
        → (left ++ right).segments = left.segments ++ right.segments
          ∧ (left ++ right).startsWith left = true
          ∧ (left ++ right).endsWith right = true
          ∧ ∃ front, (left ++ right).take? left.length = some front
            ∧ front.segments = left.segments)
      ∧ ∀ source token, token ∈ tokenize source → token.kind = .name
        → ∃ name, ofText? token.text = some name := by
  refine ⟨fun text name read => ?_, fun left right => IsRead.eq, fun left right read _ => ?_,
    fun source token => exists_ofText?_of_mem_tokenize⟩
  · obtain ⟨some, each⟩ := IsRead.isProper ⟨text, read⟩
    exact ⟨some, each, unqualified_iff read, ofText?_display read, display_of_ofText? read,
      fun keyword behind => display_of_hasKeyword read⟩
  · refine ⟨rfl, ?_, ?_, take?_append read.isProper right⟩
    · exact List.isPrefixOf_iff_prefix.mpr (List.prefix_append _ _)
    · exact List.isSuffixOf_iff_suffix.mpr (List.suffix_append _ _)

/-- A relative name with capital letters in its keyword, which is a token of a source. -/
theorem Name.texts_round_trip_of_capital_keyword
    : ∃ (name : Name) (token : Token),
        ofText? "NameSpace\\Foo".toList = some name
        ∧ name.form ≠ .unqualified
        ∧ name.display = "namespace\\Foo".toList
        ∧ ofText? "namespace\\Foo".toList = some name
        ∧ (name ++ name).segments = ["Foo".toList, "Foo".toList]
        ∧ (∃ front, (name ++ name).take? 1 = some front ∧ front.segments = ["Foo".toList])
        ∧ (∀ other : Name, other.IsRead → other.form = .relative → other.joined = "Foo".toList
          → other = name)
        ∧ token ∈ tokenize "<?php NameSpace\\Foo".toList
        ∧ token.text = "NameSpace\\Foo".toList
        ∧ ∃ spelled, ofText? token.text = some spelled := by
  obtain ⟨texts, apart, below, tokens⟩ := texts_round_trip
  have read : ofText? "NameSpace\\Foo".toList = some ⟨["Foo".toList], .relative⟩ := by decide
  have has : HasKeyword "NameSpace\\Foo".toList "NameSpace".toList "Foo".toList :=
    ⟨rfl, by decide⟩
  have listed : ⟨.name, "NameSpace\\Foo".toList, 6⟩ ∈ tokenize "<?php NameSpace\\Foo".toList := by
    decide
  obtain ⟨_, _, unqualified, back, _, written⟩ := texts _ _ read
  have display := written _ _ has
  obtain ⟨segments, _, _, front⟩ := below _ _ ⟨_, read⟩ ⟨_, read⟩
  refine ⟨_, _, read, fun plain => (unqualified.mp plain).2 (.inr ⟨_, _, has⟩), display, ?_,
    segments, front, fun other read' form joined => apart _ _ read' ⟨_, read⟩ form joined, listed,
    rfl, tokens _ _ listed rfl⟩
  rwa [display] at back

end ImportHeader
