import ImportHeader.Proofs.Header.Rows
import ImportHeader.Proofs.Parser.Imports
import ImportHeader.Proofs.Parser.Whole

/-! What all statements and namespaces of a parsed file have in common. Each of their comments is a
whole comment, one behind a statement stands on one line, and imports have the shape of one.
-/

namespace ImportHeader

open ImportHeader.Lexer

/-- A statement whose comments have a property, the one behind it on one line, and whose import is
shaped if it is one.
-/
structure Stmt.IsNoted (holds : Text → Prop) (stmt : Stmt) : Prop where
  comments : ∀ comment ∈ stmt.comments, holds comment
  trailing : ∀ comment ∈ stmt.trailing?, holds comment ∧ '\n' ∉ comment
  shaped : ∀ declaration ∈ stmt.declaration?, declaration.IsShaped

/-- A namespace whose comments have a property, as those of its statements do. -/
structure Namespace.IsNoted (holds : Text → Prop) (space : Namespace) : Prop where
  comments : ∀ comment ∈ space.comments, holds comment
  header : ∀ comment ∈ space.headerComment?, holds comment ∧ '\n' ∉ comment
  stmts : ∀ stmt ∈ space.stmts, stmt.IsNoted holds

/-- A statement or namespace whose comments have a property. -/
def Item.IsNoted (holds : Text → Prop) : Item → Prop
  | .plain stmt => stmt.IsNoted holds
  | .scope space => space.IsNoted holds

/-- A statement whose comments are whole. -/
abbrev Stmt.IsTidy (stmt : Stmt) : Prop :=
  stmt.IsNoted Row.IsNote

/-- A namespace whose comments are whole. -/
abbrev Namespace.IsTidy (space : Namespace) : Prop :=
  space.IsNoted Row.IsNote

/-- A statement or namespace whose comments are whole. -/
abbrev Item.IsTidy (item : Item) : Prop :=
  item.IsNoted Row.IsNote

section

variable {holds holds' : Text → Prop}

theorem Stmt.IsNoted.imp {stmt : Stmt} (noted : stmt.IsNoted holds)
    (all : ∀ comment, holds comment → holds' comment)
    : stmt.IsNoted holds' :=
  ⟨fun comment listed => all comment (noted.comments comment listed),
    fun comment given => (noted.trailing comment given).imp_left (all comment), noted.shaped⟩

/-- Comments that have a property have each one that follows from it. -/
theorem Item.IsNoted.imp {item : Item} (noted : item.IsNoted holds)
    (all : ∀ comment, holds comment → holds' comment)
    : item.IsNoted holds' := by
  cases item with
  | plain stmt => exact Stmt.IsNoted.imp noted all
  | scope space =>
      obtain ⟨comments, header, stmts⟩ := noted
      exact ⟨fun comment listed => all comment (comments comment listed),
        fun comment given => (header comment given).imp_left (all comment),
        fun stmt listed => (stmts stmt listed).imp all⟩

end

theorem Stmt.kind_of_declaration? {stmt : Stmt} {declaration : Import}
    (found : stmt.declaration? = some declaration)
    : stmt.kind = .importing declaration := by
  unfold declaration? at found
  split at found
  · rename_i other kind
    rw [kind, Option.some.inj found]
  · cases found

theorem isNote_of_isComment {text : Text} (isComment : IsComment text)
    : Row.IsNote text.trimEnd :=
  ⟨isComment.trimEnd, fun last => absurd (Text.isBlank_of_trimEnd last) (by decide)⟩

theorem isComment_of_mem_cut {text : Text} {piece : Piece} (listed : piece ∈ cut text)
    (isComment : piece.1.isComment = true)
    : IsComment piece.2 := by
  obtain ⟨front, back, cuts⟩ := List.append_of_mem listed
  have behind : cut (joined ([piece] ++ back)) = [piece] ++ back := cut_of_append cuts
  have stands : Stands [piece] (joined back) := stands_of_cut behind
  obtain ⟨kind, start⟩ := piece
  obtain ⟨d, body, rfl⟩ := List.exists_cons_of_ne_nil (stands.ne_nil _ List.mem_cons_self)
  have munched : munch d (body ++ joined back) = (kind, body.length) := by
    simpa using (stands_cons.mp stands).1
  cases kind with
  | lineComment => exact .inl (isLineComment_of_munch munched)
  | blockComment => exact .inr (isBlockComment_of_munch munched (.inl rfl))
  | docComment => exact .inr (isBlockComment_of_munch munched (.inr rfl))
  | _ => cases isComment

namespace Cursor

variable {holds : Text → Prop} {start stop : Cursor}

/-- A cursor before comments with a property, wherever it goes. -/
def Notes (holds : Text → Prop) (start : Cursor) : Prop :=
  ∀ ⦃middle : Cursor⦄,
    start.Reaches middle
    → ∀ token ∈ middle.gap, token.kind.isComment = true → holds token.text.trimEnd

theorem Notes.reaches (notes : start.Notes holds) (reached : start.Reaches stop)
    : stop.Notes holds :=
  fun _ further => notes (reached.trans further)

theorem Notes.comments (notes : start.Notes holds) : ∀ comment ∈ start.comments, holds comment := by
  intro comment listed
  obtain ⟨token, inside, rfl⟩ := List.mem_map.mp listed
  obtain ⟨here, isComment⟩ := List.mem_filter.mp inside
  exact notes .refl token here isComment

theorem Notes.trailing? (notes : start.Notes holds) {comment : Text}
    (found : start.trailing? = some (comment, stop))
    : holds comment ∧ '\n' ∉ comment := by
  unfold Cursor.trailing? at found
  split at found
  · cases found
  · rename_i token rest behind
    dsimp only at found
    split at found
    · rename_i conditions
      simp only [Bool.and_eq_true, Bool.not_eq_true', List.contains_eq_mem,
        decide_eq_false_iff_not] at conditions
      obtain ⟨⟨isComment, absent⟩, _⟩ := conditions
      cases found
      have here : token ∈ start.gap :=
        (sameLine_suffix start.gap).subset (behind ▸ List.mem_cons_self)
      exact ⟨notes .refl token here isComment, absent⟩
    · cases found

/-- What holds of all comments in a text holds of those before a cursor that stands before it. -/
theorem Before.notes {front : Text} {pieces : List Piece} (before : start.Before front pieces)
    (all : ∀ piece ∈ pieces, piece.1.isComment = true → holds (Text.trimEnd piece.2))
    : start.Notes holds := by
  intro middle reached token inside isComment
  obtain ⟨passed, rest, rfl, before', _⟩ := reached.before before
  exact all token.piece (List.mem_append_right _ (before'.piece_mem_of_gap inside)) isComment

end Cursor

namespace Parser

variable {holds : Text → Prop} {start stop : Cursor}

theorem holds_of_trailing? {comment? : Option Text} (notes : start.Notes holds)
    (ran : trailing?.run start = .ok (comment?, stop))
    : ∀ comment ∈ comment?, holds comment ∧ '\n' ∉ comment := by
  rw [run_trailing?] at ran
  cases found : start.trailing? with
  | none =>
      rw [found] at ran
      cases ran
      nofun
  | some pair =>
      rw [found] at ran
      cases ran
      rintro comment ⟨rfl⟩
      exact notes.trailing? found

theorem isNoted_of_stmt {found : Stmt} (notes : start.Notes holds)
    (ran : stmt.run start = .ok (found, stop))
    : found.IsNoted holds := by
  obtain ⟨middle, read, commented, _, _, comments⟩ := stmt_eq_ok.mp ran
  refine ⟨comments ▸ notes.comments, ?_, fun declaration here => ?_⟩
  · unfold trailingOf at commented
    split at commented
    · exact holds_of_trailing? (notes.reaches (reaches_of_run read)) commented
    · rw [← (pure_eq_ok.mp commented).1]
      nofun
  · rw [Stmt.kind_of_declaration? here] at read
    exact isShaped_of_importing (importing_of_stmtKind read)

theorem isNoted_of_namespaceTurn {braced : Bool} {result : Turn Stmt} (notes : start.Notes holds)
    (ran : (namespaceTurn braced).run start = .ok (result, stop))
    : ∀ stmt ∈ result.found, stmt.IsNoted holds := by
  cases result with
  | last results =>
      rw [(namespaceTurn_last ran).1]
      nofun
  | more results =>
      obtain ⟨found, rfl, reads⟩ := (wraps_namespaceTurn braced).more ran
      intro stmt listed
      obtain rfl : stmt = found := by simpa [Turn.found] using listed
      exact isNoted_of_stmt notes (reads rfl).2

theorem isNoted_of_namespaceScope {space : Namespace} (notes : start.Notes holds)
    (ran : namespaceScope.run start = .ok (space, stop))
    : space.IsNoted holds := by
  obtain ⟨keyword, named, middle, opened, entered, closed, expected, read, marked, commented,
    collected, _, _, _, _, comments⟩ := namespaceScope_eq_ok.mp ran
  have reached : start.Reaches opened :=
    (reaches_of_run expected).trans ((reaches_of_run read).trans (reaches_of_run marked))
  have entering := reached.trans (reaches_of_run commented)
  exact ⟨comments ▸ notes.comments, holds_of_trailing? (notes.reaches reached) commented,
    (turns_of_collect collected).forall_of_kept Cursor.Notes.reaches isNoted_of_namespaceTurn
      (notes.reaches entering)⟩

theorem isNoted_of_itemTurn {result : Turn Item} (notes : start.Notes holds)
    (ran : itemTurn.run start = .ok (result, stop))
    : ∀ item ∈ result.found, item.IsNoted holds := by
  cases result with
  | last results =>
      rw [(itemTurn_last ran).1]
      nofun
  | more results =>
      obtain ⟨found, rfl, reads⟩ := wraps_itemTurn.more ran
      intro item listed
      obtain rfl : item = found := by simpa [Turn.found] using listed
      cases item with
      | plain stmt => exact isNoted_of_stmt notes (reads rfl).2
      | scope space => exact isNoted_of_namespaceScope notes (namespaceScope_of_itemTurn ran).2

theorem isNoted_of_turns {items : List Item} (notes : start.Notes holds)
    (turns : Turns itemTurn start items stop)
    : ∀ item ∈ items, item.IsNoted holds :=
  turns.forall_of_kept Cursor.Notes.reaches isNoted_of_itemTurn notes

end Parser

open ImportHeader.Parser

/-- All items of a source that was parsed are tidy. -/
theorem isTidy_of_parse {source : Text} {file : SourceFile} {tag : OpenTag}
    (parsed : parse source = .ok file) (tagged : file.openTag? = some tag)
    : (∀ comment ∈ tag.comment?, Row.IsNote comment ∧ '\n' ∉ comment)
      ∧ ∀ item ∈ file.items, item.IsTidy := by
  obtain ⟨markup, code, entered, stop, coded, _, _, commented, turns⟩ :=
    exists_run_of_parse parsed tagged
  have notes : (codeStart source markup tag.text code).Notes Row.IsNote :=
    coded.before.notes fun piece listed isComment =>
      isNote_of_isComment (isComment_of_mem_cut listed isComment)
  exact ⟨holds_of_trailing? notes commented,
    isNoted_of_turns (notes.reaches (reaches_of_run commented)) turns⟩

end ImportHeader
