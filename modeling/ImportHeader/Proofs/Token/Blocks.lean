import ImportHeader.Proofs.Token.Seams

/-! Code as blocks with gaps between them. A block is what stands from one token that carries
syntax to another one, and a gap is white space and comments. Gaps can be changed and blocks
put together anew, and the lexer still finds the same blocks.
-/

namespace ImportHeader

namespace Lexer

/-- Pieces that start and end with one that carries syntax. -/
def IsBlock (pieces : List Piece) : Prop :=
  (∃ first rest, pieces = first :: rest ∧ first.isTrivia = false)
  ∧ ∃ rest last, pieces = rest ++ [last] ∧ last.isTrivia = false

/-- Pieces without syntax. -/
def IsGap (pieces : List Piece) : Prop :=
  ∀ piece ∈ pieces, piece.isTrivia = true

/-- A block, and the text behind it. -/
structure Block where
  pieces : List Piece
  behind : Text

/-- Pieces are blocks in a given order, with gaps around them. -/
inductive Spells : List Piece → List Block → Prop
  | gap {pieces} (isGap : IsGap pieces) : Spells pieces []
  | block {gap block rest blocks} (isGap : IsGap gap) (isBlock : IsBlock block)
    (later : Spells rest blocks)
    : Spells (gap ++ block ++ rest) (⟨block, joined rest⟩ :: blocks)

/-- A text is cut into blocks in a given order, with gaps around them. -/
def Lays (text : Text) (blocks : List Block) : Prop :=
  Spells (cut text) blocks

/-- The pieces that carry syntax. -/
def solids (pieces : List Piece) : List Piece :=
  pieces.filter fun piece => !piece.isTrivia

@[simp] theorem solids_append (left right : List Piece)
    : solids (left ++ right) = solids left ++ solids right :=
  List.filter_append left right

theorem IsGap.solids_eq {pieces : List Piece} (isGap : IsGap pieces) : solids pieces = [] := by
  refine List.filter_eq_nil_iff.mpr fun piece listed => ?_
  simp [isGap piece listed]

theorem Spells.solids_eq {pieces : List Piece} {blocks : List Block}
    (spells : Spells pieces blocks)
    : solids pieces = blocks.flatMap fun block => solids block.pieces := by
  induction spells with
  | gap isGap => exact isGap.solids_eq
  | block isGap _ _ ih =>
      rw [solids_append, solids_append, isGap.solids_eq, ih, List.nil_append,
        List.flatMap_cons]

/-- Where there are no pieces there is no block. -/
theorem Spells.eq_nil {blocks : List Block} (spells : Spells [] blocks) : blocks = [] := by
  generalize none : ([] : List Piece) = pieces at spells
  cases spells with
  | gap => rfl
  | block _ isBlock _ =>
      obtain ⟨first, others, rfl, _⟩ := isBlock.1
      simp at none

theorem isGap_nil : IsGap [] :=
  nofun

theorem IsGap.cons {piece : Piece} {pieces : List Piece} (trivia : piece.isTrivia = true)
    (isGap : IsGap pieces)
    : IsGap (piece :: pieces) := by
  intro other listed
  rcases List.mem_cons.mp listed with rfl | later
  · exact trivia
  · exact isGap other later

/-- A block is a part of the text of the pieces that are cut into blocks. -/
theorem Spells.isInfix {pieces : List Piece} {blocks : List Block} (spells : Spells pieces blocks)
    : ∀ block ∈ blocks, joined block.pieces <:+: joined pieces := by
  induction spells with
  | gap => nofun
  | @block gap block rest blocks _ _ _ ih =>
      intro other listed
      rw [joined_append, joined_append]
      rcases List.mem_cons.mp listed with rfl | further
      · exact ⟨joined gap, joined rest, rfl⟩
      · exact (ih other further).trans (List.suffix_append _ _).isInfix

/-- Each block stands behind those before it. -/
theorem Spells.pairwise {pieces : List Piece} {blocks : List Block} (spells : Spells pieces blocks)
    : blocks.Pairwise fun block later => joined later.pieces <:+: block.behind := by
  induction spells with
  | gap => exact .nil
  | block _ _ later ih => exact .cons later.isInfix ih

/-- A gap grows at its start. -/
theorem Spells.cons {piece : Piece} {pieces : List Piece} {blocks : List Block}
    (trivia : piece.isTrivia = true) (spells : Spells pieces blocks)
    : Spells (piece :: pieces) blocks := by
  cases spells with
  | gap isGap => exact .gap (isGap.cons trivia)
  | @block gap block rest _ isGap isBlock later =>
      have longer : IsGap (piece :: gap) := isGap.cons trivia
      exact .block longer isBlock later

/-- A gap shrinks at its start. -/
theorem Spells.tail {piece : Piece} {pieces : List Piece} {blocks : List Block}
    (trivia : piece.isTrivia = true) (spells : Spells (piece :: pieces) blocks)
    : Spells pieces blocks := by
  generalize whole : piece :: pieces = all at spells
  cases spells with
  | gap isGap =>
      subst whole
      exact .gap fun other listed => isGap other (List.mem_cons_of_mem _ listed)
  | @block gap block rest _ isGap isBlock later =>
      cases gap with
      | nil =>
          obtain ⟨⟨first, others, rfl, solid⟩, _⟩ := isBlock
          obtain ⟨rfl, _⟩ := List.cons.inj whole
          rw [trivia] at solid
          cases solid
      | cons other gap =>
          obtain ⟨rfl, rfl⟩ := List.cons.inj whole
          exact .block (fun other listed => isGap other (List.mem_cons_of_mem _ listed)) isBlock
            later

theorem spells_cons_iff {piece : Piece} {pieces : List Piece} {blocks : List Block}
    (trivia : piece.isTrivia = true)
    : Spells (piece :: pieces) blocks ↔ Spells pieces blocks :=
  ⟨Spells.tail trivia, Spells.cons trivia⟩

/-- Blocks stay when some of the gap before them is passed, or more trivia comes before it. -/
theorem spells_append_iff {gap pieces : List Piece} {blocks : List Block} (isGap : IsGap gap)
    : Spells (gap ++ pieces) blocks ↔ Spells pieces blocks := by
  induction gap with
  | nil => rfl
  | cons piece gap ih =>
      rw [List.cons_append, spells_cons_iff (isGap piece List.mem_cons_self)]
      exact ih fun other listed => isGap other (List.mem_cons_of_mem _ listed)

-----------------------------------------------------------------------------------------
-- White space and comments
-----------------------------------------------------------------------------------------

theorem munch_space {c : Char} (space : isSpace c = true) (rest : Text)
    : munch c rest = (.whitespace, run isSpace rest) := by
  have other : isNameStart c = false ∧ c.isDigit = false := by
    simp only [isSpace, Bool.or_eq_true, beq_iff_eq] at space
    rcases space with ((rfl | rfl) | rfl) | rfl <;> decide
  unfold munch
  rw [if_neg (by simp [other.1]), if_neg (by simp [other.2]), if_pos space]

/-- White space at the start of a text changes no block. -/
theorem lays_space_iff {c : Char} (space : isSpace c = true) {rest : Text}
    {blocks : List Block}
    : Lays (c :: rest) blocks ↔ Lays rest blocks := by
  unfold Lays
  cases rest with
  | nil =>
      rw [cut_cons, munch_space space, spells_cons_iff rfl]
      rfl
  | cons d rest =>
      rw [cut_cons, munch_space space, spells_cons_iff rfl]
      by_cases more : isSpace d = true
      · rw [cut_cons d, munch_space more, spells_cons_iff rfl]
        simp [run, more]
      · simp [run, more]

theorem lays_spaces_iff {spaces rest : Text} (all : ∀ c ∈ spaces, isSpace c = true)
    {blocks : List Block}
    : Lays (spaces ++ rest) blocks ↔ Lays rest blocks := by
  induction spaces with
  | nil => rfl
  | cons c spaces ih =>
      rw [List.cons_append, lays_space_iff (all c List.mem_cons_self)]
      exact ih fun d listed => all d (List.mem_cons_of_mem _ listed)

/-- A gap that stands before a text changes no block of it. -/
theorem lays_gap_iff {gap : List Piece} {rest : Text} (isGap : IsGap gap)
    (stands : Stands gap rest) {blocks : List Block}
    : Lays (joined gap ++ rest) blocks ↔ Lays rest blocks := by
  unfold Lays
  rw [stands, spells_append_iff isGap]

/-- A block that stands before a text is one block more. -/
theorem Lays.block {block : List Piece} {rest : Text} {blocks : List Block}
    (isBlock : IsBlock block) (stands : Stands block rest) (later : Lays rest blocks)
    : Lays (joined block ++ rest) (⟨block, rest⟩ :: blocks) := by
  have spells : Spells ([] ++ block ++ cut rest) (⟨block, joined (cut rest)⟩ :: blocks) :=
    .block isGap_nil isBlock later
  rw [joined_cut] at spells
  unfold Lays
  rwa [stands]

/-- A comment that goes to the end of its line. -/
def IsLineComment (text : Text) : Prop :=
  '\n' ∉ text
  ∧ ((∃ rest, text = '/' :: '/' :: rest) ∨ ∃ rest, text = '#' :: rest ∧ rest.head? ≠ some '[')

/-- A comment that ends with a mark of its own. -/
def IsBlockComment (text : Text) : Prop :=
  ∃ kind rest, text = '/' :: '*' :: rest ∧ kind ≠ .error ∧ asterisk rest = (kind, rest.length + 1)

/-- A comment of either sort. -/
def IsComment (text : Text) : Prop :=
  IsLineComment text ∨ IsBlockComment text

theorem not_isComment_nil : ¬IsComment [] := by
  rintro (⟨_, ⟨rest, same⟩ | ⟨rest, same, _⟩⟩ | ⟨_, rest, same, _⟩) <;> cases same

/-- Where a line ends: at the end of the source, or before a line feed. -/
def EndsLine (text : Text) : Prop :=
  text = [] ∨ (∃ rest, text = '\n' :: rest) ∨ ∃ rest, text = '\r' :: '\n' :: rest

variable {c : Char} {front text : Text} {kind : TokenKind}

theorem munch_slash (rest : Text) : munch '/' rest = slash rest :=
  rfl

theorem munch_hash (rest : Text) : munch '#' rest = hash rest :=
  rfl

theorem isLineComment_of_munch
    (munched : munch c (front ++ text) = (.lineComment, front.length))
    : IsLineComment (c :: front) := by
  have inside {body : Text} (runs : run (· != '\n') (body ++ text) = body.length)
      : '\n' ∉ body := by
    intro listed
    simpa using (run_append_iff.mp runs).1 '\n' listed
  have starts := canStart_of_munch munched
  simp only [canStart, Bool.or_eq_true, beq_iff_eq] at starts
  rcases starts with rfl | rfl
  · rw [munch_slash] at munched
    cases front with
    | nil => cases (slash_eq_zero_iff.mp munched).1
    | cons d body =>
        rw [List.cons_append, slash] at munched
        split at munched
        · rename_i same
          subst same
          have absent := inside (Nat.succ_inj.mp (Prod.mk.inj munched).2)
          exact ⟨by simp [absent], .inl ⟨body, rfl⟩⟩
        split at munched
        · have kinds : (asterisk (body ++ text)).1 ∈ _ := asterisk_fst
          rw [munched] at kinds
          simp at kinds
        · cases munched
  · rw [munch_hash, hash_eq] at munched
    split at munched
    · cases munched
    · rename_i other
      have absent := inside (Prod.mk.inj munched).2
      refine ⟨by simp [absent], .inr ⟨front, rfl, ?_⟩⟩
      cases front with
      | nil => simp
      | cons d body => exact other

/-- A comment that goes to the end of its line takes what stands there. -/
theorem IsLineComment.append {more : Text} (isComment : IsLineComment text) (absent : '\n' ∉ more)
    (other : more.head? ≠ some '[')
    : IsLineComment (text ++ more) := by
  obtain ⟨inside, ⟨body, rfl⟩ | ⟨body, rfl, other'⟩⟩ := isComment
  · exact ⟨by simpa [absent] using inside, .inl ⟨body ++ more, rfl⟩⟩
  · refine ⟨by simpa [absent] using inside, .inr ⟨body ++ more, rfl, ?_⟩⟩
    cases body with
    | nil => exact other
    | cons d body => exact other'

theorem stands_of_isLineComment (isComment : IsLineComment text) {rest : Text}
    (ends : ∀ c ∈ rest.head?, c = '\n')
    : Stands [(.lineComment, text)] rest := by
  obtain ⟨absent, ⟨body, rfl⟩ | ⟨body, rfl, other⟩⟩ := isComment
  all_goals
    have runs : run (· != '\n') (body ++ rest) = body.length := by
      refine run_append_iff.mpr ⟨fun c listed => ?_, fun c first => ?_⟩
      · rw [bne_iff_ne]
        rintro rfl
        exact absent (by simp [listed])
      · rw [ends c first]
        rfl
    refine stands_cons.mpr ⟨?_, stands_nil⟩
  · rw [munch_slash, joined_nil, List.nil_append, List.cons_append, slash, if_pos rfl, runs]
    rfl
  · have other' : ¬(body ++ rest).head? = some '[' := by
      cases body with
      | nil =>
          intro bracket
          exact absurd (ends '[' bracket) (by decide)
      | cons d body => exact other
    rw [munch_hash, joined_nil, List.nil_append, hash_eq, if_neg other', runs]

theorem isBlockComment_of_munch
    (munched : munch c (front ++ text) = (kind, front.length))
    (isBlock : kind = .blockComment ∨ kind = .docComment)
    : IsBlockComment (c :: front) := by
  have starts := canStart_of_munch munched
  have isSlash : c = '/' := by
    rcases isBlock with rfl | rfl <;> exact eq_of_beq starts
  have closed : kind ≠ .error := by
    rcases isBlock with rfl | rfl <;> decide
  subst isSlash
  rw [munch_slash] at munched
  cases front with
  | nil =>
      obtain ⟨rfl, _⟩ := slash_eq_zero_iff.mp munched
      rcases isBlock with same | same <;> cases same
  | cons d body =>
      rw [List.cons_append, slash] at munched
      split at munched
      · obtain ⟨rfl, _⟩ := Prod.mk.inj munched
        rcases isBlock with same | same <;> cases same
      split at munched
      · rename_i star
        subst star
        have ends : asterisk (body ++ []) = (kind, body.length + 1) :=
          asterisk_stable closed munched
        rw [List.append_nil] at ends
        exact ⟨kind, body, rfl, closed, ends⟩
      · obtain ⟨rfl, _⟩ := Prod.mk.inj munched
        rcases isBlock with same | same <;> cases same

theorem stands_of_isBlockComment (isComment : IsBlockComment text)
    : ∃ kind : TokenKind, kind.isComment = true ∧ ∀ rest, Stands [(kind, text)] rest := by
  obtain ⟨kind, body, rfl, closed, ends⟩ := isComment
  refine ⟨kind, ?_, fun rest => stands_cons.mpr ⟨?_, stands_nil⟩⟩
  · have kinds : (asterisk body).1 ∈ _ := asterisk_fst
    rw [ends] at kinds
    simp only [List.mem_cons, List.not_mem_nil, or_false] at kinds
    rcases kinds with rfl | rfl | rfl
    · rfl
    · rfl
    · exact absurd rfl closed
  · rw [munch_slash, joined_nil, List.nil_append, List.cons_append, slash, if_neg (by decide),
      if_pos rfl]
    have ends' : asterisk (body ++ []) = (kind, body.length + 1) := by
      rwa [List.append_nil]
    exact asterisk_stable closed ends'

/-- A piece without syntax changes no block. -/
theorem lays_piece_iff (trivia : kind.isTrivia = true) {rest : Text}
    (stands : Stands [(kind, text)] rest) {blocks : List Block}
    : Lays (text ++ rest) blocks ↔ Lays rest blocks := by
  have isGap : IsGap [(kind, text)] := isGap_nil.cons trivia
  have same : Lays (joined [(kind, text)] ++ rest) blocks ↔ _ := lays_gap_iff isGap stands
  rwa [joined_cons, joined_nil, List.append_nil] at same

theorem isTrivia_of_isComment (isComment : kind.isComment = true)
    : kind.isTrivia = true := by
  cases kind <;> first | rfl | cases isComment

/-- A comment that ends its line changes no block. -/
theorem lays_comment_iff (isComment : IsComment text) {rest : Text} (ends : EndsLine rest)
    {blocks : List Block}
    : Lays (text ++ rest) blocks ↔ Lays rest blocks := by
  rcases isComment with isLine | isBlock
  · rcases ends with rfl | ⟨behind, rfl⟩ | ⟨behind, rfl⟩
    · exact lays_piece_iff rfl (stands_of_isLineComment isLine (by simp))
    · exact lays_piece_iff rfl (stands_of_isLineComment isLine (by simp))
    · -- The carriage return belongs to the comment.
      have longer : IsLineComment (text ++ ['\r']) := isLine.append (by simp) (by simp)
      have stands : Stands [(.lineComment, text ++ ['\r'])] ('\n' :: behind) :=
        stands_of_isLineComment longer (by simp)
      have same : Lays (text ++ ['\r'] ++ '\n' :: behind) blocks ↔ _ :=
        lays_piece_iff rfl stands
      have space : isSpace '\r' = true := rfl
      rw [List.append_assoc, List.singleton_append] at same
      rw [same, lays_space_iff space]
  · obtain ⟨kind, isComment, stands⟩ := stands_of_isBlockComment isBlock
    exact lays_piece_iff (isTrivia_of_isComment isComment) (stands rest)

end Lexer

end ImportHeader
