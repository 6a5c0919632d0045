import ImportHeader.Proofs.Token.Boundary

/-! Pieces that are put before another text. They stay the pieces they are, as long as all that
has to be closed is closed and what follows does not prolong the last of them.
-/

namespace ImportHeader

/-- Whether a piece carries no syntax. -/
def Piece.isTrivia (piece : Piece) : Bool :=
  piece.1.isTrivia

/-- A piece that lacks no end: no comment, heredoc or string that is never closed. -/
def Piece.IsClosed (piece : Piece) : Prop :=
  piece.1 = .error → piece.2.head?.any Lexer.opensText = false

/-- A piece that lacks its end and starts with a given character. -/
def Piece.LacksEnd (opens : Char → Bool) (piece : Piece) : Prop :=
  piece.1 = .error ∧ piece.2.head?.any opens = true

/-- A piece that goes on over all that is put behind it: a close tag, or a string without its end.
-/
def Piece.RunsOn (piece : Piece) : Prop :=
  piece.1 = .closeTag ∨ piece.LacksEnd Lexer.opensString

/-- A piece of another kind than a close tag and an error ends. -/
theorem Piece.not_runsOn {piece : Piece} (open_ : piece.1 ≠ .closeTag) (other : piece.1 ≠ .error)
    : ¬piece.RunsOn := by
  rintro (close | unclosed)
  · exact open_ close
  · exact other unclosed.1

instance (opens : Char → Bool) (piece : Piece) : Decidable (piece.LacksEnd opens) :=
  inferInstanceAs (Decidable (_ ∧ _))

instance (piece : Piece) : Decidable piece.RunsOn :=
  inferInstanceAs (Decidable (_ ∨ _))

theorem Piece.IsClosed.not_lacksEnd {piece : Piece} (closed : piece.IsClosed) {opens : Char → Bool}
    (among : ∀ c, opens c = true → Lexer.opensText c = true)
    : ¬piece.LacksEnd opens := by
  rintro ⟨unclosed, starts⟩
  have isClosed := closed unclosed
  obtain ⟨kind, text⟩ := piece
  cases text with
  | nil => cases starts
  | cons c text =>
      have opened := among c (by simpa using starts)
      simp [opened] at isClosed

namespace Lexer

variable {kind : TokenKind} {c : Char} {front text mild : Text} {pieces : List Piece}

/-- Pieces that stay what they are before a text. -/
def Stands (pieces : List Piece) (text : Text) : Prop :=
  cut (joined pieces ++ text) = pieces ++ cut text

@[simp] theorem stands_nil : Stands [] text :=
  rfl

theorem stands_cons
    : Stands ((kind, c :: front) :: pieces) text
      ↔ munch c (front ++ (joined pieces ++ text)) = (kind, front.length)
        ∧ Stands pieces text := by
  unfold Stands
  have bound := munch_le c (front ++ (joined pieces ++ text))
  rw [joined_cons, List.cons_append, List.cons_append, List.append_assoc, cut_cons,
    List.cons_append, List.cons.injEq, Prod.mk.injEq, List.cons.injEq]
  constructor
  · rintro ⟨⟨kind', _, taken⟩, rest⟩
    have length : (munch c (front ++ (joined pieces ++ text))).2 = front.length := by
      have lengths := congrArg List.length taken
      rw [List.length_take] at lengths
      omega
    rw [length, List.drop_left] at rest
    exact ⟨Prod.ext kind' length, rest⟩
  · rintro ⟨munched, rest⟩
    rw [munched, List.take_left, List.drop_left]
    exact ⟨⟨rfl, rfl, rfl⟩, rest⟩

theorem stands_of_cut {back : List Piece} (cuts : cut text = pieces ++ back)
    : Stands pieces (joined back) := by
  unfold Stands
  rw [← eq_joined_of_cut cuts, cuts, cut_of_append cuts]

/-- Of pieces that stand before a text, those at the end do. -/
theorem Stands.suffix {init back : List Piece} (stands : Stands (init ++ back) text)
    : Stands back text := by
  have cuts : cut (joined (init ++ back) ++ text) = init ++ (back ++ cut text) := by
    rw [stands, List.append_assoc]
  have behind := stands_of_cut (cut_of_append cuts)
  rwa [joined_cut] at behind

/-- What is cut from a text is not empty. -/
theorem Stands.ne_nil (stands : Stands pieces text) : ∀ piece ∈ pieces, piece.2 ≠ [] := by
  intro piece listed
  have cuts : piece ∈ cut (joined pieces ++ text) := by
    rw [stands]
    exact List.mem_append_left _ listed
  exact cut_ne_nil cuts

-----------------------------------------------------------------------------------------
-- How a piece of a kind starts
-----------------------------------------------------------------------------------------

/-- Whether a token of a kind can start with a character, for the kinds whose end hangs on what
follows, and for names and closing braces.
-/
def canStart (kind : TokenKind) (c : Char) : Bool :=
  match kind with
  | .name => isNameStart c || c == '\\'
  | .whitespace => isSpace c
  | .lineComment => c == '/' || c == '#'
  | .blockComment | .docComment => c == '/'
  | .closeTag => c == '?'
  | .openTag => c == '<'
  | .inlineHtml => false
  | .rightBrace => c == '}'
  | _ => true

theorem prolonged_fst {test : Char → Bool} {more : Text → Nat} {long short : TokenKind}
    : (prolonged test more long short text).1 ∈ [long, short] := by
  cases text with
  | nil => simp [prolonged]
  | cons c rest =>
      rw [prolonged]
      split <;> simp

theorem comment_fst {first : TokenKind} {opening : Nat}
    : (comment first opening text).1 ∈ [first, .error] := by
  unfold comment
  split <;> simp

theorem asterisk_fst : (asterisk text).1 ∈ [.docComment, .blockComment, .error] := by
  cases text with
  | nil => simp [asterisk]
  | cons c rest =>
      rw [asterisk]
      split
      · split
        · simp
        · have kinds : (comment .docComment 2 rest).1 ∈ [.docComment, .error] := comment_fst
          simp only [List.mem_cons, List.not_mem_nil, or_false] at kinds ⊢
          tauto
      · exact List.mem_cons_of_mem _ comment_fst

theorem slash_fst
    : (slash text).1 ∈ [.lineComment, .operator, .docComment, .blockComment, .error] := by
  cases text with
  | nil => simp [slash]
  | cons c rest =>
      rw [slash]
      split
      · simp
      split
      · exact List.mem_cons_of_mem _ (List.mem_cons_of_mem _ asterisk_fst)
      · simp

theorem hash_fst : (hash text).1 ∈ [.attributeOpen, .lineComment] := by
  unfold hash
  split <;> simp

theorem lessThan_fst : (lessThan text).1 ∈ [.heredoc, .error, .openTag, .operator] := by
  unfold lessThan heredoc
  split
  · dsimp only
    split <;> simp
  · simp
  · split <;> simp
  · simp

theorem questionMark_fst
    : (questionMark text).1 ∈ [.closeTag, .nullsafeArrow, .doubleQuestion, .question] := by
  unfold questionMark
  split <;> simp

theorem fullStop_fst : (fullStop text).1 ∈ [.ellipsis, .number, .operator] := by
  rw [fullStop_eq]
  split
  · simp
  · exact List.mem_cons_of_mem _ prolonged_fst

theorem quotation_fst {quote : Char} : (quotation quote text).1 ∈ [.string, .error] := by
  unfold quotation
  dsimp only
  split <;> simp

theorem canStart_munch (c : Char) (text : Text) : canStart (munch c text).1 c = true := by
  have each {kind : TokenKind} {kinds : List TokenKind} (listed : kind ∈ kinds)
      (all : kinds.all (canStart · c) = true)
      : canStart kind c = true :=
    List.all_eq_true.mp all kind listed
  unfold munch
  split
  · rename_i first
    exact Bool.or_eq_true_iff.mpr (.inl first)
  split
  · rfl
  split
  · rename_i space
    exact space
  split
  · exact each slash_fst rfl
  · exact each hash_fst rfl
  · exact each lessThan_fst rfl
  · exact each questionMark_fst rfl
  · exact each fullStop_fst rfl
  · exact each prolonged_fst rfl
  · exact each prolonged_fst rfl
  · exact each quotation_fst rfl
  · exact each quotation_fst rfl
  · exact each quotation_fst rfl
  · exact each prolonged_fst rfl
  · exact each prolonged_fst rfl
  · exact each prolonged_fst rfl
  all_goals first | rfl | (dsimp only; split <;> rfl)

theorem canStart_of_munch {length : Nat} (munched : munch c text = (kind, length))
    : canStart kind c = true := by
  have starts := canStart_munch c text
  rwa [munched] at starts

/-- A comment to the end of the line ends there. -/
theorem head?_of_lineComment (munched : munch c (front ++ text) = (.lineComment, front.length))
    : ∀ d ∈ text.head?, d = '\n' := by
  have line {body : Text} (runs : run (· != '\n') (body ++ text) = body.length)
      : ∀ d ∈ text.head?, d = '\n' := by
    intro d first
    simpa using (run_append_iff.mp runs).2 d first
  have starts := canStart_of_munch munched
  simp only [canStart, Bool.or_eq_true, beq_iff_eq] at starts
  rcases starts with rfl | rfl
  · change slash (front ++ text) = _ at munched
    cases front with
    | nil => cases (slash_eq_zero_iff.mp munched).1
    | cons d body =>
        rw [List.cons_append, slash] at munched
        split at munched
        · exact line (Nat.succ_inj.mp (Prod.mk.inj munched).2)
        split at munched
        · have kinds : (asterisk (body ++ text)).1 ∈ _ := asterisk_fst
          rw [munched] at kinds
          simp at kinds
        · cases munched
  · change hash (front ++ text) = _ at munched
    rw [hash_eq] at munched
    split at munched
    · cases munched
    · exact line (Prod.mk.inj munched).2

/-- A close tag ends with the source, or where code starts again. -/
theorem opensCode_of_closeTag (munched : munch c (front ++ text) = (.closeTag, front.length))
    : text = [] ∨ opensCode text = true := by
  have starts := canStart_of_munch munched
  obtain rfl := eq_of_beq starts
  change questionMark (front ++ text) = _ at munched
  rw [questionMark_eq] at munched
  split at munched
  · cases front with
    | nil => cases munched
    | cons d body => exact markupLength_append (Nat.succ_inj.mp (Prod.mk.inj munched).2)
  split at munched
  · cases munched
  · have kinds : (followedBy '?' .doubleQuestion .question (front ++ text)).1 ∈ _ :=
      prolonged_fst
    rw [munched] at kinds
    simp at kinds

/-- Behind a close tag at the end of a text, the markup goes on over white space. -/
theorem munch_closeTag_space {d : Char} (space : isSpace d = true)
    (munched : munch c front = (.closeTag, front.length))
    : munch c (front ++ [d]) = (.closeTag, front.length + 1) := by
  obtain rfl := eq_of_beq (canStart_of_munch munched)
  have ends : questionMark front = (.closeTag, front.length) := munched
  change questionMark (front ++ [d]) = _
  rw [questionMark_eq] at ends
  split at ends
  · rename_i starts
    cases front with
    | nil => cases ends
    | cons e body =>
        obtain rfl : '>' = e := (List.cons_prefix_cons.mp (List.isPrefixOf_iff_prefix.mp starts)).1
        have length := markupLength_space space (Nat.succ_inj.mp (Prod.mk.inj ends).2)
        exact Prod.ext rfl (congrArg (· + 1) length)
  split at ends
  · cases ends
  · have kinds : (followedBy '?' .doubleQuestion .question front).1 ∈ _ := prolonged_fst
    rw [ends] at kinds
    simp at kinds

/-- Where code starts, there is an open tag. -/
theorem isOpenTag_of_opensCode (munched : munch c (front ++ text) = (kind, front.length))
    (opens : opensCode (c :: (front ++ text)) = true)
    : IsOpenTag (c :: front) := by
  obtain ⟨tag, isTag, starts⟩ := opensCode_iff.mp opens
  obtain ⟨rest, rfl⟩ : ∃ rest, tag = '<' :: '?' :: rest := by
    rcases isTag with rfl | ⟨word, _, rfl⟩
    · exact ⟨['='], rfl⟩
    · exact ⟨word, rfl⟩
  obtain ⟨rfl, begins⟩ := List.cons_prefix_cons.mp starts
  change lessThan (front ++ text) = _ at munched
  rw [lessThan_eq] at munched
  split at munched
  · rename_i heredoc
    obtain ⟨behind, same⟩ := List.isPrefixOf_iff_prefix.mp heredoc
    obtain ⟨behind', same'⟩ := begins
    rw [← same] at same'
    cases same'
  split at munched
  · rename_i echo
    have length := (Prod.mk.inj munched).2
    have inside := List.prefix_of_prefix_length_le (List.isPrefixOf_iff_prefix.mp echo)
      (List.prefix_append front text) (Nat.le_of_eq length)
    rw [← inside.eq_of_length length]
    exact .inl rfl
  rename_i echo
  have length := (Prod.mk.inj munched).2
  rcases isTag with same | ⟨word, folded, same⟩
  · obtain rfl : rest = ['='] := by simpa using same
    exact absurd (List.isPrefixOf_iff_prefix.mpr begins) echo
  · obtain rfl : rest = word := by simpa using same
    have four : ('?' :: rest).length = front.length := by
      have three : rest.length = 3 := by simpa [Text.lower] using congrArg List.length folded
      rw [List.length_cons, three, ← length]
    have inside := List.prefix_of_prefix_length_le begins (List.prefix_append front text)
      (Nat.le_of_eq four)
    rw [← inside.eq_of_length four]
    exact .inr ⟨rest, folded, rfl⟩

-----------------------------------------------------------------------------------------
-- Pieces before another text
-----------------------------------------------------------------------------------------

/-- Behind a piece that others follow, nothing changes if what follows those does. -/
theorem halts_of_stands (ends : munch c (front ++ (joined pieces ++ text)) = (kind, front.length))
    (stands : Stands pieces text) (more : pieces ≠ [])
    : Halts kind (joined pieces ++ text) (joined pieces ++ mild) := by
  obtain ⟨⟨kind', start⟩, others, rfl⟩ := List.exists_cons_of_ne_nil more
  have solid : start ≠ [] := stands.ne_nil _ List.mem_cons_self
  obtain ⟨d, body, rfl⟩ := List.exists_cons_of_ne_nil solid
  cases kind with
  | whitespace => rfl
  | lineComment =>
      intro e first
      exact head?_of_lineComment ends e first
  | closeTag =>
      right
      have opens := (opensCode_of_closeTag ends).resolve_left (by simp)
      rw [joined_cons, List.cons_append, List.cons_append, List.append_assoc] at opens
      have isTag := isOpenTag_of_opensCode (stands_cons.mp stands).1 opens
      refine opensCode_iff.mpr ⟨_, isTag, ?_⟩
      rw [joined_cons, List.append_assoc]
      exact List.prefix_append _ _
  | _ => exact True.intro

-----------------------------------------------------------------------------------------
-- Pieces that lack their end
-----------------------------------------------------------------------------------------

/-- Pieces in which no heredoc lacks its end, and a string does only where it is the last piece. -/
def IsSound (pieces : List Piece) : Prop :=
  ∀ piece ∈ pieces,
    ¬piece.LacksEnd (· == '<')
    ∧ (piece.LacksEnd opensString → pieces.getLast? = some piece)

instance (pieces : List Piece) : Decidable (IsSound pieces) :=
  inferInstanceAs (Decidable (∀ piece ∈ pieces, _ ∧ (_ → _)))

/-- Whether a comment in pieces lacks its end. -/
def OpensComment (pieces : List Piece) : Prop :=
  ∃ piece ∈ pieces, piece.LacksEnd (· == '/')

theorem opensText_of_opensString (c : Char) (opens : opensString c = true) : opensText c = true := by
  simp only [opensString, List.contains_eq_mem, List.mem_cons, List.not_mem_nil, or_false,
    decide_eq_true_eq] at opens
  rcases opens with rfl | rfl | rfl <;> rfl

theorem munch_of_opensString (opens : opensString c = true) (rest : Text)
    : munch c rest = quotation c rest := by
  simp only [opensString, List.contains_eq_mem, List.mem_cons, List.not_mem_nil, or_false,
    decide_eq_true_eq] at opens
  rcases opens with rfl | rfl | rfl <;> rfl

theorem quotedLength_of_open (opens : opensString c = true)
    (munched : munch c text = (.error, front.length))
    : quotedLength c text = (false, front.length) := by
  rw [munch_of_opensString opens] at munched
  unfold quotation at munched
  obtain ⟨kind, length⟩ := Prod.mk.inj munched
  refine Prod.ext ?_ length
  by_contra closed
  rw [if_pos (by simpa using closed)] at kind
  cases kind

/-- A string without its end is the last of sound pieces. -/
theorem IsSound.eq_nil {piece : Piece} (sound : IsSound (piece :: pieces))
    (stands : Stands (piece :: pieces) text) (unclosed : piece.LacksEnd opensString)
    : pieces = [] := by
  have last := (sound piece List.mem_cons_self).2 unclosed
  obtain ⟨kind, start⟩ := piece
  obtain ⟨c, front, rfl⟩ := List.exists_cons_of_ne_nil (stands.ne_nil _ List.mem_cons_self)
  obtain ⟨rfl, opens⟩ := unclosed
  obtain ⟨munched, later⟩ := stands_cons.mp stands
  have taken := quotedLength_of_open opens munched
  have left := drop_quotedLength_of_open c (front ++ (joined pieces ++ text)) (by rw [taken])
  rw [taken, List.drop_left] at left
  by_contra more
  obtain ⟨⟨kind', start'⟩, others, rfl⟩ := List.exists_cons_of_ne_nil more
  obtain ⟨d, body, rfl⟩ := List.exists_cons_of_ne_nil (later.ne_nil _ List.mem_cons_self)
  rcases left with none | single
  · simp at none
  · -- What is left is one backslash, which is no string.
    rw [joined_cons, List.cons_append, List.cons_append, List.cons.injEq, List.append_assoc,
      List.append_eq_nil_iff, List.append_eq_nil_iff] at single
    obtain ⟨rfl, rfl, empty, _⟩ := single
    have none : others = [] := by
      rw [List.eq_nil_iff_forall_not_mem]
      intro other listed
      refine later.ne_nil other (.tail _ listed) ?_
      exact List.flatMap_eq_nil_iff.mp empty other listed
    subst none
    simp only [List.getLast?_cons_cons, List.getLast?_singleton, Option.some.injEq,
      Prod.mk.injEq, List.cons.injEq] at last
    obtain ⟨_, rfl, _⟩ := last
    cases opens

theorem IsSound.suffix {init : List Piece} (sound : IsSound (init ++ pieces)) : IsSound pieces := by
  intro other listed
  obtain ⟨closed, last⟩ := sound other (List.mem_append_right _ listed)
  refine ⟨closed, fun unclosed => ?_⟩
  rw [← last unclosed, List.getLast?_append_of_ne_nil _ (List.ne_nil_of_mem listed)]

theorem IsSound.tail {piece : Piece} (sound : IsSound (piece :: pieces)) : IsSound pieces :=
  .suffix (List.singleton_append ▸ sound : IsSound ([piece] ++ pieces))

/-- Of sound pieces of a source those at any place are sound. -/
theorem IsSound.within {init block rest : List Piece} (sound : IsSound (init ++ (block ++ rest)))
    (stands : Stands (block ++ rest) text)
    : IsSound block := by
  intro piece listed
  refine ⟨(sound piece (by simp [listed])).1, fun unclosed => ?_⟩
  obtain ⟨front, back, rfl⟩ := List.append_of_mem listed
  rw [List.append_assoc, List.cons_append] at sound stands
  have none := sound.suffix.suffix.eq_nil stands.suffix unclosed
  rw [(List.append_eq_nil_iff.mp none).1, List.getLast?_concat]

/-- A comment without its end lasts over all that stands behind it. -/
theorem endsNoComment_of_munch (munched : munch '/' (front ++ text) = (.error, front.length))
    : EndsNoComment text := by
  change slash (front ++ text) = _ at munched
  cases front with
  | nil => cases (slash_eq_zero_iff.mp munched).1
  | cons d body =>
      rw [List.cons_append, slash] at munched
      split at munched
      · cases munched
      split at munched
      · exact (asterisk_eq_error_iff.mp munched).1
      · cases munched

theorem Stands.endsNoComment (stands : Stands pieces text) (opens : OpensComment pieces)
    : EndsNoComment text := by
  induction pieces with
  | nil =>
      obtain ⟨_, listed, _⟩ := opens
      cases listed
  | cons piece pieces ih =>
      obtain ⟨kind, start⟩ := piece
      obtain ⟨c, front, rfl⟩ := List.exists_cons_of_ne_nil (stands.ne_nil _ List.mem_cons_self)
      obtain ⟨munched, later⟩ := stands_cons.mp stands
      obtain ⟨other, listed, unclosed⟩ := opens
      rcases List.mem_cons.mp listed with rfl | further
      · obtain ⟨rfl, starts⟩ := unclosed
        obtain rfl : c = '/' := by simpa using starts
        exact (endsNoComment_of_munch munched).suffix
      · exact ih later ⟨other, further, unclosed⟩

/-- Of sound pieces one that others follow stays what it is before other text behind these. -/
theorem munch_of_stands (ends : munch c (front ++ (joined pieces ++ text)) = (kind, front.length))
    (stands : Stands pieces text) (more : pieces ≠ [])
    (sound : IsSound ((kind, c :: front) :: pieces)) (milder : Milder text mild)
    (lasts : Piece.LacksEnd (· == '/') (kind, c :: front) → EndsNoComment mild)
    : munch c (front ++ (joined pieces ++ mild)) = (kind, front.length) := by
  refine munch_stable (milder.append (joined pieces)) (halts_of_stands ends stands more) ?_ ?_ ends
  · rintro opens rfl
    obtain ⟨closed, _⟩ := sound _ List.mem_cons_self
    rcases opens with rfl | opens
    · exact closed ⟨rfl, rfl⟩
    · exact more (sound.eq_nil (stands_cons.mpr ⟨ends, stands⟩) ⟨rfl, opens⟩)
  · rintro rfl rfl
    exact (endsNoComment_of_munch ends).milder milder (lasts ⟨rfl, rfl⟩)

/-- Sound pieces stand before every text that does not prolong the last of them, and in which no
comment ends if one of them lacks its end.
-/
theorem Stands.stable (stands : Stands pieces text) (sound : IsSound pieces)
    (milder : Milder text mild) (lasts : OpensComment pieces → EndsNoComment mild)
    (halts : ∀ piece ∈ pieces.getLast?, Halts piece.1 text mild)
    (stays : ∀ piece ∈ pieces.getLast?, ¬piece.LacksEnd opensString)
    : Stands pieces mild := by
  induction pieces with
  | nil => exact stands_nil
  | cons piece pieces ih =>
      obtain ⟨kind, start⟩ := piece
      obtain ⟨d, body, rfl⟩ := List.exists_cons_of_ne_nil (stands.ne_nil _ List.mem_cons_self)
      obtain ⟨ends, rest⟩ := stands_cons.mp stands
      have unclosed (opens : Piece.LacksEnd (· == '/') (kind, d :: body)) : EndsNoComment mild :=
        lasts ⟨_, List.mem_cons_self, opens⟩
      by_cases more : pieces = []
      · subst more
        refine stands_cons.mpr ⟨munch_stable milder (halts _ rfl) ?_ ?_ ends, stands_nil⟩
        · rintro (rfl | opens) rfl
          · exact (sound _ List.mem_cons_self).1 ⟨rfl, rfl⟩
          · exact stays _ rfl ⟨rfl, opens⟩
        · rintro rfl rfl
          exact unclosed ⟨rfl, rfl⟩
      have last : ((kind, d :: body) :: pieces).getLast? = pieces.getLast? := by
        obtain ⟨first, others, rfl⟩ := List.exists_cons_of_ne_nil more
        rw [List.getLast?_cons_cons]
      rw [last] at halts stays
      have later : Stands pieces mild := ih rest sound.tail
        (fun ⟨piece, listed, opens⟩ => lasts ⟨piece, .tail _ listed, opens⟩) halts stays
      exact stands_cons.mpr ⟨munch_of_stands ends rest more sound milder unclosed, later⟩

theorem munch_longer {d : Char} (space : isSpace d = true) (runsOn : Piece.RunsOn (kind, c :: front))
    (munched : munch c front = (kind, front.length))
    : munch c (front ++ [d]) = (kind, front.length + 1) := by
  rcases runsOn with rfl | ⟨rfl, opens⟩
  · exact munch_closeTag_space space munched
  · have taken := quotedLength_of_open opens munched
    have other : d ≠ '\\' := by
      rintro rfl
      cases space
    have other' : d ≠ c := by
      rintro rfl
      simp only [isSpace, Bool.or_eq_true, beq_iff_eq] at space
      rcases space with ((rfl | rfl) | rfl) | rfl <;> cases opens
    rw [munch_of_opensString opens, quotation, quotedLength_concat other other' taken]
    rfl

/-- Sound pieces that stand before nothing and of which the last runs on take up white space. -/
theorem Stands.longer {init : List Piece} {d : Char} (space : isSpace d = true)
    (runsOn : Piece.RunsOn (kind, c :: front))
    (stands : Stands (init ++ [(kind, c :: front)]) [])
    (sound : IsSound (init ++ [(kind, c :: front)]))
    : Stands (init ++ [(kind, c :: (front ++ [d]))]) [] := by
  induction init with
  | nil =>
      have ends := (stands_cons.mp stands).1
      rw [joined_nil, List.append_nil, List.append_nil] at ends
      refine stands_cons.mpr ⟨?_, stands_nil⟩
      rw [joined_nil, List.append_nil, List.append_nil, munch_longer space runsOn ends,
        List.length_append, List.length_singleton]
  | cons piece init ih =>
      obtain ⟨kind', start⟩ := piece
      obtain ⟨e, body, rfl⟩ := List.exists_cons_of_ne_nil (stands.ne_nil _ List.mem_cons_self)
      rw [List.cons_append] at stands sound ⊢
      obtain ⟨ends, rest⟩ := stands_cons.mp stands
      have longer : joined (init ++ [(kind, c :: (front ++ [d]))]) ++ []
          = joined (init ++ [(kind, c :: front)]) ++ [d] := by simp
      refine stands_cons.mpr ⟨?_, ih rest sound.tail⟩
      rw [longer]
      refine munch_of_stands ends rest (by simp) sound (milder_space [] space []) fun _ => ?_
      exact endsNoComment_cons_iff.mpr ⟨by simp, endsNoComment_nil⟩

end Lexer

end ImportHeader
