import ImportHeader.Proofs.Text.Endings
import ImportHeader.Proofs.Token.Blocks
import ImportHeader.Text.Blank
import Mathlib.Data.List.DropRight

/-! Comments stay comments: without the blanks at their end, and with other line endings. -/

namespace ImportHeader

namespace Text

theorem trimEnd_eq_rdropWhile (text : Text) : trimEnd text = text.rdropWhile isBlank :=
  rfl

/-- Trimming takes blanks only. -/
theorem exists_trimEnd (text : Text)
    : ∃ blanks, text = trimEnd text ++ blanks ∧ ∀ c ∈ blanks, isBlank c = true := by
  refine ⟨text.rtakeWhile isBlank, ?_, fun c listed => ?_⟩
  · rw [trimEnd_eq_rdropWhile, List.rdropWhile_append_rtakeWhile]
  · exact List.mem_rtakeWhile_imp listed

theorem trimEnd_of_getLast? {text : Text} {c : Char} (last : text.getLast? = some c)
    (solid : isBlank c = false)
    : trimEnd text = text := by
  rw [trimEnd_eq_rdropWhile, List.rdropWhile_eq_self_iff]
  intro some
  rw [List.getLast?_eq_some_getLast some] at last
  rw [Option.some.inj last, solid]
  exact Bool.false_ne_true

/-- A trimmed text does not end with a blank. -/
theorem isBlank_of_trimEnd {text : Text} {c : Char} (last : (trimEnd text).getLast? = some c)
    : isBlank c = false := by
  have some : trimEnd text ≠ [] := by
    intro none
    rw [none] at last
    cases last
  rw [List.getLast?_eq_some_getLast some] at last
  rw [← Option.some.inj last]
  exact Bool.eq_false_iff.mpr (List.rdropWhile_last_not isBlank text some)

/-- What a text with other line endings starts with, apart from line endings. -/
theorem head?_reline {ending text : Text} (isEnding : IsEnding ending) {d : Char}
    (other : d ≠ '\n') (other' : d ≠ '\r')
    : (reline ending text).head? = some d ↔ text.head? = some d := by
  have unlike (rest : Text) : (ending ++ rest).head? ≠ some d := by
    rcases isEnding with rfl | rfl
    · simpa using Ne.symm other
    · simpa using Ne.symm other'
  cases text with
  | nil => rfl
  | cons c rest =>
      rw [reline]
      split
      · rename_i line
        simpa [line, Ne.symm other] using unlike _
      split
      · rename_i broken
        obtain ⟨behind, rfl⟩ := List.head?_eq_some_iff.mp broken.2
        rw [reline_newline, broken.1]
        simpa [Ne.symm other'] using unlike _
      · rfl

end Text

namespace Lexer

variable {text ending : Text}

theorem IsLineComment.trimEnd (isComment : IsLineComment text)
    : IsLineComment (Text.trimEnd text) := by
  obtain ⟨blanks, whole, all⟩ := text.exists_trimEnd
  generalize Text.trimEnd text = trimmed at whole ⊢
  subst whole
  obtain ⟨absent, starts⟩ := isComment
  refine ⟨fun listed => absent (List.mem_append_left _ listed), ?_⟩
  -- The marks that start the comment are no blanks, so they are not taken.
  have solid {c : Char} {rest : Text} (same : blanks = c :: rest) : Text.isBlank c = true :=
    all c (same ▸ List.mem_cons_self)
  rcases starts with ⟨rest, same⟩ | ⟨rest, same, other⟩
  · cases trimmed with
    | nil => exact absurd (solid same) (by decide)
    | cons c trimmed =>
        cases trimmed with
        | nil => exact absurd (solid (List.cons.inj same).2) (by decide)
        | cons d trimmed =>
            obtain ⟨rfl, behind⟩ := List.cons.inj same
            obtain ⟨rfl, _⟩ := List.cons.inj behind
            exact .inl ⟨trimmed, rfl⟩
  · cases trimmed with
    | nil => exact absurd (solid same) (by decide)
    | cons c trimmed =>
        obtain ⟨rfl, rfl⟩ := List.cons.inj same
        refine .inr ⟨trimmed, rfl, ?_⟩
        cases trimmed with
        | nil => simp
        | cons d trimmed => exact other

theorem getLast?_of_commentLength? (closed : commentLength? text = some text.length)
    : text.getLast? = some '/' := by
  induction text with
  | nil => cases closed
  | cons c rest ih =>
      rw [commentLength?_cons] at closed
      split at closed
      · rename_i ends
        obtain ⟨behind, rfl⟩ := List.head?_eq_some_iff.mp ends.2
        have none : behind = [] := by simpa using closed
        rw [none]
        rfl
      · obtain ⟨inner, found, same⟩ := Option.map_eq_some_iff.mp closed
        obtain rfl := Nat.succ_inj.mp same
        rw [List.getLast?_cons, ih found]
        rfl

theorem comment_eq_iff {kind first : TokenKind} {opening : Nat} (closed : kind ≠ .error)
    : comment first opening text = (kind, text.length + opening)
      ↔ first = kind ∧ commentLength? text = some text.length := by
  unfold comment
  cases commentLength? text with
  | none =>
      simp only [Prod.mk.injEq, reduceCtorEq, and_false, iff_false]
      rintro ⟨same, _⟩
      exact closed same.symm
  | some length => simp

/-- A comment with a mark of its own: the shortest one for documentation, or one whose mark
stands behind the characters that open it.
-/
theorem asterisk_eq_iff {kind : TokenKind} (closed : kind ≠ .error)
    : asterisk text = (kind, text.length + 1)
      ↔ text = ['*', '/'] ∧ kind = .docComment
        ∨ (∃ rest, text = '*' :: rest ∧ rest.head? ≠ some '/' ∧ kind = .docComment
            ∧ commentLength? rest = some rest.length)
        ∨ text.head? ≠ some '*' ∧ kind = .blockComment
          ∧ commentLength? text = some text.length := by
  cases text with
  | nil =>
      simp only [asterisk, commentLength?]
      simp [Ne.symm closed]
  | cons c rest =>
      rw [asterisk]
      by_cases star : c = '*'
      · subst star
        rw [if_pos rfl]
        by_cases slash : rest.head? = some '/'
        · rw [if_pos slash]
          obtain ⟨behind, rfl⟩ := List.head?_eq_some_iff.mp slash
          simp [eq_comm, and_comm]
        · rw [if_neg slash, List.length_cons, comment_eq_iff closed]
          constructor
          · rintro ⟨rfl, found⟩
            exact .inr (.inl ⟨rest, rfl, slash, rfl, found⟩)
          · rintro (⟨same, _⟩ | ⟨_, same, _, rfl, found⟩ | ⟨other, _⟩)
            · obtain rfl := (List.cons.inj same).2
              exact absurd rfl slash
            · obtain rfl := (List.cons.inj same).2
              exact ⟨rfl, found⟩
            · exact absurd rfl other
      · rw [if_neg star, comment_eq_iff closed]
        have other : (c :: rest).head? ≠ some '*' := by simpa using star
        constructor
        · rintro ⟨rfl, found⟩
          exact .inr (.inr ⟨other, rfl, found⟩)
        · rintro (⟨same, _⟩ | ⟨_, same, _⟩ | ⟨_, rfl, found⟩)
          · exact absurd (List.cons.inj same).1 star
          · exact absurd (List.cons.inj same).1 star
          · exact ⟨rfl, found⟩

theorem commentLength?_reline (isEnding : Text.IsEnding ending)
    (closed : commentLength? text = some text.length)
    : commentLength? (Text.reline ending text) = some (Text.reline ending text).length := by
  induction text with
  | nil => cases closed
  | cons c rest ih =>
      rw [commentLength?_cons] at closed
      split at closed
      · rename_i ends
        obtain ⟨rfl, slash⟩ := ends
        obtain ⟨behind, rfl⟩ := List.head?_eq_some_iff.mp slash
        obtain rfl : behind = [] := by simpa using closed
        rfl
      · rename_i goes
        obtain ⟨inner, found, same⟩ := Option.map_eq_some_iff.mp closed
        obtain rfl := Nat.succ_inj.mp same
        have later := ih found
        -- A line ending holds no mark, and neither does one before a character.
        have skips {d : Char} (other : ¬(d = '*' ∧ (Text.reline ending rest).head? = some '/'))
            : commentLength? (d :: Text.reline ending rest)
              = some (d :: Text.reline ending rest).length := by
          rw [commentLength?_cons, if_neg other, later]
          rfl
        rw [Text.reline]
        split
        · have line := skips (d := '\n') (by simp)
          rcases isEnding with rfl | rfl
          · exact line
          · rw [List.cons_append, List.singleton_append, commentLength?_cons, if_neg (by simp),
              line]
            rfl
        split
        · exact later
        · refine skips ?_
          rintro ⟨star, slash⟩
          exact goes ⟨star, (Text.head?_reline isEnding (by decide) (by decide)).mp slash⟩

theorem IsBlockComment.getLast? (isComment : IsBlockComment text)
    : text.getLast? = some '/' := by
  obtain ⟨kind, rest, rfl, closed, ends⟩ := isComment
  rcases (asterisk_eq_iff closed).mp ends with ⟨rfl, _⟩ | ⟨body, rfl, _, _, found⟩ | ⟨_, _, found⟩
  · rfl
  · rw [List.getLast?_cons, List.getLast?_cons, List.getLast?_cons,
      getLast?_of_commentLength? found]
    rfl
  · rw [List.getLast?_cons, List.getLast?_cons, getLast?_of_commentLength? found]
    rfl

theorem IsBlockComment.reline (isEnding : Text.IsEnding ending) (isComment : IsBlockComment text)
    : IsBlockComment (Text.reline ending text) := by
  obtain ⟨kind, rest, rfl, closed, ends⟩ := isComment
  rw [Text.reline_cons (by decide) (by simp), Text.reline_cons (by decide) (by simp)]
  refine ⟨kind, _, rfl, closed, (asterisk_eq_iff closed).mpr ?_⟩
  have head? {text : Text} {d : Char} (other : d ≠ '\n') (other' : d ≠ '\r')
      (unlike : text.head? ≠ some d)
      : (Text.reline ending text).head? ≠ some d :=
    fun same => unlike ((Text.head?_reline isEnding other other').mp same)
  rcases (asterisk_eq_iff closed).mp ends
    with ⟨rfl, same⟩ | ⟨body, rfl, other, same, found⟩ | ⟨other, same, found⟩
  · exact .inl ⟨rfl, same⟩
  · refine .inr (.inl ⟨Text.reline ending body, Text.reline_cons (by decide) (by simp), ?_, same,
      commentLength?_reline isEnding found⟩)
    exact head? (by decide) (by decide) other
  · exact .inr (.inr ⟨head? (by decide) (by decide) other, same,
      commentLength?_reline isEnding found⟩)

/-- A comment without the blanks at its end is one. -/
theorem IsComment.trimEnd (isComment : IsComment text) : IsComment (Text.trimEnd text) := by
  rcases isComment with isLine | isBlock
  · exact .inl isLine.trimEnd
  · rw [Text.trimEnd_of_getLast? isBlock.getLast? rfl]
    exact .inr isBlock

/-- A comment with other line endings is one. -/
theorem IsComment.reline (isEnding : Text.IsEnding ending) (isComment : IsComment text)
    : IsComment (Text.reline ending text) := by
  rcases isComment with isLine | isBlock
  · rw [Text.reline_of_not_mem isLine.1]
    exact .inl isLine
  · exact .inr (isBlock.reline isEnding)

end Lexer

end ImportHeader
