import ImportHeader.Proofs.Parser.Progress

/-! Cursors before alike tokens. What stands behind these tokens differs, but up to it both cursors
see the same, also where the parser looks some tokens ahead.
-/

namespace ImportHeader

namespace Lexeme

/-- Lexemes that the parser does not tell apart: only the text of names counts. -/
def Alike (left right : Lexeme) : Prop :=
  right.token.kind = left.token.kind
  ∧ (left.token.kind = .name → right.token.text = left.token.text)

/-- The keywords beyond which no step inside a statement looks. -/
def quietKeywords : List Text :=
  ["use", "namespace"]

/-- The marks beyond which no step inside a statement looks: closing brackets, and what ends a
statement.
-/
def quietMarks : List TokenKind :=
  [.semicolon, .rightParen, .rightBracket, .rightBrace, .openTag, .closeTag]

/-- Lexemes beyond which no step inside a statement looks: both are the keyword of an import,
or of a namespace, or both are the same mark.
-/
def Quiet (left right : Lexeme) : Prop :=
  (∃ keyword ∈ quietKeywords,
    left.token.isKeyword keyword = true ∧ right.token.isKeyword keyword = true)
  ∨ right.token.kind = left.token.kind ∧ left.token.kind ∈ quietMarks

/-- Whether keywords are other ones than the quiet ones. -/
def areLoud (keywords : List Text) : Bool :=
  keywords.all fun keyword => quietKeywords.all fun quiet => !Text.sameFolded quiet keyword

end Lexeme

/-- Two lists start with as many alike lexemes, and behind these both end or go on with quiet
ones.
-/
inductive Near : Nat → List Lexeme → List Lexeme → Prop
  | ended : Near 0 [] []
  | border {left right : Lexeme} {rest rest' : List Lexeme} (quiet : left.Quiet right)
    : Near 0 (left :: rest) (right :: rest')
  | step {count : Nat} {left right : Lexeme} {rest rest' : List Lexeme}
    (alike : left.Alike right) (near : Near count rest rest')
    : Near (count + 1) (left :: rest) (right :: rest')

theorem Token.isKeyword_eq_of_text {left right : Token} (kind : right.kind = left.kind)
    (text : left.kind = .name → right.text = left.text) (keyword : Text)
    : right.isKeyword keyword = left.isKeyword keyword := by
  unfold Token.isKeyword
  rw [kind]
  by_cases named : left.kind = .name
  · rw [text named]
  · rw [beq_false_of_ne named, Bool.false_and, Bool.false_and]

/-- A token spells one keyword at most. -/
theorem Token.isKeyword_eq_of_isKeyword {token : Token} {keyword other : Text}
    (here : token.isKeyword keyword = true)
    : token.isKeyword other = Text.sameFolded keyword other := by
  obtain ⟨kind, same⟩ := Bool.and_eq_true_iff.mp here
  unfold Token.isKeyword
  rw [kind, Bool.true_and]
  unfold Text.sameFolded at same ⊢
  rw [eq_of_beq same]

namespace Lexeme

variable {left right : Lexeme}

theorem Alike.isKeyword (alike : left.Alike right) (keyword : Text)
    : right.token.isKeyword keyword = left.token.isKeyword keyword :=
  Token.isKeyword_eq_of_text alike.1 alike.2 keyword

theorem Quiet.kind (quiet : left.Quiet right) : right.token.kind = left.token.kind := by
  rcases quiet with ⟨_, _, first, second⟩ | ⟨same, _⟩
  · have first := (Bool.and_eq_true_iff.mp first).1
    have second := (Bool.and_eq_true_iff.mp second).1
    rw [eq_of_beq first, eq_of_beq second]
  · exact same

/-- A quiet lexeme is a name or one of a few marks. -/
theorem Quiet.kind_mem (quiet : left.Quiet right) : left.token.kind ∈ .name :: quietMarks := by
  rcases quiet with ⟨_, _, first, _⟩ | ⟨_, mark⟩
  · rw [eq_of_beq (Bool.and_eq_true_iff.mp first).1]
    exact List.mem_cons_self
  · exact List.mem_cons_of_mem _ mark

theorem Quiet.isKeyword (quiet : left.Quiet right) (keyword : Text)
    : right.token.isKeyword keyword = left.token.isKeyword keyword := by
  rcases quiet with ⟨_, _, first, second⟩ | ⟨same, mark⟩
  · rw [Token.isKeyword_eq_of_isKeyword first, Token.isKeyword_eq_of_isKeyword second]
  · refine Token.isKeyword_eq_of_text same (fun named => ?_) keyword
    simp [quietMarks, named] at mark

/-- A quiet lexeme spells no loud keyword. -/
theorem Quiet.isKeyword_eq_false (quiet : left.Quiet right) {keywords : List Text}
    (loud : areLoud keywords = true) {keyword : Text} (listed : keyword ∈ keywords)
    : left.token.isKeyword keyword = false := by
  rcases quiet with ⟨spelled, known, first, _⟩ | ⟨_, mark⟩
  · have other := List.all_eq_true.mp (List.all_eq_true.mp loud keyword listed) spelled known
    rw [Token.isKeyword_eq_of_isKeyword first]
    simpa using other
  · unfold Token.isKeyword
    rw [Bool.and_eq_false_iff]
    left
    rw [beq_eq_false_iff_ne]
    intro named
    simp [quietMarks, named] at mark

end Lexeme

namespace Near

variable {count : Nat} {left right : List Lexeme}

theorem length_le (near : Near count left right) : count ≤ left.length := by
  induction near with
  | ended => exact Nat.le_refl 0
  | border => exact Nat.zero_le _
  | step _ _ ih => exact Nat.succ_le_succ ih

theorem length_le_right (near : Near count left right) : count ≤ right.length := by
  induction near with
  | ended => exact Nat.le_refl 0
  | border => exact Nat.zero_le _
  | step _ _ ih => exact Nat.succ_le_succ ih

theorem eq_nil (near : Near count [] right) : right = [] := by
  cases near with
  | ended => rfl

/-- Behind some of the alike lexemes there are the other ones. -/
theorem drop (near : Near count left right) {n : Nat} (few : n ≤ count)
    : Near (count - n) (left.drop n) (right.drop n) := by
  induction near generalizing n with
  | ended =>
      obtain rfl := Nat.le_zero.mp few
      exact .ended
  | border quiet =>
      obtain rfl := Nat.le_zero.mp few
      exact .border quiet
  | step alike near ih =>
      cases n with
      | zero => exact .step alike near
      | succ n =>
          rw [Nat.add_sub_add_right]
          exact ih (Nat.le_of_succ_le_succ few)

end Near

-----------------------------------------------------------------------------------------
-- What can be seen from near cursors
-----------------------------------------------------------------------------------------

namespace Near

open Cursor

variable {count : Nat} {start start' : Cursor}

theorem kind?_eq (near : Near count start.ahead start'.ahead)
    : start'.kind? 0 = start.kind? 0 := by
  unfold Cursor.kind? Cursor.token?
  generalize start.ahead = left at near
  generalize start'.ahead = right at near
  cases near with
  | ended => rfl
  | border quiet => simpa using quiet.kind
  | step alike _ => simpa using alike.1

/-- Two near cursors stand before tokens of one kind, or both before none. -/
theorem token?_cases (near : Near count start.ahead start'.ahead)
    : (start.token? 0 = none ∧ start'.token? 0 = none)
      ∨ ∃ token token', start.token? 0 = some token ∧ start'.token? 0 = some token'
          ∧ token'.kind = token.kind := by
  have kinds := near.kind?_eq
  unfold Cursor.kind? at kinds
  cases next : start.token? 0 with
  | none =>
      rw [next, Option.map_none, Option.map_eq_none_iff] at kinds
      exact .inl ⟨rfl, kinds⟩
  | some token =>
      rw [next, Option.map_some, Option.map_eq_some_iff] at kinds
      obtain ⟨token', next', kind⟩ := kinds
      exact .inr ⟨token, token', rfl, next', kind⟩

theorem isAt_eq (near : Near count start.ahead start'.ahead) (kind : TokenKind)
    : start'.isAt kind = start.isAt kind := by
  rw [Cursor.isAt, near.kind?_eq, Cursor.isAt]

theorem isKeyword_eq (near : Near count start.ahead start'.ahead) (keywords : List Text)
    : start'.isKeyword 0 keywords = start.isKeyword 0 keywords := by
  unfold Cursor.isKeyword Cursor.token?
  generalize start.ahead = left at near
  generalize start'.ahead = right at near
  cases near with
  | ended => rfl
  | border quiet =>
      have same := funext quiet.isKeyword
      simp [same]
  | step alike _ =>
      have same := funext alike.isKeyword
      simp [same]

theorem atKeyword_eq (near : Near count start.ahead start'.ahead) (keyword : Text)
    : start'.atKeyword keyword = start.atKeyword keyword :=
  near.isKeyword_eq [keyword]

/-- The cursors behind the next tokens, if these are not quiet. -/
theorem advance (near : Near (count + 1) start.ahead start'.ahead)
    : Near count start.advance.ahead start'.advance.ahead := by
  rw [advance_ahead, advance_ahead]
  exact near.drop (Nat.succ_le_succ (Nat.zero_le count))

/-- The cursor behind some tokens sees what the first one sees behind them. -/
theorem kind?_eq_of_le (near : Near count start.ahead start'.ahead) {i : Nat} (within : i ≤ count)
    : start'.kind? i = start.kind? i := by
  have later : Near (count - i) { start with ahead := start.ahead.drop i }.ahead
      { start' with ahead := start'.ahead.drop i }.ahead := near.drop within
  have same := later.kind?_eq
  simpa [Cursor.kind?, Cursor.token?] using same

theorem isKeyword_eq_of_le (near : Near count start.ahead start'.ahead) {i : Nat}
    (within : i ≤ count) (keywords : List Text)
    : start'.isKeyword i keywords = start.isKeyword i keywords := by
  have later : Near (count - i) { start with ahead := start.ahead.drop i }.ahead
      { start' with ahead := start'.ahead.drop i }.ahead := near.drop within
  have same := later.isKeyword_eq keywords
  simpa [Cursor.isKeyword, Cursor.token?] using same

/-- A token that is not quiet is one of the alike ones, so both cursors can look behind it. -/
theorem lt_of_kind? (near : Near count start.ahead start'.ahead) {i : Nat} (within : i ≤ count)
    {kind : TokenKind} (here : start.kind? i = some kind)
    (loud : kind ∉ .name :: Lexeme.quietMarks)
    : i < count := by
  rcases Nat.lt_or_eq_of_le within with less | rfl
  · exact less
  exfalso
  have later := near.drop (Nat.le_refl i)
  rw [Nat.sub_self] at later
  unfold Cursor.kind? Cursor.token? at here
  rw [show start.ahead[i]? = (start.ahead.drop i)[0]? by simp] at here
  generalize start.ahead.drop i = left at later here
  generalize start'.ahead.drop i = right at later
  cases later with
  | ended => simp at here
  | border quiet =>
      have listed := quiet.kind_mem
      simp only [List.getElem?_cons_zero, Option.map_some, Option.some.injEq] at here
      exact loud (here ▸ listed)

theorem lt_of_isKeyword (near : Near count start.ahead start'.ahead) {i : Nat}
    (within : i ≤ count) {keywords : List Text} (here : start.isKeyword i keywords = true)
    (loud : Lexeme.areLoud keywords = true)
    : i < count := by
  rcases Nat.lt_or_eq_of_le within with less | rfl
  · exact less
  exfalso
  have later := near.drop (Nat.le_refl i)
  rw [Nat.sub_self] at later
  unfold Cursor.isKeyword Cursor.token? at here
  rw [show start.ahead[i]? = (start.ahead.drop i)[0]? by simp] at here
  generalize start.ahead.drop i = left at later here
  generalize start'.ahead.drop i = right at later
  cases later with
  | ended => simp at here
  | border quiet =>
      simp only [List.getElem?_cons_zero, Option.map_some, Option.any_some,
        List.any_eq_true] at here
      obtain ⟨keyword, listed, spelled⟩ := here
      rw [quiet.isKeyword_eq_false loud listed] at spelled
      cases spelled

end Near

-----------------------------------------------------------------------------------------
-- What can be seen some tokens ahead
-----------------------------------------------------------------------------------------

namespace Near

variable {count : Nat} {start start' : Cursor}

theorem atFunction_eq (near : Near count start.ahead start'.ahead)
    : start'.atFunction = start.atFunction := by
  unfold Cursor.atFunction
  rw [near.atKeyword_eq]
  cases keyword : start.atKeyword "function" with
  | false => rfl
  | true =>
      have one := near.lt_of_isKeyword (Nat.zero_le _) keyword (by decide)
      rw [near.kind?_eq_of_le one]
      cases reference : start.kind? 1 == some .ampersand with
      | false => rfl
      | true =>
          have two := near.lt_of_kind? one (eq_of_beq reference) (by decide)
          rw [near.kind?_eq_of_le two]

theorem atClosure_eq (near : Near count start.ahead start'.ahead)
    : start'.atClosure = start.atClosure := by
  unfold Cursor.atClosure
  rw [near.isKeyword_eq, near.atKeyword_eq]
  cases keyword : start.isKeyword 0 ["function", "fn"] with
  | false => rfl
  | true =>
      have one := near.lt_of_isKeyword (Nat.zero_le _) keyword (by decide)
      rw [near.kind?_eq_of_le one]

/-- A keyword and what stands behind it, for keywords other than that of an import. -/
theorem atKeyword_and_kind?_eq (near : Near count start.ahead start'.ahead) {keyword : Text}
    (other : Lexeme.areLoud [keyword] = true)
    (kind : TokenKind)
    : (start'.atKeyword keyword && start'.kind? 1 == some kind)
      = (start.atKeyword keyword && start.kind? 1 == some kind) := by
  rw [near.atKeyword_eq]
  cases here : start.atKeyword keyword with
  | false => rfl
  | true =>
      have one := near.lt_of_isKeyword (Nat.zero_le _) here other
      rw [near.kind?_eq_of_le one]

theorem readonlyClass_eq (near : Near count start.ahead start'.ahead)
    : (start'.atKeyword "readonly" && start'.isKeyword 1 ["class"])
      = (start.atKeyword "readonly" && start.isKeyword 1 ["class"]) := by
  rw [near.atKeyword_eq]
  cases here : start.atKeyword "readonly" with
  | false => rfl
  | true =>
      have one := near.lt_of_isKeyword (Nat.zero_le _) here (by decide)
      rw [near.isKeyword_eq_of_le one]

/-- Whether an ampersand joins two types. -/
theorem joins_eq (near : Near count start.ahead start'.ahead)
    : (start'.isAt .ampersand
        && !(start'.kind? 1 == some .variable || start'.kind? 1 == some .ellipsis
          || start'.kind? 1 == some .ampersand))
      = (start.isAt .ampersand
        && !(start.kind? 1 == some .variable || start.kind? 1 == some .ellipsis
          || start.kind? 1 == some .ampersand)) := by
  rw [near.isAt_eq]
  cases here : start.isAt .ampersand with
  | false => rfl
  | true =>
      have one := near.lt_of_kind? (Nat.zero_le _) (eq_of_beq here) (by decide)
      rw [near.kind?_eq_of_le one]

/-- Two lists that are near start with lexemes of one kind, or both are empty. -/
theorem head?_kind_eq {left right : List Lexeme} (near : Near count left right)
    : right.head?.map (·.token.kind) = left.head?.map (·.token.kind) := by
  cases near with
  | ended => rfl
  | border quiet => simp [quiet.kind]
  | step alike _ => simp [alike.1]

theorem atClass_eq (near : Near count start.ahead start'.ahead)
    : start'.atClass = start.atClass := by
  unfold Cursor.atClass
  dsimp only
  generalize start.ahead = left at near
  generalize start'.ahead = right at near
  induction near with
  | ended => rfl
  | @border left right rest rest' quiet =>
      -- A quiet lexeme is neither a modifier nor the keyword of a class.
      have modifier : Parser.classModifiers.any left.token.isKeyword = false :=
        List.any_eq_false.mpr fun keyword listed => by
          rw [quiet.isKeyword_eq_false (by decide) listed]
          exact Bool.false_ne_true
      have keyword : Parser.classKeywords.any left.token.isKeyword = false :=
        List.any_eq_false.mpr fun keyword listed => by
          rw [quiet.isKeyword_eq_false (by decide) listed]
          exact Bool.false_ne_true
      have same := funext quiet.isKeyword
      rw [List.dropWhile_cons_of_neg (by simp [same, modifier]),
        List.dropWhile_cons_of_neg (by simp [modifier])]
      cases rest <;> cases rest' <;> simp [same, keyword]
  | @step count left right rest rest' alike near ih =>
      have same := funext alike.isKeyword
      cases modifier : Parser.classModifiers.any left.token.isKeyword with
      | true =>
          rw [List.dropWhile_cons_of_pos (by simp [same, modifier]),
            List.dropWhile_cons_of_pos (by simp [modifier])]
          exact ih
      | false =>
          rw [List.dropWhile_cons_of_neg (by simp [same, modifier]),
            List.dropWhile_cons_of_neg (by simp [modifier])]
          have next := near.head?_kind_eq
          cases rest with
          | nil =>
              cases rest' with
              | nil => rfl
              | cons => cases next
          | cons name rest =>
              cases rest' with
              | nil => cases next
              | cons name' rest' =>
                  simp only [List.head?_cons, Option.map_some, Option.some.injEq] at next
                  simp [same, next]

end Near

end ImportHeader
