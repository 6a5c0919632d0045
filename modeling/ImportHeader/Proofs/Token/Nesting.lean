import ImportHeader.Token.Lexer

/-! Brackets and their nesting. A word of brackets is nested if each opening one has its closing
one behind it, with nested words between and behind them. A stack of brackets that are still to be
closed tells the same from left to right.
-/

namespace ImportHeader

/-- The kind of bracket that closes the given one. An attribute list is closed like any other list
in brackets.
-/
def TokenKind.closer? : TokenKind → Option TokenKind
  | .leftParen => some .rightParen
  | .leftBracket => some .rightBracket
  | .attributeOpen => some .rightBracket
  | .leftBrace => some .rightBrace
  | _ => none

/-- The brackets, opening and closing. -/
def TokenKind.isBracket : TokenKind → Bool
  | .leftParen | .rightParen => true
  | .leftBracket | .attributeOpen | .rightBracket => true
  | .leftBrace | .rightBrace => true
  | _ => false

theorem TokenKind.isBracket_of_closer? {opening closing : TokenKind}
    (closes : opening.closer? = some closing)
    : opening.isBracket = true ∧ closing.isBracket = true := by
  cases opening <;> cases closes <;> exact ⟨rfl, rfl⟩

/-- A word of brackets that match. -/
inductive IsNested : List TokenKind → Prop
  | nil : IsNested []
  | pair {opening closing : TokenKind} {inside rest : List TokenKind}
    (closes : opening.closer? = some closing) (within : IsNested inside) (behind : IsNested rest)
    : IsNested (opening :: (inside ++ closing :: rest))

/-- A word of brackets that closes those of a stack, the first one first, and is nested otherwise.
-/
def Completes : List TokenKind → List TokenKind → Prop
  | [], word => IsNested word
  | closing :: stack, word =>
      ∃ inside rest, word = inside ++ closing :: rest ∧ IsNested inside ∧ Completes stack rest

theorem IsNested.append {first second : List TokenKind} (nested : IsNested first)
    (nested' : IsNested second)
    : IsNested (first ++ second) := by
  induction nested with
  | nil => exact nested'
  | pair closes within _ _ ih =>
      rw [List.cons_append, List.append_assoc]
      exact .pair closes within ih

namespace Completes

variable {stack : List TokenKind} {opening closing : TokenKind} {word : List TokenKind}

/-- A nested word changes nothing for what is still to be closed. -/
theorem after {inside : List TokenKind} (nested : IsNested inside)
    (completes : Completes stack word)
    : Completes stack (inside ++ word) := by
  cases stack with
  | nil => exact nested.append completes
  | cons closing stack =>
      obtain ⟨inside', rest, rfl, nested', later⟩ := completes
      exact ⟨inside ++ inside', rest, (List.append_assoc ..).symm, nested.append nested', later⟩

/-- What is opened has to be closed first. -/
theorem opened (closes : opening.closer? = some closing)
    (completes : Completes (closing :: stack) word)
    : Completes stack (opening :: word) := by
  obtain ⟨inside, rest, rfl, nested, later⟩ := completes
  have pair : IsNested (opening :: (inside ++ [closing])) := .pair closes nested .nil
  have whole := later.after pair
  rwa [List.cons_append, List.append_assoc, List.singleton_append] at whole

theorem closed (completes : Completes stack word)
    : Completes (closing :: stack) (closing :: word) :=
  ⟨[], word, rfl, .nil, completes⟩

/-- One word behind another closes the two stacks, one behind the other. -/
theorem append {stack' word' : List TokenKind} (completes : Completes stack word)
    (completes' : Completes stack' word')
    : Completes (stack ++ stack') (word ++ word') := by
  induction stack generalizing word with
  | nil => exact completes'.after completes
  | cons closing stack ih =>
      obtain ⟨inside, rest, rfl, nested, later⟩ := completes
      exact ⟨inside, rest ++ word', by simp, nested, ih later⟩

end Completes

-----------------------------------------------------------------------------------------
-- From one stack of brackets to another
-----------------------------------------------------------------------------------------

/-- Tokens of some kinds lead from one stack of brackets that are still to be closed to another.
Where no bracket is open, a given mark does not stand.
-/
inductive Unwinds (mark : TokenKind) : List TokenKind → List TokenKind → List TokenKind → Prop
  | nil {stack : List TokenKind} : Unwinds mark stack [] stack
  | plain {kind : TokenKind} {stack word rest : List TokenKind} (plain : kind.isBracket = false)
    (free : stack = [] → kind ≠ mark) (later : Unwinds mark stack word rest)
    : Unwinds mark stack (kind :: word) rest
  | opened {opening closing : TokenKind} {stack word rest : List TokenKind}
    (closes : opening.closer? = some closing) (later : Unwinds mark (closing :: stack) word rest)
    : Unwinds mark stack (opening :: word) rest
  | closed {closing : TokenKind} {stack word rest : List TokenKind}
    (bracket : closing.isBracket = true) (later : Unwinds mark stack word rest)
    : Unwinds mark (closing :: stack) (closing :: word) rest

namespace Unwinds

variable {mark : TokenKind} {stack middle rest word word' : List TokenKind}

theorem append (first : Unwinds mark stack word middle) (second : Unwinds mark middle word' rest)
    : Unwinds mark stack (word ++ word') rest := by
  induction first with
  | nil => exact second
  | plain plain free _ ih => exact .plain plain free (ih second)
  | opened closes _ ih => exact .opened closes (ih second)
  | closed bracket _ ih => exact .closed bracket (ih second)

/-- What leads to a bottom that no bracket closes completes the stack above it. -/
theorem completes {bottom : TokenKind} (plain : bottom.isBracket = false)
    (unwinds : Unwinds mark (stack ++ [bottom]) word [bottom])
    : Completes stack (word.filter TokenKind.isBracket) := by
  generalize above : stack ++ [bottom] = whole at unwinds
  generalize final : [bottom] = rest at unwinds
  induction unwinds generalizing stack with
  | nil =>
      obtain rfl : stack = [] := List.append_cancel_right (above.trans final.symm)
      exact .nil
  | plain other _ _ ih =>
      rw [List.filter_cons_of_neg (by simp [other])]
      exact ih above final
  | opened closes _ ih =>
      rw [List.filter_cons_of_pos (TokenKind.isBracket_of_closer? closes).1]
      exact (ih (congrArg _ above) final).opened closes
  | closed bracket _ ih =>
      cases stack with
      | nil =>
          rw [List.nil_append, List.cons.injEq] at above
          rw [← above.1, plain] at bracket
          cases bracket
      | cons closing stack =>
          rw [List.cons_append, List.cons.injEq] at above
          obtain ⟨rfl, below⟩ := above
          rw [List.filter_cons_of_pos bracket]
          exact (ih below final).closed

/-- What ends where no bracket is open does not end with the mark. -/
theorem getLast?_ne (plain : mark.isBracket = false) (unwinds : Unwinds mark stack word [])
    : ∀ last ∈ word.getLast?, last ≠ mark := by
  generalize final : ([] : List TokenKind) = rest at unwinds
  have later {kind : TokenKind} {word : List TokenKind} (here : word = [] → kind ≠ mark)
      (ih : ∀ last ∈ word.getLast?, last ≠ mark)
      : ∀ last ∈ (kind :: word).getLast?, last ≠ mark := by
    intro last isLast
    cases word with
    | nil =>
        obtain rfl : kind = last := Option.some.inj isLast
        exact here rfl
    | cons next word =>
        rw [List.getLast?_cons_cons] at isLast
        exact ih last isLast
  induction unwinds with
  | nil => nofun
  | plain other free behind ih =>
      refine later (fun none => ?_) (ih final)
      subst none final
      cases behind
      exact free rfl
  | opened closes behind ih =>
      refine later (fun none => ?_) (ih final)
      subst none final
      cases behind
  | closed bracket _ ih =>
      refine later (fun _ same => ?_) (ih final)
      rw [same, plain] at bracket
      cases bracket

end Unwinds

-----------------------------------------------------------------------------------------
-- Checking from left to right
-----------------------------------------------------------------------------------------

/-- Whether a word of brackets closes those of a stack and is nested otherwise. -/
def completes : List TokenKind → List TokenKind → Bool
  | stack, [] => stack.isEmpty
  | stack, kind :: word =>
      match kind.closer? with
      | some closing => completes (closing :: stack) word
      | none => stack.head? == some kind && completes stack.tail word

theorem TokenKind.closer?_of_closer? {opening closing : TokenKind}
    (closes : opening.closer? = some closing)
    : closing.closer? = none := by
  cases opening <;> cases closes <;> rfl

/-- The check passes over a nested word. -/
theorem IsNested.completes_append {inside : List TokenKind} (nested : IsNested inside)
    (stack word : List TokenKind)
    : completes stack (inside ++ word) = completes stack word := by
  induction nested generalizing stack word with
  | nil => rfl
  | @pair opening closing inside rest closes _ _ within behind =>
      have last := TokenKind.closer?_of_closer? closes
      simp only [List.cons_append, List.append_assoc, completes, closes, within, last, behind,
        List.head?_cons, List.tail_cons, beq_self_eq_true, Bool.true_and]

theorem completes_of_check {stack word : List TokenKind} (passes : completes stack word = true)
    : Completes stack word := by
  induction word generalizing stack with
  | nil =>
      rw [completes, List.isEmpty_iff] at passes
      subst passes
      exact .nil
  | cons kind word ih =>
      rw [completes] at passes
      split at passes
      · rename_i closing closes
        exact (ih passes).opened closes
      · rw [Bool.and_eq_true, beq_iff_eq, List.head?_eq_some_iff] at passes
        obtain ⟨⟨stack, rfl⟩, later⟩ := passes
        exact (ih later).closed

theorem isNested_iff {word : List TokenKind} : IsNested word ↔ completes [] word = true := by
  constructor
  · intro nested
    have passes := nested.completes_append [] []
    rw [List.append_nil] at passes
    exact passes
  · intro passes
    exact completes_of_check passes

instance (word : List TokenKind) : Decidable (IsNested word) :=
  decidable_of_iff _ isNested_iff.symm

end ImportHeader
