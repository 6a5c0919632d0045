import ImportHeader.Proofs.Text.Bytes
import ImportHeader.Proofs.Text.Endings

/-! A text that is cut at a place: the line of the place, what stands behind the place on that
line, and the lines behind it.
-/

namespace ImportHeader

namespace Text

theorem length_lines (text : Text) : text.lines.length = text.count '\n' + 1 := by
  induction h : text.length using Nat.strongRecOn generalizing text with
  | ind size ih =>
      subst h
      rcases text.lines_cases with ⟨absent, lines⟩ | ⟨first, back, rfl, absent, lines⟩
      · rw [lines, List.count_eq_zero_of_not_mem absent]
        rfl
      · rw [lines, List.length_cons, ih back.length (by simp; omega) back rfl, List.count_append,
          List.count_eq_zero_of_not_mem absent, List.count_cons_self, Nat.zero_add]

theorem terminate_append {others : List Text} (some : others ≠ []) (lines : List Text)
    : terminate (lines ++ others) = lines.map (· ++ ['\n']) ++ terminate others := by
  induction lines with
  | nil => rfl
  | cons line lines ih =>
      obtain ⟨next, rest, same⟩ := List.exists_cons_of_ne_nil
        (List.append_ne_nil_of_right_ne_nil lines some)
      rw [List.cons_append, same, terminate, ← same, ih]
      rfl

/-- The lines through a line feed are the text through it. -/
theorem throughLine_of_append (front back : Text)
    : throughLine (front ++ '\n' :: back) (front.count '\n') = front ++ ['\n'] := by
  have cut : (front ++ '\n' :: back).blocks
      = front.lines.map (· ++ ['\n']) ++ terminate back.lines := by
    rw [blocks, lines_append_newline, terminate_append (lines_ne_nil back)]
  have whole : (front.lines.map (· ++ ['\n'])).flatten = front ++ ['\n'] := by
    have joined := flatten_blocks (front ++ ['\n'])
    have empty : lines [] = [[]] := rfl
    rw [blocks, lines_append_newline, terminate_append (lines_ne_nil []), List.flatten_append,
      empty] at joined
    simpa [terminate] using joined
  rw [throughLine, cut, ← length_lines, ← List.length_map (f := fun line => line ++ ['\n']),
    List.take_left, whole]

/-- The lines through the last one are the whole text. -/
theorem throughLine_of_last (text : Text) : throughLine text (text.count '\n') = text := by
  have lengths : ∀ lines : List Text, (terminate lines).length = lines.length := by
    intro lines
    induction lines using terminate.induct with
    | case1 => rfl
    | case2 last => rfl
    | case3 line next rest ih =>
        rw [terminate, List.length_cons, ih]
        rfl
  have all : text.blocks.length ≤ text.count '\n' + 1 :=
    Nat.le_of_eq ((lengths _).trans text.length_lines)
  rw [throughLine, List.take_of_length_le all, flatten_blocks]

/-- What stands behind a place: the rest of its line, the line feed, blank lines and the body.
Without a line feed there is no body.
-/
theorem exists_behind (front rest : Text)
    : ∃ line ending,
        rest = line ++ (ending ++ (blankBehind (front ++ rest) (front.count '\n')
          ++ bodyBehind (front ++ rest) (front.count '\n')))
        ∧ '\n' ∉ line
        ∧ (ending = ['\n']
          ∨ ending = [] ∧ blankBehind (front ++ rest) (front.count '\n') = []
            ∧ bodyBehind (front ++ rest) (front.count '\n') = []) := by
  have whole := throughLine_append (front ++ rest) (front.count '\n')
  rcases rest.lines_cases with ⟨absent, _⟩ | ⟨line, back, rfl, absent, _⟩
  · have through := throughLine_of_last (front ++ rest)
    rw [List.count_append, List.count_eq_zero_of_not_mem absent, Nat.add_zero] at through
    rw [through, List.append_assoc, List.append_right_eq_self, List.append_eq_nil_iff] at whole
    obtain ⟨blanks, body⟩ := whole
    exact ⟨rest, [], by simp [blanks, body], absent, .inr ⟨rfl, blanks, body⟩⟩
  · have through := throughLine_of_append (front ++ line) back
    rw [List.count_append, List.count_eq_zero_of_not_mem absent, Nat.add_zero,
      List.append_assoc] at through
    refine ⟨line, ['\n'], ?_, absent, .inl rfl⟩
    rw [through, List.append_assoc, List.append_assoc, List.append_assoc] at whole
    exact (List.append_cancel_left whole).symm

/-- The lines of a text through a place before a line feed are those of the text before it. -/
theorem take_lines (front back : Text)
    : (lines (front ++ '\n' :: back)).take (front.count '\n' + 1) = front.lines := by
  rw [lines_append_newline, ← length_lines, List.take_left]

end Text

namespace LineIndex

/-- The line of a place ends where the next line feed stands, or with the text. -/
theorem lineSpan?_of_append {front line tail : Text} (absent : '\n' ∉ line)
    (ends : tail = [] ∨ ∃ back, tail = '\n' :: back)
    : ∃ start, (ofText (front ++ line ++ tail)).lineSpan? (front.count '\n')
        = some ⟨start, Text.size (front ++ line)⟩ := by
  have none : startsAfter (Text.size front) line = [] := by
    refine List.eq_nil_of_length_eq_zero ?_
    rw [length_startsAfter, List.count_eq_zero_of_not_mem absent]
  have starts : (ofText (front ++ line ++ tail)).starts
      = (0 :: startsAfter 0 front) ++ startsAfter (Text.size (front ++ line)) tail := by
    rw [ofText, startsAfter_append, startsAfter_append, Nat.zero_add, Nat.zero_add, none,
      List.append_nil, List.cons_append]
  have length : (0 :: startsAfter 0 front).length = front.count '\n' + 1 := by
    rw [List.length_cons, length_startsAfter]
  obtain ⟨start, first⟩ : ∃ start,
      (ofText (front ++ line ++ tail)).starts[front.count '\n']? = some start := by
    rw [starts]
    exact ⟨_, List.getElem?_eq_getElem (by rw [List.length_append, length]; omega)⟩
  refine ⟨start, ?_⟩
  have next : (ofText (front ++ line ++ tail)).starts[front.count '\n' + 1]?
      = (startsAfter (Text.size (front ++ line)) tail)[0]? := by
    rw [starts, ← length, List.getElem?_append_right (Nat.le_refl _), Nat.sub_self]
  rw [lineSpan?, first, Option.map_some, next]
  rcases ends with rfl | ⟨back, rfl⟩
  · rw [List.append_nil]
    rfl
  · rw [startsAfter, if_pos rfl]
    rfl

end LineIndex

end ImportHeader
