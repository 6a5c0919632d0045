import ImportHeader.Proofs.Text.Lines

/-! Line endings. A text gets other ones line by line, or, which is the same, by replacing
each of them where it stands.
-/

namespace ImportHeader

namespace Text

/-- A text with another line ending. -/
def relined (ending text : Text) : Text :=
  List.intercalate ending (text.lines.map withoutReturn)

/-- Replaces each line ending where it stands. -/
def reline (ending : Text) : Text → Text
  | [] => []
  | c :: rest =>
      if c = '\n' then
        ending ++ reline ending rest
      else if c = '\r' ∧ rest.head? = some '\n' then
        reline ending rest
      else
        c :: reline ending rest

variable {ending front back text : Text}

@[simp] theorem reline_nil : reline ending [] = [] :=
  rfl

@[simp] theorem reline_newline : reline ending ('\n' :: text) = ending ++ reline ending text := by
  rw [reline, if_pos rfl]

theorem reline_cons {c : Char} (line : c ≠ '\n') (back : c = '\r' → text.head? ≠ some '\n')
    : reline ending (c :: text) = c :: reline ending text := by
  rw [reline, if_neg line, if_neg (fun both => back both.1 both.2)]

/-- Texts that do not split a line ending get their line endings by themselves. -/
theorem reline_append (apart : front.getLast? = some '\r' → back.head? ≠ some '\n')
    : reline ending (front ++ back) = reline ending front ++ reline ending back := by
  induction front with
  | nil => rfl
  | cons c front ih =>
      have apart' : front.getLast? = some '\r' → back.head? ≠ some '\n' := by
        intro last
        refine apart ?_
        rw [List.getLast?_cons, last]
        rfl
      rw [List.cons_append, reline, reline, ih apart']
      split
      · rw [List.append_assoc]
      · cases front with
        | nil =>
            -- The first text is a carriage return or another character.
            have alone : ¬(c = '\r' ∧ back.head? = some '\n') := by
              rintro ⟨rfl, next⟩
              exact apart rfl next
            simp [alone]
        | cons d front =>
            rw [List.cons_append, List.head?_cons, List.head?_cons]
            by_cases both : c = '\r' ∧ some d = some '\n'
            · rw [if_pos both, if_pos both]
            · rw [if_neg both, if_neg both, List.cons_append]

theorem reline_of_not_mem (absent : '\n' ∉ text) : reline ending text = text := by
  induction text with
  | nil => rfl
  | cons c rest ih =>
      obtain ⟨other, later⟩ := List.mem_cons.not.mp absent |> not_or.mp
      rw [reline_cons (Ne.symm other), ih later]
      intro _ next
      exact later (List.mem_of_mem_head? next)

theorem withoutReturn_of_ne {line : Text} (other : line.getLast? ≠ some '\r')
    : withoutReturn line = line :=
  if_neg other

/-- A line with its line feed. -/
theorem reline_line {line : Text} (absent : '\n' ∉ line)
    : reline ending (line ++ '\n' :: back)
      = withoutReturn line ++ ending ++ reline ending back := by
  by_cases return? : line.getLast? = some '\r'
  · obtain ⟨start, rfl⟩ := List.getLast?_eq_some_iff.mp return?
    have absent' : '\n' ∉ start := fun listed => absent (List.mem_append_left _ listed)
    have broken : reline ending ('\r' :: '\n' :: back) = ending ++ reline ending back := by
      rw [reline, if_neg (by decide), if_pos ⟨rfl, rfl⟩, reline_newline]
    rw [withoutReturn, if_pos return?, List.dropLast_concat, List.append_assoc,
      reline_append (by simp), reline_of_not_mem absent', List.append_assoc,
      List.singleton_append, broken]
  · rw [withoutReturn_of_ne return?, reline_append (fun last => absurd last return?),
      reline_of_not_mem absent, reline_newline, List.append_assoc]

theorem relined_line {line : Text} (absent : '\n' ∉ line)
    : relined ending (line ++ '\n' :: back)
      = withoutReturn line ++ ending ++ relined ending back := by
  obtain ⟨first, others, more⟩ := List.exists_cons_of_ne_nil (lines_ne_nil back)
  rw [relined, relined, lines_append_newline, lines_of_not_mem absent, more]
  simp [List.intercalate_cons_cons]

/-- Both ways to replace line endings agree, if no carriage return ends the text. -/
theorem relined_eq_reline (other : text.getLast? ≠ some '\r')
    : relined ending text = reline ending text := by
  induction h : text.length using Nat.strongRecOn generalizing text with
  | ind size ih =>
      subst h
      rcases text.lines_cases with ⟨absent, lines⟩ | ⟨first, back, rfl, absent, lines⟩
      · rw [relined, lines, reline_of_not_mem absent]
        simp [withoutReturn_of_ne other]
      · have other' : back.getLast? ≠ some '\r' := by
          intro last
          refine other ?_
          rw [List.getLast?_append, List.getLast?_cons, last]
          rfl
        rw [reline_line absent, ← ih back.length (by simp; omega) other' rfl,
          relined_line absent]

/-- A line ending: a line feed, with a carriage return before it or not. -/
def IsEnding (ending : Text) : Prop :=
  ending = ['\n'] ∨ ending = ['\r', '\n']

/-- Two texts that agree up to their first line feed agree behind it. -/
theorem append_newline_inj {left right more others : Text} (absent : '\n' ∉ left)
    (absent' : '\n' ∉ right) (same : left ++ '\n' :: more = right ++ '\n' :: others)
    : left = right ∧ more = others := by
  have lines := congrArg lines same
  rw [lines_append_newline, lines_append_newline, lines_of_not_mem absent,
    lines_of_not_mem absent'] at lines
  obtain ⟨rfl, _⟩ := List.cons.inj lines
  exact ⟨rfl, (List.cons.inj (List.append_cancel_left same)).2⟩

/-- A text that keeps its line endings does not end within one. -/
theorem getLast?_of_relined (isEnding : IsEnding ending) (same : relined ending text = text)
    : text.getLast? ≠ some '\r' := by
  obtain ⟨start, rfl, solid⟩ : ∃ start, ending = start ++ ['\n'] ∧ '\n' ∉ start := by
    rcases isEnding with rfl | rfl
    · exact ⟨[], rfl, by simp⟩
    · exact ⟨['\r'], rfl, by simp⟩
  induction h : text.length using Nat.strongRecOn generalizing text with
  | ind size ih =>
      subst h
      rcases text.lines_cases with ⟨absent, lines⟩ | ⟨first, back, rfl, absent, _⟩
      · intro last
        rw [relined, lines] at same
        have shorter := congrArg List.length same
        have longer := List.length_pos_of_mem (List.mem_of_getLast? last)
        simp [withoutReturn, last] at shorter
        omega
      · rw [relined_line absent] at same
        have absent' : '\n' ∉ withoutReturn first ++ start := by
          have inside : '\n' ∉ withoutReturn first := by
            unfold withoutReturn
            split
            · exact fun listed => absent (List.dropLast_subset _ listed)
            · exact absent
          simp [inside, solid]
        have rest := (append_newline_inj absent' absent (by simpa using same)).2
        have other := ih back.length (by simp; omega) rest rfl
        intro last
        refine other ?_
        rw [List.getLast?_append, List.getLast?_cons] at last
        cases more : back.getLast? with
        | none =>
            rw [more] at last
            cases last
        | some c =>
            rw [more] at last
            exact last

/-- A text that keeps its line endings, as each of them is replaced. -/
theorem reline_of_relined (isEnding : IsEnding ending) (same : relined ending text = text)
    : reline ending text = text := by
  rw [← relined_eq_reline (getLast?_of_relined isEnding same), same]

end Text

end ImportHeader
