import ImportHeader.Proofs.Token.Runs

/-! Where quoted text ends: strings, and heredocs behind their labels. What is closed ends where it
ends whatever stands behind it, but a heredoc needs its label not to go on.
-/

namespace ImportHeader

namespace Lexer

-----------------------------------------------------------------------------------------
-- Strings
-----------------------------------------------------------------------------------------

theorem quotedLength_le (quote : Char) (text : Text)
    : (quotedLength quote text).2 ≤ text.length := by
  fun_induction quotedLength quote text with
  | case1 => exact Nat.le_refl 0
  | case2 => exact Nat.zero_le _
  | case3 c rest closed length found ih =>
      simp only [List.length_cons, found] at ih ⊢
      omega
  | case4 => simp
  | case5 c rest _ _ _ closed length found ih =>
      simp only [List.length_cons, found] at ih ⊢
      omega

theorem quotedLength_cons (quote c : Char) (rest : Text) (other : c ≠ '\\')
    : quotedLength quote (c :: rest)
      = if c = quote then (true, 1)
        else ((quotedLength quote rest).1, (quotedLength quote rest).2 + 1) := by
  rw [quotedLength]
  · exact fun same => absurd same other
  · exact fun _ _ same => absurd same other

theorem quotedLength_ne_zero (quote : Char) (text : Text)
    : quotedLength quote text ≠ (true, 0) := by
  fun_cases quotedLength quote text <;> simp

/-- A string that is closed ends with its quote, whatever stands behind it. -/
theorem quotedLength_stable {quote : Char} {front text : Text} (mild : Text)
    (closed : quotedLength quote (front ++ text) = (true, front.length))
    : quotedLength quote (front ++ mild) = (true, front.length) := by
  induction h : front.length using Nat.strongRecOn generalizing front with
  | ind size ih =>
      cases front with
      | nil => exact absurd closed (quotedLength_ne_zero _ _)
      | cons c front =>
          rw [← h]
          by_cases slash : c = '\\'
          · subst slash
            cases front with
            | nil =>
                cases text with
                | nil => cases closed
                | cons d text =>
                    simp only [List.nil_append, List.cons_append, quotedLength] at closed
                    simp at closed
            | cons d front =>
              simp only [List.cons_append, quotedLength, List.length_cons, Prod.mk.injEq] at closed h ⊢
              have inner := ih front.length (by omega) (Prod.ext closed.1 (by simpa using closed.2)) rfl
              rw [inner]
              exact ⟨rfl, rfl⟩
          · rw [List.cons_append, quotedLength_cons _ _ _ slash] at closed ⊢
            split at closed
            · rename_i ends
              rw [if_pos ends]
              exact closed
            · rename_i goes
              simp only [List.length_cons, Prod.mk.injEq] at closed h ⊢
              have inner := ih front.length (by omega) (Prod.ext closed.1 (by simpa using closed.2)) rfl
              rw [if_neg goes, inner]

/-- A string that is never closed takes all that follows, but for a single backslash at the end. -/
theorem drop_quotedLength_of_open (quote : Char) (text : Text)
    (unclosed : (quotedLength quote text).1 = false)
    : text.drop (quotedLength quote text).2 = [] ∨ text.drop (quotedLength quote text).2 = ['\\'] := by
  fun_induction quotedLength quote text with
  | case1 => exact .inl rfl
  | case2 => exact .inr rfl
  | case3 c rest closed length found ih =>
      rw [found] at ih
      simpa using ih unclosed
  | case4 => cases unclosed
  | case5 c rest _ _ _ closed length found ih =>
      rw [found] at ih
      simpa using ih unclosed

/-- A string that is never closed goes on over what is added to it. -/
theorem quotedLength_concat {quote d : Char} {text : Text} (other : d ≠ '\\') (other' : d ≠ quote)
    (unclosed : quotedLength quote text = (false, text.length))
    : quotedLength quote (text ++ [d]) = (false, text.length + 1) := by
  fun_induction quotedLength quote text with
  | case1 =>
      rw [List.nil_append, quotedLength_cons _ _ _ other, if_neg other']
      rfl
  | case2 => cases unclosed
  | case3 c rest closed length found ih =>
      simp only [Prod.mk.injEq, List.length_cons] at unclosed
      have inner := ih (found ▸ Prod.ext unclosed.1 (by simpa using unclosed.2))
      simp only [List.cons_append, quotedLength, inner, List.length_cons]
  | case4 => cases unclosed
  | case5 c rest single escapes goes closed length found ih =>
      simp only [Prod.mk.injEq, List.length_cons] at unclosed
      have inner := ih (found ▸ Prod.ext unclosed.1 (by simpa using unclosed.2))
      have plain : c ≠ '\\' := by
        rintro rfl
        cases rest with
        | nil => exact single rfl rfl
        | cons d rest => exact escapes d rest rfl rfl
      rw [List.cons_append, quotedLength_cons _ _ _ plain, if_neg goes, inner]
      rfl

-----------------------------------------------------------------------------------------
-- Heredocs
-----------------------------------------------------------------------------------------

/-- The closing label stands on the first line, or on a later one. -/
theorem closingLabelLength?_cons (label line : Text) (lines : List Text)
    : closingLabelLength? label (line :: lines)
      = (closingLabelLength? label [line]).or
          ((closingLabelLength? label lines).map (· + line.length + 1)) := by
  simp only [closingLabelLength?]
  split
  · split <;> simp
  · simp

/-- A text that can be a label: some characters of an identifier. -/
def IsLabel (label : Text) : Prop :=
  label ≠ [] ∧ ∀ c ∈ label, isNamePart c = true

theorem isIndent_eq_false_of_isNamePart {c : Char} (part : isNamePart c = true)
    : isIndent c = false := by
  have space := isSpace_eq_false_of_isNamePart part
  simp only [isSpace, Bool.or_eq_false_iff] at space
  simp [isIndent, space]

/-- A line closes a heredoc if nothing but indentation stands before the label, and the label
ends there.
-/
theorem closingLabelLength?_single {label line : Text} {length : Nat} (isLabel : IsLabel label)
    : closingLabelLength? label [line] = some length
      ↔ ∃ indent rest, line = indent ++ label ++ rest ∧ (∀ c ∈ indent, isIndent c = true)
          ∧ (∀ c ∈ rest.head?, isNamePart c = false)
          ∧ length = (indent ++ label).length := by
  simp only [closingLabelLength?]
  constructor
  · intro closed
    split at closed
    · rename_i rest found
      split at closed
      · cases closed
      · rename_i ends
        unfold Text.after? at found
        split at found
        · rename_i starts
          obtain ⟨behind, same⟩ := List.isPrefixOf_iff_prefix.mp starts
          obtain rfl := Option.some.inj found
          obtain rfl := Option.some.inj closed
          have whole := List.takeWhile_append_dropWhile (p := isIndent) (l := line)
          rw [← same, List.drop_left] at ends ⊢
          refine ⟨line.takeWhile isIndent, behind, ?_,
            fun c listed => List.mem_takeWhile_imp listed, fun c first => ?_, ?_⟩
          · rw [List.append_assoc, same, whole]
          · simpa [Option.mem_def.mp first] using ends
          · have lengths := congrArg List.length whole
            rw [← same] at lengths
            simp only [List.length_append] at lengths ⊢
            omega
        · cases found
    · cases closed
  · rintro ⟨indent, rest, rfl, blank, ends, rfl⟩
    obtain ⟨first, others, rfl⟩ := List.exists_cons_of_ne_nil isLabel.1
    have dropped
        : (indent ++ (first :: others) ++ rest).dropWhile isIndent
          = first :: others ++ rest := by
      rw [List.append_assoc, List.dropWhile_append_of_pos blank]
      simp [isIndent_eq_false_of_isNamePart (isLabel.2 first List.mem_cons_self)]
    have found : Text.after? (first :: others) (first :: others ++ rest) = some rest := by
      simp [Text.after?]
    have stops : rest.head?.any isNamePart = false := by
      cases rest with
      | nil => rfl
      | cons c rest => simpa using ends c rfl
    rw [dropped, found]
    simp only [stops, Bool.false_eq_true, if_false, Option.some.injEq, List.length_append]
    omega

theorem closingLabelLength?_le {label text : Text} {length : Nat} (isLabel : IsLabel label)
    (closed : closingLabelLength? label text.lines = some length)
    : length ≤ text.length := by
  have single {line : Text} {length : Nat} (found : closingLabelLength? label [line] = some length)
      : length ≤ line.length := by
    obtain ⟨indent, rest, rfl, _, _, rfl⟩ := (closingLabelLength?_single isLabel).mp found
    simp
  induction h : text.length using Nat.strongRecOn generalizing text length with
  | ind size ih =>
      subst h
      rcases text.lines_cases with ⟨_, lines⟩ | ⟨first, back, rfl, _, lines⟩
      · rw [lines] at closed
        exact single closed
      · rw [lines, closingLabelLength?_cons] at closed
        simp only [List.length_append, List.length_cons] at ih ⊢
        rcases Option.or_eq_some_iff.mp closed with here | ⟨_, later⟩
        · have bound := single here
          omega
        · obtain ⟨inner, found, rfl⟩ := Option.map_eq_some_iff.mp later
          have bound := ih back.length (by omega) found rfl
          omega

/-- A label that closes a heredoc does so before everything that does not prolong it. -/
theorem closingLabelLength?_stable {label front text mild : Text} (isLabel : IsLabel label)
    (closed : closingLabelLength? label (Text.lines (front ++ text)) = some front.length)
    (milder : Milder text mild)
    : closingLabelLength? label (Text.lines (front ++ mild)) = some front.length := by
  induction h : front.length using Nat.strongRecOn generalizing front with
  | ind size ih =>
      subst h
      by_cases newline : '\n' ∈ front
      · -- The label stands on a later line, since all of the first one is before it.
        obtain ⟨first, later, rfl, absent⟩ := List.eq_append_cons_of_mem newline
        rw [List.append_assoc, List.cons_append, Text.lines_append_newline,
          Text.lines_of_not_mem absent, List.singleton_append,
          closingLabelLength?_cons] at closed ⊢
        simp only [List.length_append, List.length_cons] at closed ih ⊢
        cases here : closingLabelLength? label [first] with
        | some length =>
            obtain ⟨_, _, rfl, _, _, rfl⟩ := (closingLabelLength?_single isLabel).mp here
            simp only [here, Option.some_or, Option.some.injEq, List.length_append] at closed
            omega
        | none =>
            simp only [here, Option.none_or] at closed ⊢
            obtain ⟨inner, found, same⟩ := Option.map_eq_some_iff.mp closed
            obtain rfl : inner = later.length := by omega
            rw [ih later.length (by omega) found rfl, Option.map_some, same]
      · obtain ⟨line, others, starts, lines⟩ := Text.exists_lines_append newline text
        obtain ⟨line', others', starts', lines'⟩ := Text.exists_lines_append newline mild
        rw [lines, closingLabelLength?_cons] at closed
        rw [lines', closingLabelLength?_cons]
        have here : closingLabelLength? label [front ++ line] = some front.length := by
          rcases Option.or_eq_some_iff.mp closed with here | ⟨_, later⟩
          · exact here
          · obtain ⟨inner, _, same⟩ := Option.map_eq_some_iff.mp later
            rw [List.length_append] at same
            omega
        obtain ⟨indent, rest, parted, blank, ends, length⟩ :=
          (closingLabelLength?_single isLabel).mp here
        obtain ⟨rfl, rfl⟩ := List.append_inj parted length
        have stops : ∀ c ∈ text.head?, isNamePart c = false := by
          intro c first
          rcases starts with rfl | ⟨back, rfl⟩
          · exact ends c first
          · cases line with
            | nil =>
                obtain rfl := Option.some.inj (Option.mem_def.mp first)
                decide
            | cons d line => exact ends c first
        have stops' : ∀ c ∈ line'.head?, isNamePart c = false := by
          intro c first
          refine milder.head (fun c => isSpace_eq_false_of_isNamePart) stops c ?_
          cases line' with
          | nil => cases first
          | cons d line' => rcases starts' with rfl | ⟨back, rfl⟩ <;> exact first
        rw [(closingLabelLength?_single isLabel).mpr ⟨indent, line', rfl, blank, stops', rfl⟩,
          Option.some_or]

/-- The body of a heredoc has a first line, which can hold anything, and lines behind it. -/
theorem heredocBodyLength?_eq_some {label text : Text} {length : Nat}
    : heredocBodyLength? label text = some length
      ↔ ∃ first back inner, text = first ++ '\n' :: back ∧ '\n' ∉ first
          ∧ closingLabelLength? label (Text.lines back) = some inner
          ∧ length = inner + first.length + 1 := by
  unfold heredocBodyLength?
  constructor
  · intro closed
    rcases text.lines_cases with ⟨_, lines⟩ | ⟨first, back, rfl, absent, lines⟩
    · simp [lines, closingLabelLength?] at closed
    · rw [lines] at closed
      obtain ⟨inner, found, rfl⟩ := Option.map_eq_some_iff.mp closed
      exact ⟨first, back, inner, rfl, absent, found, rfl⟩
  · rintro ⟨first, back, inner, rfl, absent, found, rfl⟩
    rw [Text.lines_append_newline, Text.lines_of_not_mem absent]
    simp [found]

theorem heredocBodyLength?_le {label text : Text} {length : Nat} (isLabel : IsLabel label)
    (closed : heredocBodyLength? label text = some length)
    : length ≤ text.length := by
  obtain ⟨first, back, inner, rfl, _, found, rfl⟩ := heredocBodyLength?_eq_some.mp closed
  have bound := closingLabelLength?_le isLabel found
  simp only [List.length_append, List.length_cons]
  omega

/-- A text that is cut in two ways: the longer front is the shorter one and more. -/
theorem exists_append_of_length_le {front back : Text} (left right : Text)
    (cut : front ++ back = left ++ right) (longer : left.length ≤ front.length)
    : ∃ middle, front = left ++ middle ∧ right = middle ++ back := by
  rcases List.append_eq_append_iff.mp cut with ⟨middle, rfl, rfl⟩ | ⟨middle, rfl, rfl⟩
  · rw [List.length_append] at longer
    obtain rfl := List.eq_nil_of_length_eq_zero (by omega : middle.length = 0)
    exact ⟨[], by simp, by simp⟩
  · exact ⟨middle, rfl, rfl⟩

theorem heredocBodyLength?_stable {label front text mild : Text} (isLabel : IsLabel label)
    (closed : heredocBodyLength? label (front ++ text) = some front.length)
    (milder : Milder text mild)
    : heredocBodyLength? label (front ++ mild) = some front.length := by
  obtain ⟨first, back, inner, cut, absent, found, length⟩ :=
    heredocBodyLength?_eq_some.mp closed
  obtain ⟨later, rfl, rfl⟩ : ∃ later, front = first ++ '\n' :: later ∧ back = later ++ text := by
    obtain ⟨later, rfl, rfl⟩ := exists_append_of_length_le (first ++ ['\n']) back
      (cut.trans (by simp)) (by simp; omega)
    exact ⟨later, by simp, rfl⟩
  simp only [List.length_append, List.length_cons] at length
  obtain rfl : inner = later.length := by omega
  refine heredocBodyLength?_eq_some.mpr ⟨first, later ++ mild, later.length, by simp, absent,
    closingLabelLength?_stable isLabel found milder, ?_⟩
  simp only [List.length_append, List.length_cons]
  omega

/-- A heredoc without quotes is a label and a body. -/
theorem plainHeredocLength?_eq_some {text : Text} {length : Nat}
    : plainHeredocLength? text = some length
      ↔ ∃ label tail inner,
          text = label ++ tail ∧ IsLabel label ∧ (∀ c ∈ tail.head?, isNamePart c = false)
          ∧ heredocBodyLength? label tail = some inner ∧ length = inner + label.length := by
  unfold plainHeredocLength?
  constructor
  · intro closed
    simp only at closed
    split at closed
    · cases closed
    · rename_i labelled
      obtain ⟨inner, found, rfl⟩ := Option.map_eq_some_iff.mp closed
      refine ⟨_, _, inner, List.takeWhile_append_dropWhile.symm,
        ⟨by simpa using labelled, fun c listed => List.mem_takeWhile_imp listed⟩,
        fun c first => ?_, found, rfl⟩
      have stops := List.head?_dropWhile_not isNamePart text
      rw [Option.mem_def.mp first] at stops
      simpa using stops
  · rintro ⟨label, tail, inner, rfl, ⟨labelled, parts⟩, ends, found, rfl⟩
    have front : (label ++ tail).takeWhile isNamePart = label := by
      rw [List.takeWhile_append_of_pos parts]
      cases tail with
      | nil => simp
      | cons c tail => simp [ends c rfl]
    have back : (label ++ tail).dropWhile isNamePart = tail := by
      rw [List.dropWhile_append_of_pos parts]
      cases tail with
      | nil => rfl
      | cons c tail => simp [ends c rfl]
    simp [front, back, labelled, found]

/-- A heredoc with quotes is a label, the same quote once more, and a body. -/
theorem quotedHeredocLength?_eq_some {quote : Char} {text : Text} {length : Nat}
    (other : isNamePart quote = false)
    : quotedHeredocLength? quote text = some length
      ↔ ∃ label tail inner,
          text = label ++ quote :: tail ∧ IsLabel label
          ∧ heredocBodyLength? label tail = some inner ∧ length = inner + label.length + 2 := by
  unfold quotedHeredocLength?
  constructor
  · intro closed
    dsimp only at closed
    split at closed
    · cases closed
    · rename_i closing tail behind
      split at closed
      · cases closed
      · rename_i labelled
        simp only [Bool.or_eq_true, List.isEmpty_iff, bne_iff_ne, not_or, not_not] at labelled
        obtain ⟨inner, found, rfl⟩ := Option.map_eq_some_iff.mp closed
        refine ⟨_, tail, inner, ?_, ⟨labelled.1, fun c listed => List.mem_takeWhile_imp listed⟩,
          found, rfl⟩
        rw [← labelled.2, ← behind]
        exact List.takeWhile_append_dropWhile.symm
  · rintro ⟨label, tail, inner, rfl, ⟨labelled, parts⟩, found, rfl⟩
    have front : (label ++ quote :: tail).takeWhile isNamePart = label := by
      rw [List.takeWhile_append_of_pos parts]
      simp [other]
    have back : (label ++ quote :: tail).dropWhile isNamePart = quote :: tail := by
      rw [List.dropWhile_append_of_pos parts]
      simp [other]
    simp [front, back, labelled, found]

/-- The quotes in which a label can stand. -/
theorem isNamePart_eq_false_of_isQuote {c : Char} (quoted : (c == '\'' || c == '"') = true)
    : isNamePart c = false := by
  simp only [Bool.or_eq_true, beq_iff_eq] at quoted
  rcases quoted with rfl | rfl <;> decide

theorem heredocLength?_le {text : Text} {length : Nat} (closed : heredocLength? text = some length)
    : 0 < length ∧ length ≤ text.length := by
  cases text with
  | nil => cases closed
  | cons c behind =>
      rw [heredocLength?] at closed
      split at closed
      · rename_i quoted
        obtain ⟨label, tail, inner, rfl, isLabel, found, rfl⟩ :=
          (quotedHeredocLength?_eq_some (isNamePart_eq_false_of_isQuote quoted)).mp closed
        have bound := heredocBodyLength?_le isLabel found
        simp only [List.length_append, List.length_cons]
        omega
      · obtain ⟨label, tail, inner, parts, isLabel, _, found, rfl⟩ :=
          plainHeredocLength?_eq_some.mp closed
        have bound := heredocBodyLength?_le isLabel found
        have longer := List.length_pos_iff.mpr isLabel.1
        rw [parts, List.length_append]
        omega

/-- A heredoc that is closed ends with its label before everything that does not prolong it.
-/
theorem heredocLength?_stable {front text mild : Text}
    (closed : heredocLength? (front ++ text) = some front.length) (milder : Milder text mild)
    : heredocLength? (front ++ mild) = some front.length := by
  cases front with
  | nil =>
      have longer := (heredocLength?_le closed).1
      simp at longer
  | cons c front =>
      rw [List.cons_append, heredocLength?] at closed ⊢
      split at closed
      · rename_i quoted
        have other := isNamePart_eq_false_of_isQuote quoted
        obtain ⟨label, tail, inner, cut, isLabel, found, length⟩ :=
          (quotedHeredocLength?_eq_some other).mp closed
        obtain ⟨later, rfl, rfl⟩
            : ∃ later, front = label ++ c :: later ∧ tail = later ++ text := by
          simp only [List.length_cons] at length
          obtain ⟨later, rfl, rfl⟩ := exists_append_of_length_le (label ++ [c]) tail
            (cut.trans (by simp)) (by simp; omega)
          exact ⟨later, by simp, rfl⟩
        simp only [List.length_append, List.length_cons] at length
        obtain rfl : inner = later.length := by omega
        rw [if_pos quoted]
        refine (quotedHeredocLength?_eq_some other).mpr ⟨label, later ++ mild, later.length,
          by simp, isLabel, heredocBodyLength?_stable isLabel found milder, ?_⟩
        simp only [List.length_append, List.length_cons]
        omega
      · rename_i plain
        obtain ⟨label, tail, inner, cut, isLabel, ends, found, length⟩ :=
          plainHeredocLength?_eq_some.mp closed
        rw [← List.cons_append] at cut
        obtain ⟨later, front', rfl⟩ := exists_append_of_length_le label tail cut (by omega)
        have length' := congrArg List.length front'
        rw [List.length_append] at length'
        obtain rfl : inner = later.length := by omega
        rw [if_neg plain, ← List.cons_append]
        refine plainHeredocLength?_eq_some.mpr ⟨label, later ++ mild, later.length,
          by rw [front', List.append_assoc], isLabel, ?_,
          heredocBodyLength?_stable isLabel found milder, length⟩
        -- The body has a line feed at least, so it starts the same way.
        obtain ⟨first, back, inner, cut', _, _, length''⟩ := heredocBodyLength?_eq_some.mp found
        obtain ⟨d, later, rfl⟩ := List.exists_cons_of_ne_nil (l := later) (by
          rintro rfl
          simp at length'')
        exact ends

end Lexer

end ImportHeader
