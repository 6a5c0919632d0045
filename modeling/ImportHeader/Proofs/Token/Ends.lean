import ImportHeader.Proofs.Token.Blocks

/-! How tokens end. A token that carries syntax does not end with a line feed, so the line on
which a statement ends is that of its last character.
-/

namespace ImportHeader

namespace Lexer

variable {kind : TokenKind} {c : Char} {front text : Text}

theorem not_mem_of_nameLength (ends : nameLength (front ++ text) = front.length)
    : '\n' ∉ front := by
  induction h : front.length using Nat.strongRecOn generalizing front with
  | ind size ih =>
      cases front with
      | nil => exact List.not_mem_nil
      | cons d front =>
          rw [List.cons_append] at ends
          by_cases slash : d = '\\'
          · subst slash
            cases front with
            | nil => simp
            | cons e front =>
                simp only [List.cons_append, nameLength, List.length_cons] at ends h
                split at ends
                · rename_i start
                  have later := ih front.length (by omega) (by omega) rfl
                  have other : '\n' ≠ e := by
                    rintro rfl
                    exact absurd start (by decide)
                  simp [later, other]
                · cases ends
          · rw [nameLength_cons slash] at ends
            simp only [List.length_cons] at ends h
            split at ends
            · rename_i part
              have later := ih front.length (by omega) (by omega) rfl
              have other : '\n' ≠ d := by
                rintro rfl
                exact absurd part (by decide)
              simp [later, other]
            · cases ends

theorem getLast?_of_quotedLength {quote : Char}
    (closed : quotedLength quote (front ++ text) = (true, front.length))
    : front.getLast? = some quote := by
  induction h : front.length using Nat.strongRecOn generalizing front with
  | ind size ih =>
      cases front with
      | nil => exact absurd closed (quotedLength_ne_zero _ _)
      | cons d front =>
          by_cases slash : d = '\\'
          · subst slash
            cases front with
            | nil =>
                cases text with
                | nil => cases closed
                | cons e text =>
                    simp only [List.nil_append, List.cons_append, quotedLength] at closed
                    simp at closed
            | cons e front =>
                simp only [List.cons_append, quotedLength, List.length_cons, Prod.mk.injEq]
                  at closed h
                have inner := ih front.length (by omega)
                  (Prod.ext closed.1 (by simpa using closed.2)) rfl
                rw [List.getLast?_cons, List.getLast?_cons, inner]
                rfl
          · rw [List.cons_append, quotedLength_cons _ _ _ slash] at closed
            split at closed
            · rename_i ends
              have none : front = [] := by simpa using closed
              rw [none, ends]
              rfl
            · simp only [List.length_cons, Prod.mk.injEq] at closed h
              have inner := ih front.length (by omega)
                (Prod.ext closed.1 (by simpa using closed.2)) rfl
              rw [List.getLast?_cons, inner]
              rfl

/-- What is closed by a label ends with it. -/
theorem exists_label_of_closingLabelLength? {label : Text} (isLabel : IsLabel label)
    (closed : closingLabelLength? label (Text.lines (front ++ text)) = some front.length)
    : label <:+ front := by
  induction h : front.length using Nat.strongRecOn generalizing front with
  | ind size ih =>
      subst h
      by_cases newline : '\n' ∈ front
      · obtain ⟨first, later, rfl, absent⟩ := List.eq_append_cons_of_mem newline
        rw [List.append_assoc, List.cons_append, Text.lines_append_newline,
          Text.lines_of_not_mem absent, List.singleton_append, closingLabelLength?_cons] at closed
        simp only [List.length_append, List.length_cons] at closed ih
        rcases Option.or_eq_some_iff.mp closed with here | ⟨_, further⟩
        · obtain ⟨_, _, rfl, _, _, length⟩ := (closingLabelLength?_single isLabel).mp here
          simp only [List.length_append] at length
          omega
        · obtain ⟨inner, found, same⟩ := Option.map_eq_some_iff.mp further
          obtain rfl : inner = later.length := by omega
          have ends := ih later.length (by omega) found rfl
          exact ends.trans ((List.suffix_cons _ _).trans (List.suffix_append _ _))
      · obtain ⟨line, others, _, lines⟩ := Text.exists_lines_append newline text
        rw [lines, closingLabelLength?_cons] at closed
        rcases Option.or_eq_some_iff.mp closed with here | ⟨_, further⟩
        · obtain ⟨indent, rest, parted, _, _, length⟩ :=
            (closingLabelLength?_single isLabel).mp here
          obtain ⟨rfl, _⟩ := List.append_inj parted length
          exact List.suffix_append _ _
        · obtain ⟨inner, _, same⟩ := Option.map_eq_some_iff.mp further
          rw [List.length_append] at same
          omega

theorem exists_label_of_heredocBodyLength? {label : Text} (isLabel : IsLabel label)
    (closed : heredocBodyLength? label (front ++ text) = some front.length)
    : label <:+ front := by
  obtain ⟨first, back, inner, cut, absent, found, length⟩ := heredocBodyLength?_eq_some.mp closed
  obtain ⟨later, rfl, rfl⟩ := exists_append_of_length_le (first ++ ['\n']) back
    (cut.trans (by simp)) (by simp; omega)
  simp only [List.length_append, List.length_cons, List.length_nil] at length
  obtain rfl : inner = later.length := by omega
  exact (exists_label_of_closingLabelLength? isLabel found).trans (List.suffix_append _ _)

theorem exists_label_of_heredocLength?
    (closed : heredocLength? (front ++ text) = some front.length)
    : ∃ label, IsLabel label ∧ label <:+ front := by
  cases front with
  | nil =>
      have longer := (heredocLength?_le closed).1
      simp at longer
  | cons d front =>
      rw [List.cons_append, heredocLength?] at closed
      split at closed
      · rename_i quoted
        obtain ⟨label, tail, inner, cut, isLabel, found, length⟩ :=
          (quotedHeredocLength?_eq_some (isNamePart_eq_false_of_isQuote quoted)).mp closed
        simp only [List.length_cons] at length
        obtain ⟨later, rfl, rfl⟩ := exists_append_of_length_le (label ++ [d]) tail
          (cut.trans (by simp)) (by simp; omega)
        simp only [List.length_append, List.length_cons, List.length_nil] at length
        obtain rfl : inner = later.length := by omega
        exact ⟨label, isLabel, (exists_label_of_heredocBodyLength? isLabel found).trans
          ((List.suffix_append _ _).trans (List.suffix_cons _ _))⟩
      · obtain ⟨label, tail, inner, cut, isLabel, _, found, length⟩ :=
          plainHeredocLength?_eq_some.mp closed
        rw [← List.cons_append] at cut
        obtain ⟨later, front', rfl⟩ := exists_append_of_length_le label tail cut (by omega)
        have length' := congrArg List.length front'
        rw [List.length_append] at length'
        obtain rfl : inner = later.length := by omega
        rw [front']
        exact ⟨label, isLabel, (exists_label_of_heredocBodyLength? isLabel found).trans
          (List.suffix_append _ _)⟩

theorem not_mem_of_prolonged {test : Char → Bool} {more : Text → Nat} {long short : TokenKind}
    (line : test '\n' = false)
    (inside : ∀ {body : Text}, more (body ++ text) = body.length → '\n' ∉ body)
    (ends : prolonged test more long short (front ++ text) = (kind, front.length))
    : '\n' ∉ front := by
  cases front with
  | nil => exact List.not_mem_nil
  | cons d body =>
      rw [List.cons_append, prolonged] at ends
      split at ends
      · rename_i holds
        have later := inside (Nat.succ_inj.mp (Prod.mk.inj ends).2)
        have other : '\n' ≠ d := by
          rintro rfl
          rw [line] at holds
          cases holds
        simp [later, other]
      · cases ends

theorem not_mem_of_run {test : Char → Bool} (line : test '\n' = false)
    (whole : run test (front ++ text) = front.length)
    : '\n' ∉ front := by
  intro listed
  have holds := (run_append_iff.mp whole).1 '\n' listed
  rw [line] at holds
  cases holds

theorem not_mem_of_isPrefixOf {start : Text} (starts : start.isPrefixOf (front ++ text) = true)
    (absent : '\n' ∉ start) (length : start.length = front.length)
    : '\n' ∉ front := by
  have inside := List.prefix_of_prefix_length_le (List.isPrefixOf_iff_prefix.mp starts)
    (List.prefix_append front text) (Nat.le_of_eq length)
  rwa [← inside.eq_of_length length]

theorem not_mem_of_numberLength (ends : numberLength (front ++ text) = front.length)
    : '\n' ∉ front := by
  have other {test : Char → Bool} (line : test '\n' = false) {body : Text}
      (all : ∀ d ∈ body, test d = true)
      : '\n' ∉ body := by
    intro listed
    rw [all '\n' listed] at line
    cases line
  rcases numberLength_append_iff.mp ends
    with ⟨all, _⟩ | ⟨whole, d, fraction, rfl, all, digit, all', _⟩
  · exact other (by decide) all
  · have digit' : '\n' ≠ d := by
      rintro rfl
      exact absurd digit (by decide)
    have behind : numberLength.isFraction '\n' = false := by decide
    simp [other (by decide) all, other behind all', digit']

theorem not_mem_of_isOpenTag {tag : Text} (isTag : IsOpenTag tag) : '\n' ∉ tag := by
  intro listed
  have solid := isSpace_eq_false_of_isOpenTag isTag '\n' listed
  exact absurd solid (by decide)

theorem getLast?_of_lessThan (closed : kind ≠ .error)
    (ends : lessThan (front ++ text) = (kind, front.length))
    : front.getLast? ≠ some '\n' := by
  have munched : munch '<' (front ++ text) = (kind, front.length) := ends
  rw [lessThan_eq] at ends
  split at ends
  · rename_i starts
    have longer : 2 ≤ (heredoc ((front ++ text).drop 2)).2 := heredoc_ge
    rw [ends] at longer
    obtain ⟨body, rfl⟩ := List.prefix_of_prefix_length_le (List.isPrefixOf_iff_prefix.mp starts)
      (List.prefix_append front text) longer
    change heredoc (body ++ text) = (kind, body.length + 2) at ends
    obtain ⟨indent, back, cut, blanks, dropped, all, _⟩ := exists_run isIndent (body ++ text)
    unfold heredoc at ends
    dsimp only at ends
    rw [blanks, dropped] at ends
    split at ends
    · rename_i length found
      have length' := (Prod.mk.inj ends).2
      obtain ⟨inner, rfl, rfl⟩ := exists_append_of_length_le indent back cut (by omega)
      rw [List.length_append] at length'
      obtain rfl : length = inner.length := by omega
      obtain ⟨label, isLabel, before, rfl⟩ := exists_label_of_heredocLength? found
      rw [← List.append_assoc, ← List.append_assoc, List.getLast?_append_of_ne_nil _ isLabel.1]
      intro last
      exact absurd (isLabel.2 '\n' (List.mem_of_getLast? last)) (by decide)
    · exact absurd (Prod.mk.inj ends).1.symm closed
  intro last
  have listed := List.mem_of_getLast? last
  split at ends
  · rename_i starts
    exact not_mem_of_isPrefixOf starts (by decide) (Prod.mk.inj ends).2 listed
  split at ends
  · rename_i opens
    have isTag := isOpenTag_of_opensCode munched opens
    exact not_mem_of_isOpenTag isTag (List.mem_cons_of_mem _ listed)
  · have none : front = [] := by simpa using (Prod.mk.inj ends).2.symm
    rw [none] at listed
    cases listed

theorem getLast?_of_quotation {quote : Char} (other : quote ≠ '\n') (closed : kind ≠ .error)
    (ends : quotation quote (front ++ text) = (kind, front.length))
    : front.getLast? ≠ some '\n' := by
  unfold quotation at ends
  obtain ⟨kind', length⟩ := Prod.mk.inj ends
  split at kind'
  · rename_i whole
    have last : front.getLast? = some quote := getLast?_of_quotedLength (Prod.ext whole length)
    rw [last]
    simpa using other
  · exact absurd kind'.symm closed

/-- A slash that starts no comment is an operator on its own, or opens a comment that is never
closed.
-/
theorem getLast?_of_slash (solid : kind.isTrivia = false)
    (ends : slash (front ++ text) = (kind, front.length))
    : front.getLast? ≠ some '\n' := by
  cases front with
  | nil => nofun
  | cons d body =>
      rw [List.cons_append, slash] at ends
      split at ends
      · rw [← (Prod.mk.inj ends).1] at solid
        cases solid
      split at ends
      · have kinds : (asterisk (body ++ text)).1 ∈ _ := asterisk_fst
        rw [ends] at kinds
        simp only [List.mem_cons, List.not_mem_nil, or_false] at kinds
        rcases kinds with rfl | rfl | rfl
        · cases solid
        · cases solid
        · rename_i star
          rcases (asterisk_eq_error_iff.mp ends).2 with ⟨rfl, _⟩ | ⟨rfl, _⟩
          · simp [star]
          · simp
      · cases ends

/-- A hash that starts no comment opens an attribute. -/
theorem getLast?_of_hash (solid : kind.isTrivia = false)
    (ends : hash (front ++ text) = (kind, front.length))
    : front.getLast? ≠ some '\n' := by
  rw [hash_eq] at ends
  split at ends
  · rename_i bracket
    have length := (Prod.mk.inj ends).2
    cases front with
    | nil => nofun
    | cons d body =>
        have none : body = [] := by simpa using length.symm
        rw [none] at bracket ⊢
        rw [Option.some.inj bracket]
        decide
  · rw [← (Prod.mk.inj ends).1] at solid
    cases solid

theorem not_mem_of_length_eq_zero (none : 0 = front.length) : '\n' ∉ front := by
  rw [List.eq_nil_of_length_eq_zero none.symm]
  exact List.not_mem_nil

theorem not_mem_of_questionMark (other : kind ≠ .closeTag)
    (ends : questionMark (front ++ text) = (kind, front.length))
    : '\n' ∉ front := by
  rw [questionMark_eq] at ends
  split at ends
  · exact absurd (Prod.mk.inj ends).1.symm other
  split at ends
  · rename_i arrow
    exact not_mem_of_isPrefixOf arrow (by decide) (Prod.mk.inj ends).2
  · exact not_mem_of_prolonged rfl not_mem_of_length_eq_zero ends

theorem not_mem_of_fullStop (ends : fullStop (front ++ text) = (kind, front.length))
    : '\n' ∉ front := by
  rw [fullStop_eq] at ends
  split at ends
  · rename_i dots
    exact not_mem_of_isPrefixOf dots (by decide) (Prod.mk.inj ends).2
  · exact not_mem_of_prolonged rfl (not_mem_of_run rfl) ends

/-- What follows the first character of a token that carries syntax does not end with a line feed,
unless the token is a close tag, or a string or heredoc that lacks its end.
-/
theorem getLast?_behind_munch (solid : kind.isTrivia = false) (other : kind ≠ .closeTag)
    (closed : c = '<' ∨ opensString c = true → kind ≠ .error)
    (ends : munch c (front ++ text) = (kind, front.length))
    : front.getLast? ≠ some '\n' := by
  have free (absent : '\n' ∉ front) : front.getLast? ≠ some '\n' :=
    fun last => absent (List.mem_of_getLast? last)
  unfold munch at ends
  split at ends
  · exact free (not_mem_of_nameLength (Prod.mk.inj ends).2)
  split at ends
  · exact free (not_mem_of_numberLength (Prod.mk.inj ends).2)
  split at ends
  · rw [← (Prod.mk.inj ends).1] at solid
    cases solid
  split at ends
  · exact getLast?_of_slash solid ends
  · exact getLast?_of_hash solid ends
  · exact getLast?_of_lessThan (closed (.inl rfl)) ends
  · exact free (not_mem_of_questionMark other ends)
  · exact free (not_mem_of_fullStop ends)
  · exact free (not_mem_of_prolonged rfl not_mem_of_nameLength ends)
  · exact free (not_mem_of_prolonged rfl (not_mem_of_run rfl) ends)
  · exact getLast?_of_quotation (by decide) (closed (.inr rfl)) ends
  · exact getLast?_of_quotation (by decide) (closed (.inr rfl)) ends
  · exact getLast?_of_quotation (by decide) (closed (.inr rfl)) ends
  · exact free (not_mem_of_prolonged rfl not_mem_of_length_eq_zero ends)
  · exact free (not_mem_of_prolonged rfl not_mem_of_length_eq_zero ends)
  · exact free (not_mem_of_prolonged rfl not_mem_of_length_eq_zero ends)
  all_goals exact free (not_mem_of_length_eq_zero (Prod.mk.inj ends).2)

/-- A token that carries syntax does not end with a line feed, unless it is a close tag, or a string
or heredoc that lacks its end.
-/
theorem getLast?_of_munch (solid : kind.isTrivia = false) (other : kind ≠ .closeTag)
    (closed : c = '<' ∨ opensString c = true → kind ≠ .error)
    (ends : munch c (front ++ text) = (kind, front.length))
    : (c :: front).getLast? ≠ some '\n' := by
  have starts : c ≠ '\n' := by
    rintro rfl
    have same := (Prod.mk.inj ends).1
    rw [← same] at solid
    cases solid
  have behind := getLast?_behind_munch solid other closed ends
  rw [List.getLast?_cons]
  cases last : front.getLast? with
  | none => simpa using starts
  | some d =>
      rw [last] at behind
      exact behind

end Lexer

end ImportHeader
