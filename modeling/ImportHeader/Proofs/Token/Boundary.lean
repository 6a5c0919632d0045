import ImportHeader.Proofs.Token.Quotes
import ImportHeader.Proofs.Token.Slashes
import ImportHeader.Proofs.Token.Tags

/-! Where a piece ends. A piece that is closed ends where it ends whatever stands behind it, as
long as nothing there can prolong it; white space never can.
-/

namespace ImportHeader

namespace Lexer

variable {kind : TokenKind} {front text mild : Text}

-----------------------------------------------------------------------------------------
-- Tokens by their first character
-----------------------------------------------------------------------------------------

theorem prolonged_le {test : Char → Bool} {more : Text → Nat} {long short : TokenKind}
    (bound : ∀ rest, more rest ≤ rest.length)
    : (prolonged test more long short text).2 ≤ text.length := by
  cases text with
  | nil => exact Nat.le_refl _
  | cons c rest =>
      rw [prolonged]
      split
      · exact Nat.succ_le_succ (bound rest)
      · exact Nat.zero_le _

theorem prolonged_eq_zero_iff {test : Char → Bool} {more : Text → Nat} {long short : TokenKind}
    : prolonged test more long short text = (kind, 0)
      ↔ short = kind ∧ ∀ c ∈ text.head?, test c = false := by
  cases text with
  | nil => simp [prolonged]
  | cons c rest =>
      rw [prolonged]
      split <;> simp_all

theorem prolonged_stable {test : Char → Bool} {more : Text → Nat} {long short : TokenKind}
    (solid : ∀ c, test c = true → isSpace c = false)
    (stable
      : ∀ {front : Text},
          more (front ++ text) = front.length → more (front ++ mild) = front.length)
    (milder : Milder text mild)
    (ends : prolonged test more long short (front ++ text) = (kind, front.length))
    : prolonged test more long short (front ++ mild) = (kind, front.length) := by
  cases front with
  | nil =>
      obtain ⟨rfl, none⟩ := prolonged_eq_zero_iff.mp ends
      exact prolonged_eq_zero_iff.mpr ⟨rfl, milder.head solid none⟩
  | cons c body =>
      rw [List.cons_append, prolonged] at ends ⊢
      split at ends
      · rename_i holds
        obtain ⟨rfl, length⟩ := Prod.mk.inj ends
        rw [if_pos holds, stable (Nat.succ_inj.mp length)]
        rfl
      · cases ends

theorem followedBy_stable {next : Char} {double single : TokenKind}
    (solid : isSpace next = false) (milder : Milder text mild)
    (ends : followedBy next double single (front ++ text) = (kind, front.length))
    : followedBy next double single (front ++ mild) = (kind, front.length) := by
  refine prolonged_stable ?_ ?_ milder ends
  · intro c same
    rw [eq_of_beq same, solid]
  · intro front none
    exact none

theorem leadingDollar_stable (milder : Milder text mild)
    (ends : leadingDollar (front ++ text) = (kind, front.length))
    : leadingDollar (front ++ mild) = (kind, front.length) :=
  prolonged_stable (fun _ => isSpace_eq_false_of_isNameStart)
    (fun ends => run_stable (fun _ => isSpace_eq_false_of_isNamePart) ends milder) milder ends

theorem leadingBackslash_stable (milder : Milder text mild)
    (ends : leadingBackslash (front ++ text) = (kind, front.length))
    : leadingBackslash (front ++ mild) = (kind, front.length) :=
  prolonged_stable (fun _ => isSpace_eq_false_of_isNameStart)
    (fun ends => nameLength_stable ends milder) milder ends

/-- What a token starts with does not hang on what stands behind it. -/
theorem isPrefixOf_append {start : Text} (mild : Text) (starts : start.isPrefixOf (front ++ text))
    (within : start.length ≤ front.length)
    : start.isPrefixOf (front ++ mild) = true := by
  have inside := List.prefix_of_prefix_length_le (List.isPrefixOf_iff_prefix.mp starts)
    (List.prefix_append front text) within
  exact List.isPrefixOf_iff_prefix.mpr (inside.trans (List.prefix_append front mild))

/-- An ellipsis is two full stops more. -/
theorem fullStop_eq (text : Text)
    : fullStop text
      = if ['.', '.'].isPrefixOf text then (.ellipsis, 2)
        else prolonged Char.isDigit (run numberLength.isFraction) .number .operator text := by
  unfold fullStop
  split
  · rfl
  · rename_i other
    rw [if_neg]
    intro starts
    obtain ⟨rest, rfl⟩ := List.isPrefixOf_iff_prefix.mp starts
    exact other rest rfl

theorem fullStop_le : (fullStop text).2 ≤ text.length := by
  rw [fullStop_eq]
  split
  · rename_i starts
    exact (List.isPrefixOf_iff_prefix.mp starts).length_le
  · exact prolonged_le (run_le _)

theorem fullStop_stable (milder : Milder text mild)
    (ends : fullStop (front ++ text) = (kind, front.length))
    : fullStop (front ++ mild) = (kind, front.length) := by
  rw [fullStop_eq] at ends ⊢
  split at ends
  · rename_i starts
    obtain ⟨rfl, length⟩ := Prod.mk.inj ends
    rw [if_pos (isPrefixOf_append mild starts (Nat.le_of_eq length))]
    exact Prod.ext rfl length
  · rename_i other
    rw [if_neg ((milder.append front).not_isPrefixOf rfl other)]
    exact prolonged_stable (fun _ => isSpace_eq_false_of_isDigit)
      (fun ends => run_stable (fun _ => isSpace_eq_false_of_isFraction) ends milder) milder ends

theorem quotation_le {quote : Char} : (quotation quote text).2 ≤ text.length :=
  quotedLength_le quote text

theorem quotation_stable {quote : Char} (closed : kind ≠ .error)
    (ends : quotation quote (front ++ text) = (kind, front.length))
    : quotation quote (front ++ mild) = (kind, front.length) := by
  unfold quotation at ends ⊢
  obtain ⟨kind', length⟩ := Prod.mk.inj ends
  have ends' : quotedLength quote (front ++ text) = (true, front.length) := by
    refine Prod.ext ?_ length
    by_contra open?
    rw [if_neg open?] at kind'
    exact closed kind'.symm
  rw [quotedLength_stable mild ends']
  rw [ends'] at kind'
  rw [← kind']


/-- The tokens behind a question mark, by what follows it. -/
theorem questionMark_eq (text : Text)
    : questionMark text
      = if ['>'].isPrefixOf text then (.closeTag, markupLength (text.drop 1) + 1)
        else if ['-', '>'].isPrefixOf text then (.nullsafeArrow, 2)
        else followedBy '?' .doubleQuestion .question text := by
  unfold questionMark
  split
  · rfl
  · rfl
  · rfl
  · rename_i close arrow double
    have close' : ¬['>'].isPrefixOf text = true := by
      intro starts
      obtain ⟨rest, rfl⟩ := List.isPrefixOf_iff_prefix.mp starts
      exact close rest rfl
    have arrow' : ¬['-', '>'].isPrefixOf text = true := by
      intro starts
      obtain ⟨rest, rfl⟩ := List.isPrefixOf_iff_prefix.mp starts
      exact arrow rest rfl
    rw [if_neg close', if_neg arrow']
    refine (prolonged_eq_zero_iff.mpr ⟨rfl, fun c first => ?_⟩).symm
    obtain ⟨rest, rfl⟩ := List.head?_eq_some_iff.mp (Option.mem_def.mp first)
    refine beq_false_of_ne ?_
    rintro rfl
    exact double rest rfl

theorem questionMark_le : (questionMark text).2 ≤ text.length := by
  rw [questionMark_eq]
  split
  · rename_i starts
    have bound := markupLength_le (text.drop 1)
    have longer := (List.isPrefixOf_iff_prefix.mp starts).length_le
    simp only [List.length_drop, List.length_singleton] at bound longer ⊢
    omega
  · split
    · rename_i starts
      exact (List.isPrefixOf_iff_prefix.mp starts).length_le
    · exact prolonged_le fun _ => Nat.zero_le _

theorem questionMark_stable (milder : Milder text mild)
    (close : kind = .closeTag → mild = [] ∨ opensCode mild = true)
    (ends : questionMark (front ++ text) = (kind, front.length))
    : questionMark (front ++ mild) = (kind, front.length) := by
  rw [questionMark_eq] at ends ⊢
  split at ends
  · rename_i starts
    obtain ⟨rfl, length⟩ := Prod.mk.inj ends
    rw [if_pos (isPrefixOf_append mild starts (by simp; omega))]
    cases front with
    | nil => cases length
    | cons c body =>
        have length' := markupLength_stable (close rfl) milder (Nat.succ_inj.mp length)
        exact Prod.ext rfl (congrArg (· + 1) length')
  · rename_i other
    rw [if_neg ((milder.append front).not_isPrefixOf rfl other)]
    split at ends
    · rename_i starts
      obtain ⟨rfl, length⟩ := Prod.mk.inj ends
      rw [if_pos (isPrefixOf_append mild starts (Nat.le_of_eq length))]
      exact Prod.ext rfl length
    · rename_i other'
      rw [if_neg ((milder.append front).not_isPrefixOf rfl other')]
      exact followedBy_stable rfl milder ends

theorem heredoc_le : (heredoc text).2 ≤ text.length + 2 := by
  have blanks := run_le isIndent text
  unfold heredoc
  dsimp only
  split
  · rename_i length found
    have bound := (heredocLength?_le found).2
    rw [List.length_drop] at bound
    simp only
    omega
  · simp only
    omega

theorem heredoc_ge : 2 ≤ (heredoc text).2 := by
  unfold heredoc
  dsimp only
  split <;> exact Nat.le_add_left _ _

theorem heredoc_stable (milder : Milder text mild) (closed : kind ≠ .error)
    (ends : heredoc (front ++ text) = (kind, front.length + 2))
    : heredoc (front ++ mild) = (kind, front.length + 2) := by
  obtain ⟨indent, back, cut, blanks, dropped, all, stops⟩ := exists_run isIndent (front ++ text)
  unfold heredoc at ends ⊢
  dsimp only at ends ⊢
  rw [blanks, dropped] at ends
  split at ends
  · rename_i length found
    obtain ⟨rfl, length'⟩ := Prod.mk.inj ends
    obtain ⟨body, rfl, rfl⟩ := exists_append_of_length_le indent back cut (by omega)
    rw [List.length_append] at length'
    obtain rfl : length = body.length := by omega
    -- The label is not empty, so the indentation ends where it ended.
    have ends' : ∀ c ∈ (body ++ mild).head?, isIndent c = false := by
      cases body with
      | nil => exact absurd (heredocLength?_le found).1 (Nat.lt_irrefl 0)
      | cons c body => exact stops
    rw [List.append_assoc, run_append isIndent all ends', List.drop_left,
      heredocLength?_stable found milder, List.length_append]
    simp only [Prod.mk.injEq, true_and]
    omega
  · exact absurd (Prod.mk.inj ends).1.symm closed

/-- The tokens behind a less-than sign, by what follows it. -/
theorem lessThan_eq (text : Text)
    : lessThan text
      = if ['<', '<'].isPrefixOf text then heredoc (text.drop 2)
        else if ['?', '='].isPrefixOf text then (.openTag, 2)
        else if opensCode ('<' :: text) then (.openTag, 4) else (.operator, 0) := by
  unfold lessThan
  split
  · rfl
  · rfl
  · rename_i rest other
    have heredoc : ¬['<', '<'].isPrefixOf ('?' :: rest) = true := by simp
    have echo : ¬['?', '='].isPrefixOf ('?' :: rest) = true := by
      intro starts
      obtain ⟨behind, same⟩ := List.isPrefixOf_iff_prefix.mp starts
      exact other behind (List.cons.inj same).2.symm
    rw [if_neg heredoc, if_neg echo]
  · rename_i heredoc echo tag
    have heredoc' : ¬['<', '<'].isPrefixOf text = true := by
      intro starts
      obtain ⟨rest, rfl⟩ := List.isPrefixOf_iff_prefix.mp starts
      exact heredoc rest rfl
    have echo' : ¬['?', '='].isPrefixOf text = true := by
      intro starts
      obtain ⟨rest, rfl⟩ := List.isPrefixOf_iff_prefix.mp starts
      exact echo rest rfl
    have tag' : ¬opensCode ('<' :: text) = true := by
      unfold opensCode
      split
      · rename_i rest same
        exact absurd (List.cons.inj same).2 (tag rest)
      · exact Bool.false_ne_true
    rw [if_neg heredoc', if_neg echo', if_neg tag']

theorem lessThan_le : (lessThan text).2 ≤ text.length := by
  rw [lessThan_eq]
  split
  · rename_i starts
    have bound : (heredoc (text.drop 2)).2 ≤ (text.drop 2).length + 2 := heredoc_le
    have longer := (List.isPrefixOf_iff_prefix.mp starts).length_le
    simp only [List.length_drop, List.length_cons, List.length_nil] at bound longer
    omega
  split
  · rename_i starts
    exact (List.isPrefixOf_iff_prefix.mp starts).length_le
  rename_i echo
  split
  · rename_i opens
    obtain ⟨tag, isTag, starts⟩ := opensCode_iff.mp opens
    rcases isTag with rfl | ⟨word, folded, rfl⟩
    · exact absurd (List.isPrefixOf_iff_prefix.mpr (List.cons_prefix_cons.mp starts).2) echo
    · have three : word.length = 3 := by simpa [Text.lower] using congrArg List.length folded
      have longer := (List.cons_prefix_cons.mp starts).2.length_le
      rwa [List.length_cons, three] at longer
  · exact Nat.zero_le _

theorem lessThan_stable (milder : Milder text mild) (closed : kind ≠ .error)
    (ends : lessThan (front ++ text) = (kind, front.length))
    : lessThan (front ++ mild) = (kind, front.length) := by
  rw [lessThan_eq] at ends ⊢
  split at ends
  · rename_i starts
    have longer : 2 ≤ (heredoc ((front ++ text).drop 2)).2 := heredoc_ge
    rw [ends] at longer
    obtain ⟨body, rfl⟩ := List.prefix_of_prefix_length_le (List.isPrefixOf_iff_prefix.mp starts)
      (List.prefix_append front text) longer
    exact heredoc_stable milder closed ends
  rename_i heredoc
  rw [if_neg ((milder.append front).not_isPrefixOf rfl heredoc)]
  split at ends
  · rename_i starts
    obtain ⟨rfl, length⟩ := Prod.mk.inj ends
    rw [if_pos (isPrefixOf_append mild starts (Nat.le_of_eq length))]
    exact Prod.ext rfl length
  rename_i echo
  rw [if_neg ((milder.append front).not_isPrefixOf rfl echo)]
  split at ends
  · rename_i opens
    obtain ⟨rfl, length⟩ := Prod.mk.inj ends
    obtain ⟨tag, isTag, starts⟩ := opensCode_iff.mp opens
    have opens' : opensCode ('<' :: (front ++ mild)) = true := by
      have short := isTag.length_le
      have inside : tag <+: '<' :: front := List.prefix_of_prefix_length_le starts
        (List.prefix_append ('<' :: front) text) (by rw [List.length_cons]; omega)
      exact opensCode_iff.mpr ⟨tag, isTag, inside.trans (List.prefix_append ('<' :: front) mild)⟩
    rw [if_pos opens']
    exact Prod.ext rfl length
  · rename_i goes
    have goes' : ¬opensCode ('<' :: (front ++ mild)) = true :=
      fun opens => goes (opensCode_of_milder (milder.append ('<' :: front)) opens)
    rw [if_neg goes']
    exact ends

-----------------------------------------------------------------------------------------
-- Any token
-----------------------------------------------------------------------------------------

theorem munch_le (c : Char) (text : Text) : (munch c text).2 ≤ text.length := by
  unfold munch
  split
  · exact nameLength_le _
  split
  · exact numberLength_le _
  split
  · exact run_le _ _
  split
  · exact slash_le
  · exact hash_le
  · exact lessThan_le
  · exact questionMark_le
  · exact fullStop_le
  · exact prolonged_le nameLength_le
  · exact prolonged_le (run_le _)
  · exact quotation_le
  · exact quotation_le
  · exact quotation_le
  · exact prolonged_le fun _ => Nat.zero_le _
  · exact prolonged_le fun _ => Nat.zero_le _
  · exact prolonged_le fun _ => Nat.zero_le _
  all_goals exact Nat.zero_le _

/-- The characters that start what has to be closed: comments, heredocs and strings. -/
def opensText (c : Char) : Bool :=
  ['/', '<', '\'', '"', '\x60'].contains c

/-- The characters that start a string. -/
def opensString (c : Char) : Bool :=
  ['\'', '"', '\x60'].contains c

/-- A text that stands behind a token and does not prolong it, by the kind of the token. -/
def Halts (kind : TokenKind) (text mild : Text) : Prop :=
  match kind with
  | .whitespace => mild.head? = text.head?
  | .lineComment => ∀ c ∈ mild.head?, c = '\n'
  | .closeTag => mild = [] ∨ opensCode mild = true
  | _ => True

/-- A token ends where it ends before every text that does not prolong it. A comment that is never
closed stays so before a text in which no comment ends.
-/
theorem munch_stable {c : Char} (milder : Milder text mild) (halts : Halts kind text mild)
    (closed : c = '<' ∨ opensString c = true → kind ≠ .error)
    (lasts : c = '/' → kind = .error → EndsNoComment mild)
    (ends : munch c (front ++ text) = (kind, front.length))
    : munch c (front ++ mild) = (kind, front.length) := by
  unfold munch at ends ⊢
  split at ends
  · obtain ⟨rfl, length⟩ := Prod.mk.inj ends
    rename_i start
    rw [if_pos start, nameLength_stable length milder]
  rename_i start
  rw [if_neg start]
  split at ends
  · obtain ⟨rfl, length⟩ := Prod.mk.inj ends
    rename_i digit
    rw [if_pos digit, numberLength_stable length milder]
  rename_i digit
  rw [if_neg digit]
  split at ends
  · obtain ⟨rfl, length⟩ := Prod.mk.inj ends
    rename_i space
    obtain ⟨all, stops⟩ := run_append_iff.mp length
    have same : mild.head? = text.head? := halts
    rw [if_pos space, run_append isSpace all (same ▸ stops)]
  rename_i space
  rw [if_neg space]
  split at ends
  · exact slash_stable milder (lasts rfl) (fun line => by subst line; exact halts) ends
  · exact hash_stable (fun line => by subst line; exact halts) ends
  · exact lessThan_stable milder (closed (.inl rfl)) ends
  · exact questionMark_stable milder (fun close => by subst close; exact halts) ends
  · exact fullStop_stable milder ends
  · exact leadingBackslash_stable milder ends
  · exact leadingDollar_stable milder ends
  · exact quotation_stable (closed (.inr rfl)) ends
  · exact quotation_stable (closed (.inr rfl)) ends
  · exact quotation_stable (closed (.inr rfl)) ends
  · exact followedBy_stable rfl milder ends
  · exact followedBy_stable rfl milder ends
  · exact followedBy_stable rfl milder ends
  all_goals exact ends

end Lexer

end ImportHeader
