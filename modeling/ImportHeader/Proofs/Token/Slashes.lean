import ImportHeader.Proofs.Token.Runs

/-! Where comments end, and the operators that start like one: a slash, an asterisk, a hash.
-/

namespace ImportHeader

namespace Lexer

-----------------------------------------------------------------------------------------
-- Block comments
-----------------------------------------------------------------------------------------

theorem commentLength?_le {text : Text} {length : Nat} (closed : commentLength? text = some length)
    : length ≤ text.length := by
  fun_induction commentLength? text generalizing length with
  | case1 => cases closed
  | case2 =>
      cases closed
      simp
  | case3 c rest _ ih =>
      obtain ⟨inner, found, rfl⟩ := Option.map_eq_some_iff.mp closed
      exact Nat.succ_le_succ (ih found)

theorem commentLength?_cons (c : Char) (rest : Text)
    : commentLength? (c :: rest)
      = if c = '*' ∧ rest.head? = some '/' then some 2
        else (commentLength? rest).map (· + 1) := by
  split
  · rename_i ends
    obtain ⟨rfl, slash⟩ := ends
    obtain ⟨behind, rfl⟩ := List.head?_eq_some_iff.mp slash
    rfl
  · rename_i goes
    rw [commentLength?]
    intro behind star slash
    exact goes ⟨star, by rw [slash]; rfl⟩

theorem commentLength?_ne_zero (text : Text) : commentLength? text ≠ some 0 := by
  intro closed
  cases text with
  | nil => cases closed
  | cons c rest =>
      rw [commentLength?_cons] at closed
      split at closed
      · cases closed
      · obtain ⟨inner, _, none⟩ := Option.map_eq_some_iff.mp closed
        cases none

/-- A comment that is closed ends with its closing mark, whatever stands behind it. -/
theorem commentLength?_stable {front text : Text} (mild : Text)
    (closed : commentLength? (front ++ text) = some front.length)
    : commentLength? (front ++ mild) = some front.length := by
  induction front with
  | nil => exact absurd closed (commentLength?_ne_zero _)
  | cons c front ih =>
      rw [List.cons_append, commentLength?_cons] at closed ⊢
      split at closed
      · rename_i ends
        cases front with
        | nil => cases closed
        | cons d front =>
            rw [if_pos (by simpa using ends)]
            exact closed
      · rename_i goes
        obtain ⟨inner, found, same⟩ := Option.map_eq_some_iff.mp closed
        simp only [List.length_cons, Nat.add_right_cancel_iff] at same
        subst same
        cases front with
        | nil => exact absurd found (commentLength?_ne_zero _)
        | cons d front =>
            rw [if_neg (by simpa using goes), ih found]
            rfl

/-- A text in which no comment ends. -/
def EndsNoComment (text : Text) : Prop :=
  commentLength? text = none

instance (text : Text) : Decidable (EndsNoComment text) :=
  inferInstanceAs (Decidable (commentLength? text = none))

theorem endsNoComment_nil : EndsNoComment [] :=
  rfl

theorem endsNoComment_cons_iff {c : Char} {rest : Text}
    : EndsNoComment (c :: rest) ↔ ¬(c = '*' ∧ rest.head? = some '/') ∧ EndsNoComment rest := by
  unfold EndsNoComment
  rw [commentLength?_cons]
  split <;> simp_all

theorem endsNoComment_space {c : Char} {rest : Text} (space : isSpace c = true)
    (none : EndsNoComment rest)
    : EndsNoComment (c :: rest) := by
  refine endsNoComment_cons_iff.mpr ⟨?_, none⟩
  rintro ⟨rfl, _⟩
  cases space

theorem EndsNoComment.suffix {front text : Text} (none : EndsNoComment (front ++ text))
    : EndsNoComment text := by
  induction front with
  | nil => exact none
  | cons c front ih => exact ih (endsNoComment_cons_iff.mp none).2

/-- Where no comment ends before a text, none ends before a milder one in which none ends. -/
theorem EndsNoComment.milder {front text mild : Text} (none : EndsNoComment (front ++ text))
    (milder : Milder text mild) (none' : EndsNoComment mild)
    : EndsNoComment (front ++ mild) := by
  induction front with
  | nil => exact none'
  | cons c front ih =>
      rw [List.cons_append, endsNoComment_cons_iff] at none ⊢
      refine ⟨fun ⟨star, slash⟩ => none.1 ⟨star, ?_⟩, ih none.2⟩
      cases front with
      | cons d front => simpa using slash
      | nil =>
          obtain ⟨rest, rfl⟩ := List.head?_eq_some_iff.mp slash
          obtain ⟨rest', rfl⟩ := milder ['/'] (List.forall_mem_singleton.mpr rfl) ⟨rest, rfl⟩
          rfl

/-- In a part of a text in which no comment ends none ends. -/
theorem EndsNoComment.within {text inside : Text} (none : EndsNoComment text)
    (listed : inside <:+: text)
    : EndsNoComment inside := by
  obtain ⟨front, back, rfl⟩ := listed
  rw [List.append_assoc] at none
  have start := none.suffix.milder (milder_nil back) endsNoComment_nil
  rwa [List.append_nil] at start

/-- White space joins texts in which no comment ends. -/
theorem EndsNoComment.append_space {front text : Text} {c : Char} (none : EndsNoComment front)
    (space : isSpace c = true) (none' : EndsNoComment text)
    : EndsNoComment (front ++ c :: text) := by
  rw [← List.append_nil front] at none
  exact none.milder (milder_space [] space text) (endsNoComment_space space none')

theorem endsNoComment_of_not_mem {text : Text} (absent : '*' ∉ text) : EndsNoComment text := by
  induction text with
  | nil => exact endsNoComment_nil
  | cons c text ih =>
      rw [List.mem_cons, not_or] at absent
      exact endsNoComment_cons_iff.mpr ⟨fun ⟨star, _⟩ => absent.1 star.symm, ih absent.2⟩

-----------------------------------------------------------------------------------------
-- Tokens that start with a slash or a hash
-----------------------------------------------------------------------------------------

variable {kind : TokenKind} {front text mild : Text}

theorem comment_le (opening : Nat) : (comment kind opening text).2 ≤ text.length + opening := by
  unfold comment
  split
  · rename_i length found
    have bound := commentLength?_le found
    omega
  · omega

theorem comment_stable {first : TokenKind} {opening : Nat} (closed : kind ≠ .error)
    (ends : comment first opening (front ++ text) = (kind, front.length + opening))
    : comment first opening (front ++ mild) = (kind, front.length + opening) := by
  unfold comment at ends ⊢
  split at ends
  · rename_i length found
    obtain ⟨rfl, length'⟩ := Prod.mk.inj ends
    obtain rfl : length = front.length := by omega
    rw [commentLength?_stable mild found]
  · exact absurd (Prod.mk.inj ends).1.symm closed

theorem comment_ne_nil {first : TokenKind} {opening : Nat} (closed : kind ≠ .error)
    : comment first opening text ≠ (kind, opening) := by
  intro ends
  unfold comment at ends
  split at ends
  · rename_i length found
    have none : length = 0 := by
      have length' := (Prod.mk.inj ends).2
      omega
    exact commentLength?_ne_zero _ (none ▸ found)
  · exact closed (Prod.mk.inj ends).1.symm

theorem asterisk_le : (asterisk text).2 ≤ text.length + 1 := by
  cases text with
  | nil => exact Nat.le_refl _
  | cons c rest =>
      rw [asterisk]
      split
      · split
        · rename_i slash
          obtain ⟨behind, rfl⟩ := List.head?_eq_some_iff.mp slash
          simp
        · exact comment_le 2
      · exact comment_le 1

theorem asterisk_stable (closed : kind ≠ .error)
    (ends : asterisk (front ++ text) = (kind, front.length + 1))
    : asterisk (front ++ mild) = (kind, front.length + 1) := by
  cases front with
  | nil =>
      -- No comment ends with the characters that open it.
      exfalso
      cases text with
      | nil => exact closed (Prod.mk.inj ends).1.symm
      | cons c rest =>
          rw [List.nil_append, asterisk] at ends
          split at ends
          · split at ends
            · cases ends
            · have length := (Prod.mk.inj ends).2
              split at length <;> simp at length
          · exact comment_ne_nil closed ends
  | cons c body =>
      rw [List.cons_append, asterisk] at ends ⊢
      split at ends
      · rename_i star
        rw [if_pos star]
        cases body with
        | nil =>
            exfalso
            split at ends
            · cases ends
            · exact comment_ne_nil closed ends
        | cons d body =>
            split at ends
            · rename_i slash
              rw [if_pos (by simpa using slash)]
              exact ends
            · rename_i other
              rw [if_neg (by simpa using other)]
              exact comment_stable closed ends
      · rename_i other
        rw [if_neg other, ← List.cons_append]
        rw [← List.cons_append] at ends
        exact comment_stable closed ends

theorem comment_eq_error_iff (other : kind ≠ .error) {opening length : Nat}
    : comment kind opening text = (.error, length) ↔ EndsNoComment text ∧ length = opening := by
  unfold comment EndsNoComment
  cases commentLength? text with
  | none => simp [eq_comm]
  | some inner => simp [other]

/-- What opens a comment that is never closed is two characters, or three. -/
theorem asterisk_eq_error_iff
    : asterisk (front ++ text) = (.error, front.length + 1)
      ↔ EndsNoComment text
        ∧ (front = [] ∧ text.head? ≠ some '*' ∨ front = ['*'] ∧ text.head? ≠ some '/') := by
  cases front with
  | nil =>
      cases text with
      | nil => simp [asterisk, endsNoComment_nil]
      | cons c rest =>
          rw [List.nil_append, asterisk]
          split
          · rename_i star
            subst star
            split
            · simp
            · rw [comment_eq_error_iff (by decide)]
              simp
          · rename_i other
            rw [comment_eq_error_iff (by decide)]
            simp [other]
  | cons c body =>
      rw [List.cons_append, asterisk]
      split
      · rename_i star
        subst star
        cases body with
        | nil =>
            split
            · rename_i slash
              simpa using fun _ => slash
            · rename_i other
              rw [comment_eq_error_iff (by decide)]
              simpa using fun _ => other
        | cons d body =>
            split
            · simp
            · rw [comment_eq_error_iff (by decide)]
              simp
      · rename_i other
        rw [comment_eq_error_iff (by decide)]
        simp [other]

theorem asterisk_milder (milder : Milder text mild)
    (lasts : kind = .error → EndsNoComment mild)
    (ends : asterisk (front ++ text) = (kind, front.length + 1))
    : asterisk (front ++ mild) = (kind, front.length + 1) := by
  by_cases unclosed : kind = .error
  · subst unclosed
    obtain ⟨_, first⟩ := asterisk_eq_error_iff.mp ends
    have head {c : Char} (solid : isSpace c = false) (other : text.head? ≠ some c)
        : mild.head? ≠ some c := by
      intro starts
      obtain ⟨rest, rfl⟩ := List.head?_eq_some_iff.mp starts
      obtain ⟨rest', rfl⟩ := milder [c] (by simpa using solid) ⟨rest, rfl⟩
      exact other rfl
    exact asterisk_eq_error_iff.mpr ⟨lasts rfl,
      first.imp (And.imp_right (head rfl)) (And.imp_right (head rfl))⟩
  · exact asterisk_stable unclosed ends

theorem slash_le : (slash text).2 ≤ text.length := by
  cases text with
  | nil => exact Nat.le_refl _
  | cons c rest =>
      rw [slash]
      split
      · exact Nat.succ_le_succ (run_le _ _)
      · split
        · exact asterisk_le
        · exact Nat.zero_le _

theorem asterisk_ne_zero : (asterisk text).2 ≠ 0 := by
  cases text with
  | nil => exact Nat.one_ne_zero
  | cons c rest =>
      rw [asterisk]
      unfold comment
      split
      · split
        · exact Nat.succ_ne_zero _
        · split <;> exact Nat.succ_ne_zero _
      · split <;> exact Nat.succ_ne_zero _

/-- A slash alone is the operator. -/
theorem slash_eq_zero_iff
    : slash text = (kind, 0)
      ↔ .operator = kind ∧ ∀ c ∈ text.head?, (c == '/' || c == '*') = false := by
  cases text with
  | nil => simp [slash]
  | cons c rest =>
      rw [slash]
      split
      · rename_i slash
        simp [slash]
      · rename_i other
        split
        · rename_i star
          have longer : (asterisk rest).2 ≠ 0 := asterisk_ne_zero
          simp only [star, List.head?_cons, Option.mem_def, Option.some.injEq]
          constructor
          · intro ends
            exact absurd (congrArg Prod.snd ends) longer
          · rintro ⟨_, none⟩
            exact absurd (none '*' rfl) (by decide)
        · rename_i other'
          simp [other, other']

theorem slash_stable (milder : Milder text mild) (lasts : kind = .error → EndsNoComment mild)
    (line : kind = .lineComment → ∀ c ∈ mild.head?, c = '\n')
    (ends : slash (front ++ text) = (kind, front.length))
    : slash (front ++ mild) = (kind, front.length) := by
  cases front with
  | nil =>
      obtain ⟨rfl, none⟩ := slash_eq_zero_iff.mp ends
      refine slash_eq_zero_iff.mpr ⟨rfl, milder.head (fun c mark => ?_) none⟩
      simp only [Bool.or_eq_true, beq_iff_eq] at mark
      rcases mark with rfl | rfl <;> decide
  | cons c body =>
      rw [List.cons_append, slash] at ends ⊢
      split at ends
      · rename_i slash
        obtain ⟨rfl, runs⟩ := Prod.mk.inj ends
        obtain ⟨all, _⟩ := run_append_iff.mp (Nat.succ_inj.mp runs)
        have runs' : run (· != '\n') (body ++ mild) = body.length := by
          refine run_append_iff.mpr ⟨all, fun c first => ?_⟩
          rw [line rfl c first]
          rfl
        rw [if_pos slash, runs']
        rfl
      · rename_i other
        rw [if_neg other]
        split at ends
        · rename_i star
          rw [if_pos star]
          exact asterisk_milder milder lasts ends
        · cases ends

theorem hash_le : (hash text).2 ≤ text.length := by
  unfold hash
  split
  · simp
  · exact run_le _ _

/-- The tokens behind a hash sign, by what follows it. -/
theorem hash_eq (text : Text)
    : hash text
      = if text.head? = some '[' then (.attributeOpen, 1)
        else (.lineComment, run (· != '\n') text) := by
  cases text with
  | nil => rfl
  | cons c rest =>
      unfold hash
      split
      · simp_all
      · rename_i other
        have other' : c ≠ '[' := by
          rintro rfl
          exact other rest rfl
        simp [other']

theorem hash_stable (line : kind = .lineComment → ∀ c ∈ mild.head?, c = '\n')
    (ends : hash (front ++ text) = (kind, front.length))
    : hash (front ++ mild) = (kind, front.length) := by
  rw [hash_eq] at ends ⊢
  split at ends
  · rename_i bracket
    cases front with
    | nil => cases ends
    | cons c body =>
        rw [if_pos (by simpa using bracket)]
        exact ends
  · rename_i other
    obtain ⟨rfl, runs⟩ := Prod.mk.inj ends
    obtain ⟨all, _⟩ := run_append_iff.mp runs
    have stops : ∀ c ∈ mild.head?, c = '\n' := line rfl
    have runs' : run (· != '\n') (front ++ mild) = front.length := by
      refine run_append_iff.mpr ⟨all, fun c first => ?_⟩
      rw [stops c first]
      rfl
    have other' : ¬(front ++ mild).head? = some '[' := by
      cases front with
      | nil =>
          intro bracket
          exact absurd (stops '[' bracket) (by decide)
      | cons c body => simpa using other
    rw [if_neg other', runs']

end Lexer

end ImportHeader
