import ImportHeader.Proofs.Token.Pieces
import Mathlib.Data.List.TakeWhile

/-! Where a run of characters ends. A run, a name or a number ends where it ends whatever stands
behind it, as long as nothing there can prolong it; white space never can.
-/

namespace ImportHeader

namespace Lexer

/-- A text that can prolong no piece that another one does not prolong: whatever it starts
with, up to its first white space, the other one starts with too.
-/
def Milder (text mild : Text) : Prop :=
  ∀ front, (∀ c ∈ front, isSpace c = false) → front <+: mild → front <+: text

theorem milder_nil (text : Text) : Milder text [] := by
  intro front _ starts
  obtain rfl := List.prefix_nil.mp starts
  exact List.nil_prefix

theorem milder_space (text : Text) {c : Char} (space : isSpace c = true) (rest : Text)
    : Milder text (c :: rest) := by
  intro front solid starts
  cases front with
  | nil => exact List.nil_prefix
  | cons d front =>
      obtain rfl := (List.cons_prefix_cons.mp starts).1
      rw [solid d List.mem_cons_self] at space
      cases space

theorem Milder.append {text mild : Text} (milder : Milder text mild) (front : Text)
    : Milder (front ++ text) (front ++ mild) := by
  induction front with
  | nil => exact milder
  | cons c front ih =>
      intro start solid starts
      cases start with
      | nil => exact List.nil_prefix
      | cons d start =>
          obtain ⟨rfl, later⟩ := List.cons_prefix_cons.mp starts
          exact List.cons_prefix_cons.mpr
            ⟨rfl, ih start (fun c listed => solid c (List.mem_cons_of_mem _ listed)) later⟩

/-- What a milder text starts with is no character that does not start the other one. -/
theorem Milder.head {text mild : Text} (milder : Milder text mild) {test : Char → Bool}
    (solid : ∀ c, test c = true → isSpace c = false)
    (stops : ∀ c ∈ text.head?, test c = false)
    : ∀ c ∈ mild.head?, test c = false := by
  intro c first
  obtain ⟨rest, rfl⟩ := List.head?_eq_some_iff.mp (Option.mem_def.mp first)
  by_contra holds
  rw [Bool.not_eq_false] at holds
  obtain ⟨behind, starts⟩ := milder [c] (by simpa using solid c holds) ⟨rest, rfl⟩
  rw [stops c (by simp [← starts])] at holds
  cases holds

/-- What no text that prolongs more starts with, a milder one does not start with either. -/
theorem Milder.not_isPrefixOf {text mild : Text} (milder : Milder text mild) {start : Text}
    (solid : start.all fun c => !isSpace c) (absent : ¬start.isPrefixOf text)
    : ¬start.isPrefixOf mild = true := by
  rw [List.isPrefixOf_iff_prefix] at absent ⊢
  intro starts
  refine absent (milder start (fun c listed => ?_) starts)
  simpa using List.all_eq_true.mp solid c listed

theorem isSpace_eq_false_of_isNamePart {c : Char} (part : isNamePart c = true)
    : isSpace c = false := by
  unfold isSpace
  by_contra space
  rw [Bool.not_eq_false] at space
  simp only [Bool.or_eq_true, beq_iff_eq] at space
  rcases space with ((rfl | rfl) | rfl) | rfl <;> revert part <;> decide

theorem isNamePart_of_isNameStart {c : Char} (start : isNameStart c = true)
    : isNamePart c = true := by
  rw [isNamePart, start]
  rfl

-----------------------------------------------------------------------------------------
-- Runs, names and numbers
-----------------------------------------------------------------------------------------

theorem run_le (test : Char → Bool) (text : Text) : run test text ≤ text.length :=
  (List.takeWhile_prefix test).length_le

/-- A run ends with the first text if all of that passes the test and nothing behind it does.
-/
theorem run_append_iff {test : Char → Bool} {front back : Text}
    : run test (front ++ back) = front.length
      ↔ (∀ c ∈ front, test c = true) ∧ ∀ c ∈ back.head?, test c = false := by
  unfold run
  constructor
  · intro lengths
    rw [List.takeWhile_append] at lengths
    split at lengths
    · rename_i whole
      have all : ∀ c ∈ front, test c = true := by
        intro c listed
        rw [← (List.takeWhile_prefix test).eq_of_length whole] at listed
        exact List.mem_takeWhile_imp listed
      refine ⟨all, fun c first => ?_⟩
      obtain ⟨rest, rfl⟩ := List.head?_eq_some_iff.mp (Option.mem_def.mp first)
      by_contra holds
      rw [Bool.not_eq_false] at holds
      simp [List.takeWhile_cons_of_pos, holds] at lengths
    · rename_i part
      exact absurd lengths part
  · rintro ⟨all, stops⟩
    rw [List.takeWhile_append_of_pos all]
    cases back with
    | nil => simp
    | cons c back => simp [stops c rfl]

theorem run_stable {test : Char → Bool} {front text mild : Text}
    (solid : ∀ c, test c = true → isSpace c = false)
    (ends : run test (front ++ text) = front.length) (milder : Milder text mild)
    : run test (front ++ mild) = front.length := by
  obtain ⟨all, stops⟩ := run_append_iff.mp ends
  exact run_append_iff.mpr ⟨all, milder.head solid stops⟩

theorem nameLength_le (text : Text) : nameLength text ≤ text.length := by
  fun_induction nameLength text with
  | case1 => exact Nat.le_refl 0
  | case2 c rest _ ih => simp only [List.length_cons]; omega
  | case3 => exact Nat.zero_le _
  | case4 c rest _ _ ih => simp only [List.length_cons]; omega
  | case5 => exact Nat.zero_le _

/-- A text prolongs a name if it starts with a part of an identifier, or with a backslash and
the start of one.
-/
theorem nameLength_eq_zero_iff {text : Text}
    : nameLength text = 0
      ↔ (∀ c ∈ text.head?, isNamePart c = false)
        ∧ ∀ c, isNameStart c = true → ¬['\\', c] <+: text := by
  fun_cases nameLength text with
  | case1 => simp
  | case2 c rest start =>
      constructor
      · intro none
        omega
      · rintro ⟨_, none⟩
        exact absurd ⟨rest, rfl⟩ (none c start)
  | case3 c rest start =>
      refine iff_of_true rfl ⟨?_, ?_⟩
      · intro d first
        obtain rfl := Option.some.inj (Option.mem_def.mp first)
        decide
      · rintro d begins starts
        have same := (List.cons_prefix_cons.mp (List.cons_prefix_cons.mp starts).2).1
        exact start (same ▸ begins)
  | case4 c rest other part =>
      constructor
      · intro none
        omega
      · rintro ⟨none, _⟩
        rw [none c rfl] at part
        cases part
  | case5 c rest other part =>
      refine iff_of_true rfl ⟨?_, ?_⟩
      · intro d first
        obtain rfl := Option.some.inj (Option.mem_def.mp first)
        exact Bool.eq_false_iff.mpr part
      · rintro d begins ⟨behind, starts⟩
        obtain ⟨rfl, rfl⟩ := List.cons.inj starts.symm
        exact other d behind rfl rfl

theorem nameLength_cons {c : Char} (other : c ≠ '\\') (rest : Text)
    : nameLength (c :: rest) = if isNamePart c then nameLength rest + 1 else 0 := by
  rw [nameLength]
  exact fun _ _ same => absurd same other

theorem nameLength_stable {front text mild : Text}
    (ends : nameLength (front ++ text) = front.length) (milder : Milder text mild)
    : nameLength (front ++ mild) = front.length := by
  induction h : front.length using Nat.strongRecOn generalizing front with
  | ind size ih =>
      cases front with
      | nil =>
          rw [← h, List.nil_append]
          obtain ⟨stops, none⟩ := nameLength_eq_zero_iff.mp ends
          refine nameLength_eq_zero_iff.mpr
            ⟨milder.head (fun c => isSpace_eq_false_of_isNamePart) stops, ?_⟩
          intro c start starts
          refine none c start (milder _ ?_ starts)
          have solid := isSpace_eq_false_of_isNamePart (isNamePart_of_isNameStart start)
          simp only [List.mem_cons, List.not_mem_nil, or_false, forall_eq_or_imp, forall_eq]
          exact ⟨by decide, solid⟩
      | cons c front =>
          rw [← h, List.cons_append]
          rw [List.cons_append] at ends
          by_cases slash : c = '\\'
          · subst slash
            cases front with
            | nil =>
                -- A backslash alone is no part of a name.
                cases text with
                | nil => simp [nameLength, isNamePart, isNameStart] at ends
                | cons d text =>
                    simp only [List.nil_append, nameLength] at ends
                    split at ends
                    · simp only [List.length_cons, List.length_nil] at ends
                      omega
                    · cases ends
            | cons d front =>
                simp only [List.cons_append, nameLength, List.length_cons] at ends h ⊢
                split at ends
                · rename_i start
                  rw [if_pos start, ih front.length (by omega) (by omega) rfl]
                · cases ends
          · rw [nameLength_cons slash] at ends ⊢
            simp only [List.length_cons] at ends h ⊢
            split at ends
            · rename_i part
              rw [if_pos part, ih front.length (by omega) (by omega) rfl]
            · cases ends

theorem numberLength_le (text : Text) : numberLength text ≤ text.length := by
  have whole := run_le (fun c => c.isAlphanum || c == '_') text
  unfold numberLength
  dsimp only
  split
  · rename_i c more behind
    split
    · have lengths := congrArg List.length behind
      have fraction := run_le numberLength.isFraction more
      simp only [List.length_drop, List.length_cons] at lengths
      omega
    · exact whole
  · exact whole

/-- The characters of a number before its fraction. -/
def isDigitPart (c : Char) : Bool :=
  c.isAlphanum || c == '_'

theorem run_append (test : Char → Bool) {front back : Text}
    (all : ∀ c ∈ front, test c = true) (stops : ∀ c ∈ back.head?, test c = false)
    : run test (front ++ back) = front.length :=
  run_append_iff.mpr ⟨all, stops⟩

/-- A text is the run at its start and the rest. -/
theorem exists_run (test : Char → Bool) (text : Text)
    : ∃ front back, text = front ++ back ∧ run test text = front.length
        ∧ text.drop front.length = back
        ∧ (∀ c ∈ front, test c = true) ∧ ∀ c ∈ back.head?, test c = false := by
  refine ⟨text.takeWhile test, text.dropWhile test, List.takeWhile_append_dropWhile.symm, rfl, ?_,
    fun c listed => List.mem_takeWhile_imp listed, fun c first => ?_⟩
  · nth_rewrite 2 [← List.takeWhile_append_dropWhile (p := test) (l := text)]
    rw [List.drop_left]
  · have stops := List.head?_dropWhile_not test text
    rw [Option.mem_def.mp first] at stops
    simpa using stops

/-- A number ends behind its digits, or behind a fraction. -/
theorem numberLength_append_iff {front back : Text}
    : numberLength (front ++ back) = front.length
      ↔ ((∀ c ∈ front, isDigitPart c = true) ∧ (∀ c ∈ back.head?, isDigitPart c = false)
          ∧ ∀ d, d.isDigit = true → ¬['.', d] <+: back)
        ∨ ∃ whole d fraction, front = whole ++ '.' :: d :: fraction
            ∧ (∀ c ∈ whole, isDigitPart c = true) ∧ d.isDigit = true
            ∧ (∀ c ∈ fraction, numberLength.isFraction c = true)
            ∧ ∀ c ∈ back.head?, numberLength.isFraction c = false := by
  obtain ⟨whole, behind, cut, length, dropped, all, stops⟩ :=
    exists_run isDigitPart (front ++ back)
  change run (fun c => c.isAlphanum || c == '_') (front ++ back) = whole.length at length
  constructor
  · intro ends
    unfold numberLength at ends
    simp only [length, dropped] at ends
    split at ends
    · rename_i d more
      split at ends
      · rename_i digit
        obtain ⟨fraction, rest, rfl, length', _, all', stops'⟩ :=
          exists_run numberLength.isFraction more
        rw [length'] at ends
        have parts : front = whole ++ '.' :: d :: fraction ∧ back = rest := by
          refine List.append_inj (cut.trans (by simp)) ?_
          simp only [List.length_append, List.length_cons]
          omega
        obtain ⟨rfl, rfl⟩ := parts
        exact .inr ⟨whole, d, fraction, rfl, all, digit, all', stops'⟩
      · rename_i other
        obtain ⟨rfl, rfl⟩ := List.append_inj cut ends.symm
        refine .inl ⟨all, stops, fun e digit starts => other ?_⟩
        have same := (List.cons_prefix_cons.mp (List.cons_prefix_cons.mp starts).2).1
        exact same ▸ digit
    · rename_i other
      obtain ⟨rfl, rfl⟩ := List.append_inj cut ends.symm
      refine .inl ⟨all, stops, ?_⟩
      rintro e _ ⟨rest, rfl⟩
      exact other e rest rfl
  · clear cut length dropped all stops
    rintro (⟨all, stops, none⟩ | ⟨whole, d, fraction, rfl, all, digit, all', stops'⟩)
    · have length := run_append isDigitPart all stops
      change run (fun c => c.isAlphanum || c == '_') (front ++ back) = front.length at length
      unfold numberLength
      simp only [length, List.drop_left]
      split
      · rename_i d more
        rw [if_neg (fun digit => none d digit ⟨more, rfl⟩)]
      · rfl
    · have apart : whole ++ '.' :: d :: fraction ++ back
          = whole ++ '.' :: d :: (fraction ++ back) := by simp
      have length : run isDigitPart (whole ++ '.' :: d :: (fraction ++ back)) = whole.length :=
        run_append isDigitPart all (by simp [isDigitPart])
      change run (fun c => c.isAlphanum || c == '_') _ = whole.length at length
      unfold numberLength
      rw [apart]
      simp only [length, List.drop_left, digit, if_true, run_append _ all' stops',
        List.length_append, List.length_cons]
      omega

theorem isSpace_eq_false_of_isDigit {c : Char} (digit : c.isDigit = true) : isSpace c = false :=
  isSpace_eq_false_of_isNamePart (by rw [isNamePart, digit, Bool.or_true])

theorem isSpace_eq_false_of_isNameStart {c : Char} (start : isNameStart c = true)
    : isSpace c = false :=
  isSpace_eq_false_of_isNamePart (isNamePart_of_isNameStart start)

theorem isSpace_eq_false_of_isFraction {c : Char} (part : numberLength.isFraction c = true)
    : isSpace c = false := by
  refine isSpace_eq_false_of_isNamePart ?_
  simp only [numberLength.isFraction, isNamePart, isNameStart, Bool.or_eq_true] at part ⊢
  tauto

theorem numberLength_stable {front text mild : Text}
    (ends : numberLength (front ++ text) = front.length) (milder : Milder text mild)
    : numberLength (front ++ mild) = front.length := by
  rw [numberLength_append_iff] at ends ⊢
  rcases ends with ⟨all, stops, none⟩ | ⟨whole, d, fraction, parts, all, digit, all', stops⟩
  · refine .inl ⟨all, milder.head ?_ stops, fun d digit starts => none d digit (milder _ ?_ starts)⟩
    · intro c part
      refine isSpace_eq_false_of_isNamePart ?_
      simp only [isDigitPart, Char.isAlphanum, isNamePart, isNameStart, Bool.or_eq_true] at part ⊢
      rcases part with (alpha | digit) | underscore
      · exact .inl (.inl (.inl alpha))
      · exact .inr digit
      · exact .inl (.inl (.inr underscore))
    · simp only [List.mem_cons, List.not_mem_nil, or_false, forall_eq_or_imp, forall_eq]
      exact ⟨by decide, isSpace_eq_false_of_isDigit digit⟩
  · refine .inr ⟨whole, d, fraction, parts, all, digit, all', milder.head ?_ stops⟩
    intro c part
    exact isSpace_eq_false_of_isFraction part

end Lexer

end ImportHeader
