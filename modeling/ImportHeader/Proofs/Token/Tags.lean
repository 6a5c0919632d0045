import ImportHeader.Proofs.Token.Runs

/-! Where markup ends: at the first tag that opens code.
-/

namespace ImportHeader

namespace Lexer

theorem markupLength_le (text : Text) : markupLength text ≤ text.length := by
  fun_induction markupLength text with
  | case1 => exact Nat.le_refl 0
  | case2 => exact Nat.zero_le _
  | case3 c rest _ ih => simp only [List.length_cons]; omega

/-- The texts that open code. -/
def IsOpenTag (tag : Text) : Prop :=
  tag = "<?=".toList ∨ ∃ word, Text.lower word = "php".toList ∧ tag = '<' :: '?' :: word

theorem IsOpenTag.length_le {tag : Text} (isTag : IsOpenTag tag) : tag.length ≤ 5 := by
  rcases isTag with rfl | ⟨word, folded, rfl⟩
  · decide
  · have three : word.length = 3 := by simpa [Text.lower] using congrArg List.length folded
    simp [three]

theorem opensCode_iff {text : Text}
    : opensCode text = true ↔ ∃ tag, IsOpenTag tag ∧ tag <+: text := by
  constructor
  · intro opens
    unfold opensCode at opens
    split at opens
    · rename_i rest
      rcases Bool.or_eq_true_iff.mp opens with echo | folded
      · obtain ⟨behind, rfl⟩ := List.head?_eq_some_iff.mp (eq_of_beq echo)
        exact ⟨_, .inl rfl, ⟨behind, rfl⟩⟩
      · exact ⟨_, .inr ⟨rest.take 3, eq_of_beq folded, rfl⟩, ⟨rest.drop 3, by simp⟩⟩
    · cases opens
  · rintro ⟨tag, rfl | ⟨word, folded, rfl⟩, ⟨behind, rfl⟩⟩
    · rfl
    · have three : word.length = 3 := by simpa [Text.lower] using congrArg List.length folded
      have front : (word ++ behind).take 3 = word := by rw [← three, List.take_left]
      have same : Text.sameFolded word "php" = true := beq_iff_eq.mpr (folded.trans rfl)
      rw [List.cons_append, List.cons_append, opensCode, front, same, Bool.or_true]

theorem isSpace_eq_false_of_isOpenTag {tag : Text} (isTag : IsOpenTag tag)
    : ∀ c ∈ tag, isSpace c = false := by
  rcases isTag with rfl | ⟨word, folded, rfl⟩
  · simp [isSpace]
  · have solid : ∀ c ∈ word, isSpace c = false := by
      intro c listed
      have lower : c.toLower ∈ "php".toList := folded ▸ List.mem_map_of_mem listed
      by_contra space
      rw [Bool.not_eq_false, isSpace] at space
      simp only [Bool.or_eq_true, beq_iff_eq] at space
      rcases space with ((rfl | rfl) | rfl) | rfl <;> revert lower <;> decide
    simp only [List.mem_cons, forall_eq_or_imp]
    exact ⟨by decide, by decide, solid⟩

/-- Where code starts, it starts with the same characters in a text that prolongs more. -/
theorem opensCode_of_milder {text mild : Text} (milder : Milder text mild)
    (opens : opensCode mild = true)
    : opensCode text = true := by
  obtain ⟨tag, isTag, starts⟩ := opensCode_iff.mp opens
  exact opensCode_iff.mpr ⟨tag, isTag, milder tag (isSpace_eq_false_of_isOpenTag isTag) starts⟩

theorem markupLength_eq_zero_iff {text : Text}
    : markupLength text = 0 ↔ text = [] ∨ opensCode text = true := by
  cases text with
  | nil => simp [markupLength]
  | cons c rest =>
      rw [markupLength]
      split <;> simp_all

theorem markupLength_append {front text : Text}
    (ends : markupLength (front ++ text) = front.length)
    : text = [] ∨ opensCode text = true := by
  induction front with
  | nil => exact markupLength_eq_zero_iff.mp ends
  | cons c front ih =>
      rw [List.cons_append, markupLength] at ends
      split at ends
      · cases ends
      · exact ih (Nat.succ_inj.mp ends)

/-- Markup ends where code starts, or with the source. -/
theorem markupLength_stable {front text mild : Text}
    (opens : mild = [] ∨ opensCode mild = true) (milder : Milder text mild)
    (ends : markupLength (front ++ text) = front.length)
    : markupLength (front ++ mild) = front.length := by
  induction front with
  | nil => exact markupLength_eq_zero_iff.mpr opens
  | cons c front ih =>
      rw [List.cons_append, markupLength] at ends ⊢
      split at ends
      · cases ends
      · rename_i goes
        have goes' : ¬opensCode (c :: (front ++ mild)) = true :=
          fun opens => goes (opensCode_of_milder (milder.append (c :: front)) opens)
        rw [if_neg goes', ih (Nat.succ_inj.mp ends)]
        rfl

/-- Markup goes on over white space. -/
theorem markupLength_space {front : Text} {c : Char} (space : isSpace c = true)
    (ends : markupLength front = front.length)
    : markupLength (front ++ [c]) = front.length + 1 := by
  induction front with
  | nil =>
      have goes : ¬opensCode [c] = true := by
        intro opens
        cases opensCode_of_milder (milder_space [] space []) opens
      rw [List.nil_append, markupLength, if_neg goes]
      rfl
  | cons d front ih =>
      rw [markupLength] at ends
      split at ends
      · cases ends
      · rename_i goes
        have milder : Milder (d :: front ++ []) (d :: front ++ [c]) :=
          (milder_space [] space []).append (d :: front)
        rw [List.append_nil] at milder
        have goes' : ¬opensCode (d :: (front ++ [c])) = true :=
          fun opens => goes (opensCode_of_milder milder opens)
        rw [List.cons_append, markupLength, if_neg goes', ih (Nat.succ_inj.mp ends)]
        rfl

end Lexer

end ImportHeader
