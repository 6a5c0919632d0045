import ImportHeader.Text.Position
import Mathlib.Data.List.Basic

/-! Positions by line and column are ordered as the offsets that they stand for, so different
offsets have different positions.
-/

namespace ImportHeader

/-- A position on an earlier line, or further left on the same one. -/
def Position.Before (left right : Position) : Prop :=
  left.line < right.line ∨ left.line = right.line ∧ left.column < right.column

instance (left right : Position) : Decidable (left.Before right) :=
  inferInstanceAs (Decidable (_ ∨ _))

namespace Position.Before

variable {left middle right : Position}

theorem asymm (before : left.Before right) : ¬right.Before left := by
  unfold Before at *
  omega

theorem ne (before : left.Before right) : left ≠ right := by
  rintro rfl
  exact before.asymm before

theorem trans (first : left.Before middle) (second : middle.Before right) : left.Before right := by
  unfold Before at *
  omega

end Position.Before

namespace LineIndex

variable {text : Text} {offset later : Nat}

/-- The lines that start before an offset start before each later one. -/
theorem takeWhile_prefix_of_le (starts : List Nat) (le : offset ≤ later)
    : starts.takeWhile (· ≤ offset) <+: starts.takeWhile (· ≤ later) := by
  induction starts with
  | nil => exact List.prefix_refl _
  | cons start rest ih =>
      by_cases here : start ≤ offset
      · rw [List.takeWhile_cons_of_pos (by simpa using here),
          List.takeWhile_cons_of_pos (by simpa using Nat.le_trans here le)]
        exact List.cons_prefix_cons.mpr ⟨rfl, ih⟩
      · rw [List.takeWhile_cons_of_neg (by simpa using here)]
        exact List.nil_prefix

theorem lineAt_mono (index : LineIndex) (le : offset ≤ later)
    : index.lineAt offset ≤ index.lineAt later :=
  Nat.sub_le_sub_right (takeWhile_prefix_of_le index.starts le).length_le 1

/-- The last of the lines that do not start behind an offset does not either. -/
theorem getD_takeWhile_le (start : Nat) (rest : List Nat) (le : start ≤ offset)
    : (start :: rest).getD (((start :: rest).takeWhile (· ≤ offset)).length - 1) 0 ≤ offset := by
  induction rest generalizing start with
  | nil =>
      rw [List.takeWhile_cons_of_pos (by simpa using le)]
      exact le
  | cons next rest ih =>
      rw [List.takeWhile_cons_of_pos (by simpa using le), List.length_cons, Nat.add_sub_cancel]
      by_cases more : next ≤ offset
      · have last := ih next more
        rw [List.takeWhile_cons_of_pos (by simpa using more), List.length_cons,
          Nat.add_sub_cancel] at last
        rw [List.takeWhile_cons_of_pos (by simpa using more), List.length_cons,
          List.getD_cons_succ]
        exact last
      · rw [List.takeWhile_cons_of_neg (by simpa using more)]
        exact le

/-- A later offset has a later position. -/
theorem positionAt_before (text : Text) (less : offset < later)
    : ((ofText text).positionAt offset).Before ((ofText text).positionAt later) := by
  rcases Nat.lt_or_eq_of_le ((ofText text).lineAt_mono (Nat.le_of_lt less)) with line | line
  · exact .inl line
  · refine .inr ⟨line, ?_⟩
    have start := getD_takeWhile_le 0 (startsAfter 0 text) (Nat.zero_le offset)
    change offset - (ofText text).starts.getD ((ofText text).lineAt offset) 0
      < later - (ofText text).starts.getD ((ofText text).lineAt later) 0
    rw [← line]
    exact Nat.sub_lt_sub_right start less

theorem positionAt_injective (text : Text) : Function.Injective (ofText text).positionAt := by
  intro left right same
  rcases Nat.lt_trichotomy left right with less | equal | less
  · exact absurd same (positionAt_before text less).ne
  · exact equal
  · exact absurd same.symm (positionAt_before text less).ne

end LineIndex

end ImportHeader
