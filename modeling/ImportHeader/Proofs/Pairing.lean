import Mathlib.Data.List.Forall2

/-! Lists whose members correspond one by one, cut and joined. -/

namespace ImportHeader

namespace Pairing

open List

variable {α β : Type} {related : α → β → Prop}

/-- Where the second list is cut, the first is. -/
theorem split_right {left : List α} {right right' : List β}
    (pairs : Forall₂ related left (right ++ right'))
    : ∃ first second, left = first ++ second ∧ Forall₂ related first right
        ∧ Forall₂ related second right' :=
  ⟨left.take right.length, left.drop right.length, (take_append_drop ..).symm,
    forall₂_take_append left right right' pairs, forall₂_drop_append left right right' pairs⟩

/-- Where the first list is cut, the second is. -/
theorem split {left left' : List α} {right : List β}
    (pairs : Forall₂ related (left ++ left') right)
    : ∃ first second, right = first ++ second ∧ Forall₂ related left first
        ∧ Forall₂ related left' second := by
  obtain ⟨first, second, same, start, rest⟩ := split_right pairs.flip
  exact ⟨first, second, same, start.flip, rest.flip⟩

/-- Each member of the first list has its partner. -/
theorem exists_right {left : List α} {right : List β} (pairs : Forall₂ related left right) {x : α}
    (listed : x ∈ left)
    : ∃ y ∈ right, related x y := by
  induction pairs with
  | nil => cases listed
  | @cons x' y _ right here _ ih =>
      rcases List.mem_cons.mp listed with rfl | later
      · exact ⟨y, List.mem_cons_self, here⟩
      · obtain ⟨z, inside, holds⟩ := ih later
        exact ⟨z, List.mem_cons_of_mem _ inside, holds⟩

/-- Each member of the second list has its partner. -/
theorem exists_left {left : List α} {right : List β} (pairs : Forall₂ related left right) {y : β}
    (listed : y ∈ right)
    : ∃ x ∈ left, related x y := by
  obtain ⟨x, inside, holds⟩ := exists_right pairs.flip listed
  exact ⟨x, inside, holds⟩

/-- What holds of the members of the first list in order holds of their partners. -/
theorem pairwise {before : α → α → Prop} {before' : β → β → Prop} {left : List α} {right : List β}
    (pairs : Forall₂ related left right)
    (carries : ∀ {x y x' y'}, related x x' → related y y' → before x y → before' x' y')
    (ordered : left.Pairwise before)
    : right.Pairwise before' := by
  induction pairs with
  | nil => exact .nil
  | cons here later ih =>
      obtain ⟨first, rest⟩ := pairwise_cons.mp ordered
      refine .cons (fun other listed => ?_) (ih rest)
      obtain ⟨x, inside, holds⟩ := exists_left later listed
      exact carries here holds (first x inside)

end Pairing

end ImportHeader
