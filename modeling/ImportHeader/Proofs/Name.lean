import ImportHeader.Name
import ImportHeader.Proofs.Text.Lines

/-! Names that were read from a text, and the order of names. The text of such a name, cut at its
backslashes, gives the segments back, so equal places in the order mean equal segments.
-/

namespace ImportHeader

-----------------------------------------------------------------------------------------
-- The order of texts and keys
-----------------------------------------------------------------------------------------

theorem compare_char_eq_lt {left right : Char} : compare left right = .lt ↔ left < right := by
  change compareOfLessAndEq left right = .lt ↔ left < right
  rw [compareOfLessAndEq]
  split
  · simp_all
  · split <;> simp_all

/-- Texts are compared character by character. -/
theorem Text.compare_eq_lt {left right : Text} : compare left right = .lt ↔ left < right := by
  induction left generalizing right with
  | nil =>
      cases right with
      | nil => decide
      | cons d right => simp [compare, List.compareLex]
  | cons c left ih =>
      cases right with
      | nil => simp [compare, List.compareLex]
      | cons d right =>
          rw [List.compare_cons_cons, Ordering.then_eq_lt, compare_char_eq_lt, ih,
            Std.LawfulEqOrd.compare_eq_iff_eq, List.cons_lt_cons_iff]

namespace SortKey

/-- Keys of which none comes first are the same. -/
theorem le_antisymm {left right : SortKey} (first : left.le right = true)
    (second : right.le left = true)
    : left = right := by
  rw [le_eq] at first second
  have same : compareLex (compareOn depth) (compareOn text) left right = .eq :=
    Std.OrientedCmp.isLE_antisymm first second
  obtain ⟨depths, texts⟩ := Ordering.then_eq_eq.mp same
  rw [SortKey.mk.injEq]
  exact ⟨Std.LawfulEqOrd.eq_of_compare depths, Std.LawfulEqOrd.eq_of_compare texts⟩

/-- The order of keys: by depth, then by text. -/
theorem le_iff {left right : SortKey}
    : left.le right = true
      ↔ left.depth < right.depth
        ∨ left.depth = right.depth ∧ (left.text < right.text ∨ left.text = right.text) := by
  rw [SortKey.le, Ordering.isLE_iff_eq_lt_or_eq_eq, Ordering.then_eq_lt, Ordering.then_eq_eq,
    Text.compare_eq_lt, Nat.compare_eq_lt, Std.LawfulEqOrd.compare_eq_iff_eq,
    Std.LawfulEqOrd.compare_eq_iff_eq, or_assoc, ← and_or_left]

/-- What is sorted by key has its keys in order. -/
theorem pairwise_mergeSort {α : Type} (key : α → SortKey) (xs : List α)
    : (xs.mergeSort fun left right => (key left).le (key right)).Pairwise
        fun left right => (key left).le (key right) = true :=
  List.pairwise_mergeSort
    (fun left middle right => le_trans (key left) (key middle) (key right))
    (fun left right => le_total (key left) (key right)) xs

end SortKey

-----------------------------------------------------------------------------------------
-- Names
-----------------------------------------------------------------------------------------

namespace Name

variable {left right name : Name}

/-- One name comes before another: it has fewer segments, or as many and the smaller text. -/
def Precedes (left right : Name) : Prop :=
  left.length < right.length ∨ left.length = right.length ∧ left.joined < right.joined

theorem Precedes.asymm (first : left.Precedes right) : ¬right.Precedes left := by
  rintro (shorter | ⟨same, smaller⟩)
  · rcases first with longer | ⟨same, _⟩ <;> omega
  · rcases first with longer | ⟨_, larger⟩
    · omega
    · exact List.lt_asymm larger smaller

/-- The order of names is that of their keys. -/
theorem le_sortKey_iff
    : left.sortKey.le right.sortKey = true
      ↔ left.Precedes right ∨ left.sortKey = right.sortKey := by
  rw [SortKey.le_iff, SortKey.mk.injEq, and_or_left, ← or_assoc]
  rfl

/-- A name with segments, none of which is empty or holds a backslash. -/
def IsProper (name : Name) : Prop :=
  name.segments ≠ [] ∧ ∀ segment ∈ name.segments, segment ≠ [] ∧ '\\' ∉ segment

/-- A name that some text spells. -/
def IsRead (name : Name) : Prop :=
  ∃ text, ofText? text = some name

theorem IsRead.isProper (read : name.IsRead) : name.IsProper := by
  obtain ⟨text, spelled⟩ := read
  refine ⟨segments_ne_nil_of_ofText? spelled, ?_⟩
  unfold ofText? at spelled
  dsimp only at spelled
  split at spelled
  · cases spelled
  · rename_i full
    cases spelled
    intro segment listed
    refine ⟨?_, Text.not_mem_of_mem_pieces listed⟩
    rintro rfl
    exact full (List.any_eq_true.mpr ⟨[], listed, rfl⟩)

/-- Proper names with the same text have the same segments. -/
theorem IsProper.segments_eq (proper : left.IsProper) (proper' : right.IsProper)
    (same : left.joined = right.joined)
    : left.segments = right.segments := by
  have cut {name : Name} (proper : name.IsProper) : name.joined.splitOn '\\' = name.segments :=
    List.splitOn_intercalate _ (fun segment listed => (proper.2 segment listed).2) proper.1
  rw [← cut proper, same, cut proper']

end Name

end ImportHeader
