import ImportHeader.Text.Position
import Mathlib.Data.List.Basic

/-! Byte offsets into a text that is cut into parts: the bytes between two cuts are a part, and
the line of a cut is the number of line feeds before it.
-/

namespace ImportHeader

namespace Text

@[simp] theorem size_nil : size [] = 0 :=
  rfl

@[simp] theorem size_cons (c : Char) (text : Text) : size (c :: text) = c.utf8Size + size text :=
  rfl

@[simp] theorem size_append (front back : Text) : size (front ++ back) = size front + size back := by
  induction front with
  | nil => simp
  | cons c front ih =>
      rw [List.cons_append, size_cons, size_cons, ih]
      omega

theorem size_pos {text : Text} (some : text ≠ []) : 0 < size text := by
  obtain ⟨c, rest, rfl⟩ := List.exists_cons_of_ne_nil some
  have one := c.utf8Size_pos
  rw [size_cons]
  omega

theorem utf8ByteSize_ofList (text : Text) : (String.ofList text).utf8ByteSize = text.size := by
  induction text with
  | nil => rfl
  | cons c text ih =>
      rw [← List.singleton_append, String.ofList_append, String.utf8ByteSize_append, ih]
      simp

/-- The end of a part of a text is a boundary of characters in the UTF-8 form of the text. -/
theorem isValid_append (front back : Text)
    : String.Pos.Raw.IsValid (String.ofList (front ++ back)) ⟨size front⟩ := by
  refine String.Pos.Raw.isValid_iff_exists_append.mpr
    ⟨String.ofList front, String.ofList back, String.ofList_append, ?_⟩
  rw [← utf8ByteSize_ofList]
  rfl

theorem dropBytes_append (front back : Text) : dropBytes (size front) (front ++ back) = back := by
  induction front with
  | nil =>
      cases back with
      | nil => rfl
      | cons c back =>
          have one := c.utf8Size_pos
          rw [List.nil_append, dropBytes, if_neg]
          rw [size_nil]
          omega
  | cons c front ih =>
      rw [List.cons_append, dropBytes, size_cons, if_pos (Nat.le_add_right _ _),
        Nat.add_sub_cancel_left, ih]

theorem takeBytes_append (front back : Text) : takeBytes (size front) (front ++ back) = front := by
  induction front with
  | nil =>
      cases back with
      | nil => rfl
      | cons c back =>
          have one := c.utf8Size_pos
          rw [List.nil_append, takeBytes, if_neg]
          rw [size_nil]
          omega
  | cons c front ih =>
      rw [List.cons_append, takeBytes, size_cons, if_pos (Nat.le_add_right _ _),
        Nat.add_sub_cancel_left, ih]

/-- The bytes between two cuts. -/
theorem slice_append (front middle back : Text)
    : slice (front ++ middle ++ back) (size front) (size front + size middle) = middle := by
  rw [slice, Nat.add_sub_cancel_left, List.append_assoc, dropBytes_append, takeBytes_append]

end Text

namespace LineIndex

theorem startsAfter_append (offset : Nat) (front back : Text)
    : startsAfter offset (front ++ back)
      = startsAfter offset front ++ startsAfter (offset + Text.size front) back := by
  induction front generalizing offset with
  | nil => simp [startsAfter]
  | cons c front ih =>
      simp only [List.cons_append, startsAfter, ih, Text.size_cons, Nat.add_assoc]
      split <;> rfl

theorem length_startsAfter (offset : Nat) (text : Text)
    : (startsAfter offset text).length = text.count '\n' := by
  induction text generalizing offset with
  | nil => rfl
  | cons c rest ih =>
      rw [startsAfter, List.count_cons]
      split
      · rename_i line
        simp [line, ih]
      · rename_i line
        simp [line, ih]

theorem startsAfter_bounds {offset : Nat} {text : Text} {start : Nat}
    (listed : start ∈ startsAfter offset text)
    : offset < start ∧ start ≤ offset + Text.size text := by
  induction text generalizing offset with
  | nil => cases listed
  | cons c rest ih =>
      have one := c.utf8Size_pos
      have later {start : Nat} (listed : start ∈ startsAfter (offset + c.utf8Size) rest)
          (ih : start ∈ startsAfter (offset + c.utf8Size) rest
            → offset + c.utf8Size < start ∧ start ≤ offset + c.utf8Size + Text.size rest)
          : offset < start ∧ start ≤ offset + Text.size (c :: rest) := by
        have bounds := ih listed
        rw [Text.size_cons]
        omega
      rw [startsAfter] at listed
      split at listed
      · rcases List.mem_cons.mp listed with rfl | more
        · rw [Text.size_cons]
          omega
        · exact later more ih
      · exact later listed ih

/-- The line of an offset is the number of line feeds before it. -/
theorem lineAt_eq_count (text : Text) (offset : Nat)
    : (ofText text).lineAt offset = (Text.takeBytes offset text).count '\n' := by
  suffices later : ∀ base, ((startsAfter base text).takeWhile (· ≤ base + offset)).length
      = (Text.takeBytes offset text).count '\n' by
    have zero := later 0
    rw [Nat.zero_add] at zero
    unfold lineAt ofText
    rw [List.takeWhile_cons_of_pos (by simp), List.length_cons, Nat.add_sub_cancel, zero]
  intro base
  induction text generalizing base offset with
  | nil => rfl
  | cons c rest ih =>
      by_cases fits : c.utf8Size ≤ offset
      · have here := ih (offset - c.utf8Size) (base + c.utf8Size)
        rw [Nat.add_assoc, Nat.add_sub_cancel' fits] at here
        rw [startsAfter, Text.takeBytes, if_pos fits, List.count_cons]
        split
        · rename_i line
          rw [List.takeWhile_cons_of_pos (by simpa using fits), List.length_cons, here]
          simp [line]
        · rename_i line
          simpa [line] using here
      · have one := c.utf8Size_pos
        have beyond : ∀ start ∈ startsAfter base (c :: rest), ¬start ≤ base + offset := by
          intro start listed
          have next : base + c.utf8Size ≤ start := by
            rw [startsAfter] at listed
            split at listed
            · rcases List.mem_cons.mp listed with rfl | more
              · exact Nat.le_refl _
              · exact Nat.le_of_lt (startsAfter_bounds more).1
            · exact Nat.le_of_lt (startsAfter_bounds listed).1
          omega
        rw [Text.takeBytes, if_neg fits]
        cases starts : startsAfter base (c :: rest) with
        | nil => rfl
        | cons start others =>
            have more := beyond start (starts ▸ List.mem_cons_self)
            rw [List.takeWhile_cons_of_neg (by simpa using more)]
            rfl

/-- The last byte of a part that does not end with a line feed stands on the line that the line
feeds of the part count.
-/
theorem lineAt_of_append {front back : Text} {c : Char} (other : c ≠ '\n')
    : (ofText (front ++ c :: back)).lineAt (Text.size front + c.utf8Size - 1)
      = front.count '\n' := by
  have one := c.utf8Size_pos
  unfold lineAt ofText
  have starts : startsAfter 0 (front ++ c :: back)
      = startsAfter 0 front ++ startsAfter (Text.size front + c.utf8Size) back := by
    rw [startsAfter_append, startsAfter, if_neg other, Nat.zero_add]
  have within : ∀ start ∈ 0 :: startsAfter 0 front,
      decide (start ≤ Text.size front + c.utf8Size - 1) = true := by
    intro start listed
    rcases List.mem_cons.mp listed with rfl | later
    · simp
    · have bounds := startsAfter_bounds later
      rw [decide_eq_true_eq]
      omega
  have beyond : (startsAfter (Text.size front + c.utf8Size) back).takeWhile
      (fun start => decide (start ≤ Text.size front + c.utf8Size - 1)) = [] := by
    cases more : startsAfter (Text.size front + c.utf8Size) back with
    | nil => rfl
    | cons start others =>
        have bounds : Text.size front + c.utf8Size < start :=
          (startsAfter_bounds (more ▸ List.mem_cons_self)).1
        rw [List.takeWhile_cons_of_neg]
        rw [decide_eq_true_eq]
        omega
  rw [starts, ← List.cons_append, List.takeWhile_append_of_pos within, beyond, List.append_nil,
    List.length_cons, length_startsAfter]
  rfl

/-- The line on which a part of a text ends, if it does not end with a line feed. -/
theorem endLine_of_append {front middle back : Text} {c : Char}
    (last : middle.getLast? = some c) (other : c ≠ '\n')
    : (ofText (front ++ middle ++ back)).endLine ⟨Text.size front, Text.size front + Text.size middle⟩
      = (front ++ middle).count '\n' := by
  obtain ⟨start, rfl⟩ := List.getLast?_eq_some_iff.mp last
  have one := c.utf8Size_pos
  have some : 0 < Text.size (start ++ [c]) := Text.size_pos (by simp)
  rw [endLine, if_neg (by simp; omega)]
  have line : (ofText (front ++ start ++ c :: back)).lineAt _ = _ := lineAt_of_append other
  simp only [Text.size_append, Text.size_cons, Text.size_nil, List.append_assoc, List.cons_append,
    List.nil_append, List.count_append, List.count_cons, List.count_nil] at line ⊢
  rw [← Nat.add_assoc, Nat.add_zero, line]
  simp [other]

end LineIndex

end ImportHeader
