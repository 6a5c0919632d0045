import ImportHeader.Name
import ImportHeader.Proofs.Token.Seams

/-! Names that can be printed and read back. -/

namespace ImportHeader

/-- Whether a text is one identifier. -/
def Text.isIdentifier : Text → Bool
  | [] => false
  | c :: rest => Lexer.isNameStart c && rest.all Lexer.isNamePart

/-- Whether a name can be written: it has segments, and these are identifiers. -/
def Name.isSpelled (name : Name) : Bool :=
  !name.segments.isEmpty && name.segments.all Text.isIdentifier

/-- Whether a name can be printed: its segments are identifiers, and the first of several is not
the keyword of a relative name.
-/
def Name.isPrintable (name : Name) : Bool :=
  !name.segments.isEmpty && name.segments.all Text.isIdentifier
    && (name.length == 1 || !Text.sameFolded name.first "namespace")

namespace Lexer

theorem isNamePart_of_isIdentifier {text : Text} (identifier : text.isIdentifier = true)
    : ∀ c ∈ text, isNamePart c = true := by
  cases text with
  | nil => exact nofun
  | cons c rest =>
      obtain ⟨start, later⟩ := Bool.and_eq_true_iff.mp identifier
      intro d listed
      rcases List.mem_cons.mp listed with rfl | inside
      · exact isNamePart_of_isNameStart start
      · exact List.all_eq_true.mp later d inside

theorem not_mem_of_isIdentifier {text : Text} (identifier : text.isIdentifier = true) {c : Char}
    (other : isNamePart c = false)
    : c ∉ text := by
  intro listed
  rw [isNamePart_of_isIdentifier identifier c listed] at other
  cases other

/-- Identifiers, with backslashes between them. -/
def IsWritten (text : Text) : Prop :=
  ∃ segments, segments ≠ [] ∧ (∀ segment ∈ segments, Text.isIdentifier segment = true)
    ∧ text = List.intercalate ['\\'] segments

theorem nameLength_append {part text : Text} (inside : ∀ c ∈ part, isNamePart c = true)
    : nameLength (part ++ text) = part.length + nameLength text := by
  induction part with
  | nil => simp
  | cons c part ih =>
      have slash : c ≠ '\\' := by
        rintro rfl
        exact absurd (inside '\\' List.mem_cons_self) (by decide)
      rw [List.cons_append, nameLength_cons slash, if_pos (inside c List.mem_cons_self),
        ih fun d listed => inside d (List.mem_cons_of_mem _ listed), List.length_cons]
      omega

/-- A text that does not prolong a name. -/
def EndsName (text : Text) : Prop :=
  nameLength text = 0

theorem IsWritten.ne_nil {text : Text} (written : IsWritten text) : text ≠ [] := by
  obtain ⟨segments, some, identifiers, rfl⟩ := written
  obtain ⟨first, rest, rfl⟩ := List.exists_cons_of_ne_nil some
  have identifier := identifiers first List.mem_cons_self
  intro empty
  cases rest with
  | nil =>
      rw [List.intercalate_singleton] at empty
      rw [empty] at identifier
      cases identifier
  | cons second rest =>
      rw [List.intercalate_cons_cons] at empty
      simp at empty

/-- What is no part of a name is not in a written one, but for backslashes. -/
theorem IsWritten.not_mem {text : Text} (written : IsWritten text) {c : Char}
    (other : isNamePart c = false) (slash : c ≠ '\\')
    : c ∉ text := by
  obtain ⟨segments, -, identifiers, rfl⟩ := written
  have absent : ∀ segment ∈ segments, c ∉ segment := fun segment inside =>
    not_mem_of_isIdentifier (identifiers segment inside) other
  clear identifiers
  induction segments with
  | nil => simp
  | cons segment segments ih =>
      have later := ih fun other inside => absent other (List.mem_cons_of_mem _ inside)
      cases segments with
      | nil => simpa using absent segment List.mem_cons_self
      | cons next segments =>
          rw [List.intercalate_cons_cons]
          simp only [List.mem_append, List.mem_singleton, not_or]
          exact ⟨⟨absent segment List.mem_cons_self, slash⟩, later⟩

theorem exists_cons_of_isIdentifier {text : Text} (identifier : text.isIdentifier = true)
    : ∃ c rest, text = c :: rest ∧ isNameStart c = true ∧ ∀ d ∈ rest, isNamePart d = true := by
  cases text with
  | nil => cases identifier
  | cons c rest =>
      obtain ⟨start, later⟩ := Bool.and_eq_true_iff.mp identifier
      exact ⟨c, rest, rfl, start, List.all_eq_true.mp later⟩

theorem nameLength_intercalate {first : Text} {rest : List Text}
    (identifiers : ∀ segment ∈ first :: rest, Text.isIdentifier segment = true) {text : Text}
    (ends : EndsName text)
    : ∃ c front, List.intercalate ['\\'] (first :: rest) = c :: front ∧ isNameStart c = true
        ∧ nameLength (front ++ text) = front.length := by
  induction rest generalizing first with
  | nil =>
      obtain ⟨c, part, rfl, start, inside⟩ :=
        exists_cons_of_isIdentifier (identifiers first List.mem_cons_self)
      refine ⟨c, part, List.intercalate_singleton, start, ?_⟩
      rw [nameLength_append inside, ends, Nat.add_zero]
  | cons second rest ih =>
      obtain ⟨c, part, rfl, start, inside⟩ :=
        exists_cons_of_isIdentifier (identifiers first List.mem_cons_self)
      obtain ⟨d, front, same, start', length⟩ :=
        ih fun segment listed => identifiers segment (List.mem_cons_of_mem _ listed)
      refine ⟨c, part ++ '\\' :: d :: front, ?_, start, ?_⟩
      · rw [List.intercalate_cons_cons, same]
        simp
      · rw [List.append_assoc, nameLength_append inside, List.cons_append, List.cons_append,
          nameLength, if_pos start', length]
        simp

/-- A written name is one token before every text that does not prolong it. -/
theorem stands_of_isWritten {name text : Text} (written : IsWritten name) (ends : EndsName text)
    : Stands [(.name, name)] text := by
  obtain ⟨segments, some, identifiers, rfl⟩ := written
  obtain ⟨first, rest, rfl⟩ := List.exists_cons_of_ne_nil some
  obtain ⟨c, front, same, start, length⟩ := nameLength_intercalate identifiers ends
  rw [same]
  refine stands_cons.mpr ⟨?_, stands_nil⟩
  rw [joined_nil, List.nil_append]
  unfold munch
  rw [if_pos start, length]

theorem endsName_cons {c : Char} (other : isNamePart c = false) (slash : c ≠ '\\') (text : Text)
    : EndsName (c :: text) := by
  rw [EndsName, nameLength_cons slash, if_neg (by simp [other])]

theorem isWritten_of_isIdentifier {text : Text} (identifier : text.isIdentifier = true)
    : IsWritten text :=
  ⟨[text], List.cons_ne_nil _ _, by simpa using identifier, List.intercalate_singleton.symm⟩

/-- What continues a name is a part of it, by induction over the text. -/
theorem isWritten_append_take {part : Text} (identifier : part.isIdentifier = true) (rest : Text)
    : IsWritten (part ++ rest.take (nameLength rest)) := by
  fun_induction nameLength rest generalizing part with
  | case1 => simpa using isWritten_of_isIdentifier identifier
  | case2 c rest first ih =>
      have single : Text.isIdentifier [c] = true := Bool.and_eq_true_iff.mpr ⟨first, rfl⟩
      obtain ⟨segments, some, identifiers, same⟩ := ih single
      obtain ⟨next, segments, rfl⟩ := List.exists_cons_of_ne_nil some
      refine ⟨part :: next :: segments, List.cons_ne_nil _ _,
        List.forall_mem_cons.mpr ⟨identifier, identifiers⟩, ?_⟩
      rw [List.intercalate_cons_cons, ← same]
      simp
  | case3 => simpa using isWritten_of_isIdentifier identifier
  | case4 c rest _ inside ih =>
      have longer : (part ++ [c]).isIdentifier = true := by
        obtain ⟨d, body, rfl, first, all⟩ := exists_cons_of_isIdentifier identifier
        refine Bool.and_eq_true_iff.mpr ⟨first, List.all_eq_true.mpr fun e listed => ?_⟩
        rcases List.mem_append.mp listed with here | here
        · exact all e here
        · rwa [List.mem_singleton.mp here]
      have whole := ih longer
      rwa [List.append_assoc] at whole
  | case5 => simpa using isWritten_of_isIdentifier identifier

/-- A name token is a written name, with a leading backslash or without. -/
theorem isWritten_of_munch {c : Char} {rest : Text} (named : (munch c rest).1 = .name)
    : IsWritten (c :: rest.take (munch c rest).2)
      ∨ ∃ text, c :: rest.take (munch c rest).2 = '\\' :: text ∧ IsWritten text := by
  have single {d : Char} (first : isNameStart d = true) (more : Text)
      : IsWritten (d :: more.take (nameLength more)) := by
    have identifier : Text.isIdentifier [d] = true := Bool.and_eq_true_iff.mpr ⟨first, rfl⟩
    exact isWritten_append_take identifier more
  have starts := canStart_munch c rest
  rw [named] at starts
  rcases Bool.or_eq_true_iff.mp starts with first | slash
  · have munched : munch c rest = (.name, nameLength rest) := if_pos first
    rw [munched]
    exact .inl (single first rest)
  · obtain rfl : c = '\\' := eq_of_beq slash
    have munched : munch '\\' rest = prolonged isNameStart nameLength .name .backslash rest := rfl
    rw [munched] at named ⊢
    cases rest with
    | nil => cases named
    | cons d more =>
        rw [prolonged] at named ⊢
        split at named
        · rename_i first
          rw [if_pos first]
          exact .inr ⟨_, rfl, single first more⟩
        · cases named

end Lexer

namespace Name

open Lexer

variable {name : Name}

theorem isPrintable_iff
    : name.isPrintable = true
      ↔ name.segments ≠ [] ∧ (∀ segment ∈ name.segments, Text.isIdentifier segment = true)
        ∧ (name.segments.length = 1 ∨ Text.sameFolded name.first "namespace" = false) := by
  simp [isPrintable, length, and_assoc]

theorem isSpelled_iff
    : name.isSpelled = true
      ↔ name.segments ≠ [] ∧ ∀ segment ∈ name.segments, Text.isIdentifier segment = true := by
  simp [isSpelled]

theorem isSpelled_of_isPrintable (printable : name.isPrintable = true) : name.isSpelled = true :=
  (Bool.and_eq_true_iff.mp printable).1

theorem isWritten_joined (spelled : name.isSpelled = true) : IsWritten name.joined :=
  ⟨name.segments, (isSpelled_iff.mp spelled).1, (isSpelled_iff.mp spelled).2, rfl⟩

theorem imported_eq (printable : name.isPrintable = true)
    : name.imported = ⟨name.segments, plainForm name.segments⟩ := by
  obtain ⟨some, identifiers, _⟩ := isPrintable_iff.mp printable
  have full : name.segments.any List.isEmpty = false := by
    rw [List.any_eq_false]
    intro segment listed empty
    rw [List.isEmpty_iff.mp empty] at listed
    cases identifiers [] listed
  have some' : name.segments.isEmpty = false := by simpa using some
  rw [imported, ofSegments?, some', full]
  rfl

theorem segments_imported (name : Name) : name.imported.segments = name.segments := by
  unfold imported ofSegments?
  split <;> rfl

theorem joined_imported (name : Name) : name.imported.joined = name.joined := by
  rw [joined, segments_imported]
  rfl

theorem eq_of_toLower {c : Char} (same : c.toLower = '\\') : c = '\\' := by
  unfold Char.toLower at same
  split at same
  · rename_i upper
    have value := congrArg (fun d : Char => d.val.toNat) same
    have low : 65 ≤ c.val.toNat := UInt32.le_iff_toNat_le.mp upper.1
    have high : c.val.toNat ≤ 90 := UInt32.le_iff_toNat_le.mp upper.2
    simp only [UInt32.toNat_add] at value
    have sum : (c.val.toNat + 32) % 2 ^ 32 = 92 := value
    omega
  · exact same

theorem takeWhile_of_not_mem {front back : Text} (absent : '\\' ∉ front)
    : (front ++ '\\' :: back).takeWhile (· != '\\') = front := by
  rw [List.takeWhile_append_of_pos]
  · simp
  · intro c listed
    simp only [bne_iff_ne]
    rintro rfl
    exact absent listed

/-- The keyword of a relative name holds no backslash, in any letter case. -/
theorem not_mem_of_sameFolded {keyword : Text}
    (folded : Text.sameFolded keyword "namespace" = true)
    : '\\' ∉ keyword := by
  intro listed
  have inside : Char.toLower '\\' ∈ keyword.map Char.toLower := List.mem_map_of_mem listed
  rw [show keyword.map Char.toLower = _ from eq_of_beq folded] at inside
  exact absurd inside (by decide)

/-- A text that starts with the anchor of a relative name, in some letter case, is the keyword, a
backslash, and more.
-/
theorem exists_keyword_of_folded {text : Text}
    (folded : Text.sameFolded (text.take anchor.length) anchor = true)
    : ∃ keyword,
        text = keyword ++ '\\' :: text.drop anchor.length
        ∧ Text.sameFolded keyword "namespace" = true := by
  have lowered : (text.take anchor.length).map Char.toLower = "namespace".toList ++ ['\\'] :=
    eq_of_beq folded
  obtain ⟨keyword, slash, cut, keyword', slash'⟩ := List.map_eq_append_iff.mp lowered
  obtain ⟨d, none, rfl, lower, empty⟩ := List.map_eq_cons_iff.mp slash'
  obtain rfl := eq_of_toLower lower
  obtain rfl := List.map_eq_nil_iff.mp empty
  refine ⟨keyword, ?_, ?_⟩
  · conv => lhs; rw [← List.take_append_drop anchor.length text, cut]
    rw [List.append_assoc, List.singleton_append]
  · rw [Text.sameFolded, Text.lower, keyword']
    decide

/-- The anchor of a text that starts with no backslash is that of a relative name, or none. -/
theorem splitAnchor_of_head? {text : Text} (plain : text.head? ≠ some '\\')
    : splitAnchor text
      = if Text.sameFolded (text.take anchor.length) anchor then
          (some .relative, text.drop anchor.length)
        else
          (none, text) := by
  rw [splitAnchor]
  rintro behind rfl
  exact plain rfl

/-- A written name is split behind the keyword of a relative name only. -/
theorem splitAnchor_intercalate {first : Text} {rest : List Text}
    (identifiers : ∀ segment ∈ first :: rest, Text.isIdentifier segment = true)
    : splitAnchor (List.intercalate ['\\'] (first :: rest))
        = (none, List.intercalate ['\\'] (first :: rest))
      ∨ Text.sameFolded first "namespace" = true
        ∧ rest ≠ []
        ∧ splitAnchor (List.intercalate ['\\'] (first :: rest))
          = (some .relative, List.intercalate ['\\'] rest) := by
  have absent : '\\' ∉ first :=
    not_mem_of_isIdentifier (identifiers first List.mem_cons_self) (by decide)
  obtain ⟨c, front, head, isStart, _⟩ :=
    nameLength_intercalate identifiers (show EndsName [] from rfl)
  have solid : (c :: front).head? ≠ some '\\' := by
    rintro ⟨⟩
    cases isStart
  have split := splitAnchor_of_head? solid
  rw [head]
  cases folded : Text.sameFolded ((c :: front).take anchor.length) anchor with
  | false =>
      rw [folded] at split
      exact .inl split
  | true =>
      rw [folded, if_pos rfl] at split
      obtain ⟨keyword, whole, named⟩ := exists_keyword_of_folded folded
      generalize (c :: front).drop anchor.length = behind at split whole
      rw [← head] at whole
      cases rest with
      | nil =>
          rw [List.intercalate_singleton] at whole
          exact absurd (by rw [whole]; simp) absent
      | cons second rest =>
          have starts := congrArg (List.takeWhile (· != '\\')) whole
          rw [List.intercalate_cons_cons, List.append_assoc, List.singleton_append] at whole starts
          rw [takeWhile_of_not_mem absent,
            takeWhile_of_not_mem (not_mem_of_sameFolded named)] at starts
          subst starts
          have same := (List.cons.inj (List.append_cancel_left whole)).2
          exact .inr ⟨named, List.cons_ne_nil _ _, by rw [split, same]⟩

theorem splitAnchor_joined (printable : name.isPrintable = true)
    : splitAnchor name.joined = (none, name.joined) := by
  obtain ⟨some, identifiers, free⟩ := isPrintable_iff.mp printable
  obtain ⟨first, rest, segments⟩ := List.exists_cons_of_ne_nil some
  rw [joined, segments]
  rcases splitAnchor_intercalate (segments ▸ identifiers) with plain | ⟨keyword, several, _⟩
  · exact plain
  · rcases free with single | other
    · rw [segments] at single
      exact absurd (List.eq_nil_of_length_eq_zero (Nat.succ.inj single)) several
    · rw [Name.first, segments, List.headD_cons, keyword] at other
      cases other

theorem pieces_intercalate {segments : List Text} (some : segments ≠ [])
    (identifiers : ∀ segment ∈ segments, Text.isIdentifier segment = true)
    : Text.pieces '\\' (List.intercalate ['\\'] segments) = segments
      ∧ segments.any List.isEmpty = false := by
  refine ⟨?_, ?_⟩
  · rw [Text.pieces_eq_splitOn]
    refine List.splitOn_intercalate _ (fun segment listed => ?_) some
    exact not_mem_of_isIdentifier (identifiers segment listed) (by decide)
  · rw [List.any_eq_false]
    intro segment listed empty
    rw [List.isEmpty_iff.mp empty] at listed
    cases identifiers [] listed

/-- A written name, with a leading backslash or without, is read as one that can be written. -/
theorem exists_ofText? {text : Text} (written : IsWritten text)
    : (∃ name, ofText? text = some name ∧ name.isSpelled = true)
      ∧ ∃ name, ofText? ('\\' :: text) = some name ∧ name.isSpelled = true := by
  obtain ⟨segments, some, identifiers, rfl⟩ := written
  obtain ⟨parts, full⟩ := pieces_intercalate some identifiers
  refine ⟨?_, ⟨segments, .fullyQualified⟩, ?_, isSpelled_iff.mpr ⟨some, identifiers⟩⟩
  · obtain ⟨first, rest, rfl⟩ := List.exists_cons_of_ne_nil some
    rcases splitAnchor_intercalate identifiers with plain | ⟨_, several, split⟩
    · refine ⟨⟨first :: rest, plainForm (first :: rest)⟩, ?_, isSpelled_iff.mpr ⟨some, identifiers⟩⟩
      rw [ofText?, plain]
      simp only [parts, full, Bool.false_eq_true, if_false, Option.getD_none]
    · have identifiers' : ∀ segment ∈ rest, Text.isIdentifier segment = true :=
        fun segment listed => identifiers segment (List.mem_cons_of_mem _ listed)
      obtain ⟨parts', full'⟩ := pieces_intercalate several identifiers'
      refine ⟨⟨rest, .relative⟩, ?_, isSpelled_iff.mpr ⟨several, identifiers'⟩⟩
      rw [ofText?, split]
      simp only [parts', full', Bool.false_eq_true, if_false, Option.getD_some]
  · rw [ofText?, splitAnchor]
    simp only [parts, full, Bool.false_eq_true, if_false, Option.getD_some]

/-- A written name is read back. -/
theorem exists_ofText?_joined (spelled : name.isSpelled = true)
    : ∃ read, ofText? name.joined = some read := by
  obtain ⟨read, same, _⟩ := (exists_ofText? (isWritten_joined spelled)).1
  exact ⟨read, same⟩

/-- A printable name is read back, as it is imported. -/
theorem ofText?_joined (printable : name.isPrintable = true)
    : ofText? name.joined = some name.imported := by
  obtain ⟨some, identifiers, _⟩ := isPrintable_iff.mp printable
  obtain ⟨parts, full⟩ := pieces_intercalate some identifiers
  rw [ofText?, splitAnchor_joined printable]
  simp only [joined, parts, full, Bool.false_eq_true, if_false, Option.getD_none,
    imported_eq printable]

end Name

end ImportHeader
