import ImportHeader.Proofs.Token.Names
import ImportHeader.Reference.DocType

/-! Types as doc comments write them: names, joined and bracketed, with blanks inside brackets
only. The whole of such a type is read, and the first segment of each relative name in it is found.
-/

namespace ImportHeader

open ImportHeader.Lexer

-----------------------------------------------------------------------------------------
-- Names and types as they are written
-----------------------------------------------------------------------------------------

/-- A name in a type: identifiers with backslashes between them, and one before them if the name
starts at the root.
-/
structure Name.IsTypeName (name : Name) : Prop where
  some : name.segments ≠ []
  identifiers : ∀ segment ∈ name.segments, segment.isIdentifier = true
  form : name.form = .fullyQualified ∨ name.form = plainForm name.segments

/-- Whether the characters of a name are told from what surrounds it: none of them is blank, and a
relative name starts with a letter or an underscore.
-/
def Name.isLegible (name : Name) : Bool :=
  name.segments.all (fun segment => segment.all fun c => !Text.isBlank c)
    && (name.form == .fullyQualified
      || name.first.head?.any fun c => Text.isAlphabetic c || c == '_')

namespace DocType

/-- Where a type stands: outside of all brackets, inside of some, or with others as the arguments
of a generic type.
-/
inductive Site where
  | outer
  | inner
  | listed
deriving DecidableEq

/-- Blanks stand inside of brackets only. -/
def Site.Pads : Site → Text → Prop
  | .outer, pad => pad = []
  | _, pad => Text.allBlank pad = true

/-- A type as it is written at a site, and the names in it in order. -/
inductive IsType : Site → Text → List Name → Prop
  | name {site name} (single : site ≠ .listed) (isName : name.IsTypeName)
    : IsType site name.display [name]
  | nullable {site pad text names} (single : site ≠ .listed) (pads : site.Pads pad)
    (type : IsType site text names)
    : IsType site ('?' :: (pad ++ text)) names
  | joined {site mark left before behind right names others} (single : site ≠ .listed)
    (marks : mark = '|' ∨ mark = '&') (first : IsType site left names) (pads : site.Pads before)
    (pads' : site.Pads behind) (second : IsType site right others)
    : IsType site (left ++ (before ++ mark :: (behind ++ right))) (names ++ others)
  | list {site text before pad names} (single : site ≠ .listed) (type : IsType site text names)
    (pads : site.Pads before) (pads' : Site.inner.Pads pad)
    : IsType site (text ++ (before ++ '[' :: (pad ++ [']']))) names
  | group {site before text behind names} (single : site ≠ .listed)
    (pads : Site.inner.Pads before) (type : IsType .inner text names)
    (pads' : Site.inner.Pads behind)
    : IsType site ('(' :: (before ++ (text ++ (behind ++ [')'])))) names
  | generic {site name pad before text behind names} (single : site ≠ .listed)
    (isName : name.IsTypeName) (pads : site.Pads pad) (pads' : Site.inner.Pads before)
    (arguments : IsType .listed text names) (pads'' : Site.inner.Pads behind)
    : IsType site (name.display ++ (pad ++ '<' :: (before ++ (text ++ (behind ++ ['>'])))))
        (name :: names)
  | argument {text names} (type : IsType .inner text names) : IsType .listed text names
  | arguments {left before behind right names others} (first : IsType .inner left names)
    (pads : Site.inner.Pads before) (pads' : Site.inner.Pads behind)
    (second : IsType .listed right others)
    : IsType .listed (left ++ (before ++ ',' :: (behind ++ right))) (names ++ others)

-----------------------------------------------------------------------------------------
-- The characters of types
-----------------------------------------------------------------------------------------

/-- A bracket separates names, and is not blank. -/
theorem separates_of_bracket {c : Char} (bracket : opens c = true ∨ closes c = true)
    : separates c = true ∧ Text.isBlank c = false := by
  have brackets
      : ("<(\x7b[>)\x7d]".toList.all fun c => separates c && !Text.isBlank c) = true := by
    decide
  have listed : c ∈ "<(\x7b[>)\x7d]".toList := by
    rcases bracket with opened | closed
    · exact List.mem_append_left ">)\x7d]".toList (List.contains_iff_mem.mp opened)
    · exact List.mem_append_right "<(\x7b[".toList (List.contains_iff_mem.mp closed)
  have both := List.all_eq_true.mp brackets c listed
  rwa [Bool.and_eq_true, Bool.not_eq_true'] at both

theorem separates_of_isBlank {c : Char} (blank : Text.isBlank c = true) : separates c = true := by
  rw [separates, blank, Bool.or_true]

theorem not_bracket_of_isBlank {c : Char} (blank : Text.isBlank c = true)
    : opens c = false ∧ closes c = false := by
  refine ⟨Bool.eq_false_iff.mpr fun opened => ?_, Bool.eq_false_iff.mpr fun closed => ?_⟩
  · rw [(separates_of_bracket (.inl opened)).2] at blank
    cases blank
  · rw [(separates_of_bracket (.inr closed)).2] at blank
    cases blank

/-- A character that separates no names is no bracket. -/
theorem not_bracket_of_not_separates {c : Char} (plain : separates c = false)
    : opens c = false ∧ closes c = false ∧ Text.isBlank c = false := by
  refine ⟨?_, ?_, ?_⟩
  · refine Bool.eq_false_iff.mpr fun opened => ?_
    rw [(separates_of_bracket (.inl opened)).1] at plain
    cases plain
  · refine Bool.eq_false_iff.mpr fun closed => ?_
    rw [(separates_of_bracket (.inr closed)).1] at plain
    cases plain
  · exact (Bool.or_eq_false_iff.mp plain).2

theorem not_separates_of_isNamePart {c : Char} (part : isNamePart c = true)
    (visible : Text.isBlank c = false)
    : separates c = false := by
  have marks : ("|&<>,()[]\x7b\x7d?".toList.all fun c => !isNamePart c) = true := by decide
  refine Bool.or_eq_false_iff.mpr ⟨Bool.eq_false_iff.mpr fun mark => ?_, visible⟩
  have other := List.all_eq_true.mp marks c (List.contains_iff_mem.mp mark)
  rw [part] at other
  cases other

end DocType

namespace Name

variable {name : Name}

theorem isLegible_iff
    : name.isLegible = true
      ↔ (∀ segment ∈ name.segments, ∀ c ∈ segment, Text.isBlank c = false)
        ∧ (name.form = .fullyQualified
          ∨ ∃ c ∈ name.first.head?, (Text.isAlphabetic c || c == '_') = true) := by
  simp [isLegible, Option.any_eq_true]

theorem display_eq (isName : name.IsTypeName)
    : name.display = name.joined
      ∨ name.form = .fullyQualified ∧ name.display = '\\' :: name.joined := by
  unfold display
  rcases isName.form with form | form
  · rw [form]
    exact .inr ⟨rfl, rfl⟩
  · rw [form, plainForm]
    by_cases several : name.segments.length > 1
    · rw [if_pos several]
      exact .inl rfl
    · rw [if_neg several]
      exact .inl rfl

/-- The characters of a joined name are those of its segments, and backslashes. -/
theorem mem_joined {c : Char} (listed : c ∈ name.joined)
    : c = '\\' ∨ ∃ segment ∈ name.segments, c ∈ segment := by
  unfold joined at listed
  generalize name.segments = segments at listed ⊢
  induction segments with
  | nil => cases listed
  | cons segment segments ih =>
      cases segments with
      | nil =>
          rw [List.intercalate_singleton] at listed
          exact .inr ⟨segment, List.mem_cons_self, listed⟩
      | cons next segments =>
          rw [List.intercalate_cons_cons, List.mem_append, List.mem_append,
            List.mem_singleton] at listed
          rcases listed with (here | slash) | later
          · exact .inr ⟨segment, List.mem_cons_self, here⟩
          · exact .inl slash
          · exact (ih later).imp_right fun ⟨other, among, within⟩ =>
              ⟨other, List.mem_cons_of_mem _ among, within⟩

/-- No character of a legible name separates it from others, or ends it. -/
theorem display_solid (isName : name.IsTypeName) (legible : name.isLegible = true)
    : name.display ≠ []
      ∧ ∀ c ∈ name.display, DocType.separates c = false ∧ c ≠ ':' := by
  have inside : ∀ c ∈ name.joined, DocType.separates c = false ∧ c ≠ ':' := by
    intro c listed
    rcases mem_joined listed with rfl | ⟨segment, among, within⟩
    · exact ⟨by decide, by decide⟩
    · have part := isNamePart_of_isIdentifier (isName.identifiers segment among) c within
      refine ⟨DocType.not_separates_of_isNamePart part
        ((isLegible_iff.mp legible).1 segment among c within), ?_⟩
      rintro rfl
      exact absurd part (by decide)
  have some : name.joined ≠ [] := IsWritten.ne_nil ⟨_, isName.some, isName.identifiers, rfl⟩
  rcases display_eq isName with same | ⟨_, same⟩
  · rw [same]
    exact ⟨some, inside⟩
  · rw [same]
    exact ⟨List.cons_ne_nil _ _, List.forall_mem_cons.mpr ⟨⟨by decide, by decide⟩, inside⟩⟩

end Name

namespace DocType

-----------------------------------------------------------------------------------------
-- Where a type ends
-----------------------------------------------------------------------------------------

variable {site : Site} {text rest : Text} {names : List Name} {depth : Nat}

/-- Characters that are no brackets belong to a type, and blanks inside of brackets do. -/
theorem typeExpression_append_of_plain {part : Text}
    (plain
      : ∀ c ∈ part, opens c = false ∧ closes c = false ∧ (depth = 0 → Text.isBlank c = false))
    (rest : Text)
    : typeExpression depth (part ++ rest) = part ++ typeExpression depth rest := by
  induction part with
  | nil => rfl
  | cons c part ih =>
      obtain ⟨⟨opened, closed, visible⟩, later⟩ := List.forall_mem_cons.mp plain
      have goes : ¬(decide (depth = 0) && Text.isBlank c) = true := by
        intro ends
        obtain ⟨zero, blank⟩ := Bool.and_eq_true_iff.mp ends
        rw [visible (of_decide_eq_true zero)] at blank
        cases blank
      rw [List.cons_append, typeExpression, if_neg (by simp [opened]), if_neg (by simp [closed]),
        if_neg goes, ih later, List.cons_append]

theorem typeExpression_display {name : Name} (isName : name.IsTypeName)
    (legible : name.isLegible = true) (rest : Text)
    : typeExpression depth (name.display ++ rest) = name.display ++ typeExpression depth rest := by
  refine typeExpression_append_of_plain (fun c listed => ?_) rest
  obtain ⟨opened, closed, visible⟩ :=
    not_bracket_of_not_separates ((Name.display_solid isName legible).2 c listed).1
  exact ⟨opened, closed, fun _ => visible⟩

theorem Site.Pads.isBlank {pad : Text} (pads : site.Pads pad)
    : ∀ c ∈ pad, site ≠ .outer ∧ Text.isBlank c = true := by
  intro c listed
  cases site with
  | outer =>
      rw [show pad = [] from pads] at listed
      cases listed
  | inner => exact ⟨nofun, List.all_eq_true.mp pads c listed⟩
  | listed => exact ⟨nofun, List.all_eq_true.mp pads c listed⟩

theorem typeExpression_pad {pad : Text} (pads : site.Pads pad) (deep : site ≠ .outer → 0 < depth)
    (rest : Text)
    : typeExpression depth (pad ++ rest) = pad ++ typeExpression depth rest := by
  refine typeExpression_append_of_plain (fun c listed => ?_) rest
  obtain ⟨within, blank⟩ := pads.isBlank c listed
  obtain ⟨opened, closed⟩ := not_bracket_of_isBlank blank
  exact ⟨opened, closed, fun zero => absurd (deep within) (by omega)⟩

theorem typeExpression_mark {c : Char} (mark : c ∈ ['?', '|', '&', ',']) (rest : Text)
    : typeExpression depth (c :: rest) = c :: typeExpression depth rest := by
  have marks : (['?', '|', '&', ','].all fun c =>
      !opens c && !closes c && !Text.isBlank c) = true := by decide
  have other := List.all_eq_true.mp marks c mark
  simp only [Bool.and_eq_true, Bool.not_eq_true'] at other
  obtain ⟨⟨opened, closed⟩, visible⟩ := other
  have plain : ∀ d ∈ [c], opens d = false ∧ closes d = false
      ∧ (depth = 0 → Text.isBlank d = false) :=
    List.forall_mem_singleton.mpr ⟨opened, closed, fun _ => visible⟩
  exact typeExpression_append_of_plain plain rest

theorem typeExpression_opens {c : Char} (opened : opens c = true) (rest : Text)
    : typeExpression depth (c :: rest) = c :: typeExpression (depth + 1) rest := by
  rw [typeExpression, if_pos opened]

theorem typeExpression_closes {c : Char} (closed : closes c = true) (other : opens c = false)
    (rest : Text)
    : typeExpression (depth + 1) (c :: rest) = c :: typeExpression depth rest := by
  rw [typeExpression, if_neg (by simp [other]), if_pos closed, Nat.add_sub_cancel]

/-- A type belongs to the type expression that it starts. -/
theorem IsType.typeExpression_append (isType : IsType site text names)
    (legible : ∀ name ∈ names, name.isLegible = true) (deep : site ≠ .outer → 0 < depth)
    (rest : Text)
    : typeExpression depth (text ++ rest) = text ++ typeExpression depth rest := by
  have within {depth : Nat} : Site.inner ≠ .outer → 0 < depth + 1 := fun _ => Nat.succ_pos depth
  induction isType generalizing depth rest with
  | name _ isName => exact typeExpression_display isName (legible _ List.mem_cons_self) rest
  | nullable _ pads _ ih =>
      rw [List.cons_append, typeExpression_mark (by simp), List.append_assoc,
        typeExpression_pad pads deep, ih legible deep, List.cons_append, List.append_assoc]
  | @joined _ mark _ _ _ _ _ _ _ marks _ pads pads' _ ih ih' =>
      obtain ⟨here, later⟩ := List.forall_mem_append.mp legible
      have listed : mark ∈ ['?', '|', '&', ','] := by
        rcases marks with rfl | rfl
        · decide
        · decide
      simp only [List.append_assoc, List.cons_append]
      rw [ih here deep, typeExpression_pad pads deep, typeExpression_mark listed,
        typeExpression_pad pads' deep, ih' later deep]
  | list _ _ pads pads' ih =>
      simp only [List.append_assoc, List.cons_append, List.nil_append]
      rw [ih legible deep, typeExpression_pad pads deep, typeExpression_opens (by decide),
        typeExpression_pad pads' within, typeExpression_closes (by decide) (by decide)]
  | group _ pads _ pads' ih =>
      simp only [List.append_assoc, List.cons_append, List.nil_append]
      rw [typeExpression_opens (by decide), typeExpression_pad pads within, ih legible within,
        typeExpression_pad pads' within, typeExpression_closes (by decide) (by decide)]
  | generic _ isName pads pads' _ pads'' ih =>
      obtain ⟨here, later⟩ := List.forall_mem_cons.mp legible
      simp only [List.append_assoc, List.cons_append, List.nil_append]
      rw [typeExpression_display isName here, typeExpression_pad pads deep,
        typeExpression_opens (by decide), typeExpression_pad pads' within,
        ih later (fun _ => Nat.succ_pos depth), typeExpression_pad pads'' within,
        typeExpression_closes (by decide) (by decide)]
  | argument _ ih => exact ih legible (fun _ => deep nofun) rest
  | arguments _ pads pads' _ ih ih' =>
      obtain ⟨here, later⟩ := List.forall_mem_append.mp legible
      have inside : Site.inner ≠ .outer → 0 < depth := fun _ => deep nofun
      simp only [List.append_assoc, List.cons_append]
      rw [ih here inside, typeExpression_pad pads inside, typeExpression_mark (by simp),
        typeExpression_pad pads' inside, ih' later deep]

-----------------------------------------------------------------------------------------
-- The names between the separators
-----------------------------------------------------------------------------------------

/-- A text that holds the given names in order, with separators between them. -/
inductive Divides : Text → List Name → Prop
  | gap {text : Text} (gaps : ∀ c ∈ text, separates c = true) : Divides text []
  | name {gap rest : Text} {name : Name} {names : List Name}
    (gaps : ∀ c ∈ gap, separates c = true) (isName : name.IsTypeName)
    (legible : name.isLegible = true) (later : Divides rest names)
    (apart : ∀ c ∈ rest.head?, separates c = true)
    : Divides (gap ++ (name.display ++ rest)) (name :: names)

namespace Divides

theorem behind {gap : Text} (gaps : ∀ c ∈ gap, separates c = true) (divides : Divides text names)
    : Divides (gap ++ text) names := by
  cases divides with
  | gap others => exact .gap (List.forall_mem_append.mpr ⟨gaps, others⟩)
  | name others isName legible later apart =>
      rw [← List.append_assoc]
      exact .name (List.forall_mem_append.mpr ⟨gaps, others⟩) isName legible later apart

/-- Texts can be joined where the second one starts with a separator. -/
theorem append {others : List Name} (first : Divides text names) (second : Divides rest others)
    (apart : ∀ c ∈ rest.head?, separates c = true)
    : Divides (text ++ rest) (names ++ others) := by
  induction first with
  | gap gaps => exact second.behind gaps
  | @name gap within name names gaps isName legible _ before ih =>
      rw [List.append_assoc, List.append_assoc]
      refine .name gaps isName legible ih ?_
      cases within with
      | nil => exact apart
      | cons c within => exact before

theorem before {gap : Text} (divides : Divides text names) (gaps : ∀ c ∈ gap, separates c = true)
    : Divides (text ++ gap) names := by
  have both := divides.append (.gap gaps) fun c isFirst => gaps c (List.mem_of_head? isFirst)
  rwa [List.append_nil] at both

/-- Separators stand between two texts. -/
theorem between {gap : Text} {others : List Name} (first : Divides text names)
    (some : gap ≠ []) (gaps : ∀ c ∈ gap, separates c = true) (second : Divides rest others)
    : Divides (text ++ (gap ++ rest)) (names ++ others) := by
  refine first.append (second.behind gaps) fun c isFirst => ?_
  obtain ⟨d, gap, rfl⟩ := List.exists_cons_of_ne_nil some
  obtain rfl : d = c := Option.some.inj isFirst
  exact gaps d List.mem_cons_self

end Divides

theorem Site.Pads.separates {pad : Text} (pads : site.Pads pad)
    : ∀ c ∈ pad, DocType.separates c = true :=
  fun c listed => separates_of_isBlank (pads.isBlank c listed).2

/-- Blanks around a mark separate names. -/
theorem separates_marked {site' : Site} {before behind : Text} {mark : Char}
    (pads : site.Pads before) (separator : separates mark = true) (pads' : site'.Pads behind)
    : ∀ c ∈ before ++ mark :: behind, separates c = true :=
  List.forall_mem_append.mpr
    ⟨pads.separates, List.forall_mem_cons.mpr ⟨separator, pads'.separates⟩⟩

theorem divides_display {name : Name} (isName : name.IsTypeName) (legible : name.isLegible = true)
    : Divides name.display [name] := by
  have empty : Divides [] [] := .gap nofun
  have divides : Divides ([] ++ (name.display ++ [])) [name] :=
    .name nofun isName legible empty nofun
  rwa [List.append_nil, List.nil_append] at divides

/-- A mark with blanks around it joins two types. -/
theorem Divides.marked {site' : Site} {before behind : Text} {mark : Char} {others : List Name}
    (first : Divides text names) (pads : site.Pads before) (separator : separates mark = true)
    (pads' : site'.Pads behind) (second : Divides rest others)
    : Divides (text ++ (before ++ mark :: (behind ++ rest))) (names ++ others) := by
  rw [← List.cons_append, ← List.append_assoc before]
  exact first.between (by simp) (separates_marked pads separator pads') second

/-- The names of a type are the texts between its separators. -/
theorem IsType.divides (isType : IsType site text names)
    (legible : ∀ name ∈ names, name.isLegible = true)
    : Divides text names := by
  have closing {behind : Text} {mark : Char} (pads : Site.inner.Pads behind)
      (separator : separates mark = true)
      : ∀ c ∈ behind ++ [mark], separates c = true :=
    List.forall_mem_append.mpr ⟨pads.separates, List.forall_mem_singleton.mpr separator⟩
  induction isType with
  | name _ isName => exact divides_display isName (legible _ List.mem_cons_self)
  | nullable _ pads _ ih =>
      rw [← List.cons_append]
      exact (ih legible).behind (List.forall_mem_cons.mpr ⟨by decide, pads.separates⟩)
  | joined _ marks _ pads pads' _ ih ih' =>
      obtain ⟨here, later⟩ := List.forall_mem_append.mp legible
      refine (ih here).marked pads ?_ pads' (ih' later)
      rcases marks with rfl | rfl
      · decide
      · decide
  | list _ _ pads pads' ih =>
      refine (ih legible).before (List.forall_mem_append.mpr ⟨pads.separates, ?_⟩)
      exact List.forall_mem_cons.mpr ⟨by decide, closing pads' (by decide)⟩
  | group _ pads _ pads' ih =>
      rw [← List.cons_append]
      exact ((ih legible).before (closing pads' (by decide))).behind
        (List.forall_mem_cons.mpr ⟨by decide, pads.separates⟩)
  | generic _ isName pads pads' _ pads'' ih =>
      obtain ⟨here, later⟩ := List.forall_mem_cons.mp legible
      exact (divides_display isName here).marked pads (by decide) pads'
        ((ih later).before (closing pads'' (by decide)))
  | argument _ ih => exact ih legible
  | arguments _ pads pads' _ ih ih' =>
      obtain ⟨here, later⟩ := List.forall_mem_append.mp legible
      exact (ih here).marked pads (by decide) pads' (ih' later)

-----------------------------------------------------------------------------------------
-- The names that are found
-----------------------------------------------------------------------------------------

theorem cut?_of_not_mem {text : Text} (absent : ':' ∉ text) : Text.cut? "::" text = none := by
  induction text with
  | nil => rfl
  | cons c text ih =>
      obtain ⟨other, later⟩ := not_or.mp (mt List.mem_cons.mpr absent)
      have differs : Text.after? "::" (c :: text) = none := by
        refine if_neg fun starts => other ?_
        exact beq_iff_eq.mp (Bool.and_eq_true_iff.mp starts).1
      rw [Text.cut?, differs]
      exact congrArg (Option.map _) (ih later)

/-- The first segment of a relative name is found, also behind a glued text if another segment
stands between them.
-/
theorem firstSegment?_display {name : Name} {glued : Text} (isName : name.IsTypeName)
    (legible : name.isLegible = true) (relative : name.form ≠ .fullyQualified)
    (plain : ∀ c ∈ glued, c ≠ ':' ∧ c ≠ '\\') (free : glued = [] ∨ name.form ≠ .unqualified)
    : firstSegment? (name.display ++ glued) = some name.first := by
  have joined : name.display = name.joined :=
    (Name.display_eq isName).resolve_right fun rooted => relative rooted.1
  have absent : ':' ∉ name.display ++ glued := by
    intro listed
    rcases List.mem_append.mp listed with here | later
    · exact ((Name.display_solid isName legible).2 ':' here).2 rfl
    · exact (plain ':' later).1 rfl
  obtain ⟨first, others, segments⟩ := List.exists_cons_of_ne_nil isName.some
  have identifier : first.isIdentifier = true := isName.identifiers first (by simp [segments])
  obtain ⟨c, part, rfl, _, _⟩ := exists_cons_of_isIdentifier identifier
  have starts : (Text.isAlphabetic c || c == '_') = true := by
    obtain ⟨d, isFirst, letter⟩ := (Name.isLegible_iff.mp legible).2.resolve_left relative
    rw [Name.first, segments] at isFirst
    obtain rfl : c = d := Option.some.inj isFirst
    exact letter
  have slash : ∀ d ∈ c :: part, (d != '\\') = true := by
    intro d listed
    refine bne_iff_ne.mpr ?_
    rintro rfl
    exact not_mem_of_isIdentifier identifier (by decide) listed
  have whole : ∃ rest, name.display ++ glued = (c :: part) ++ rest
      ∧ rest.takeWhile (· != '\\') = [] := by
    rw [joined, Name.joined, segments]
    cases others with
    | nil =>
        refine ⟨glued, by rw [List.intercalate_singleton], ?_⟩
        rcases free with rfl | several
        · rfl
        · refine absurd ?_ several
          rw [isName.form.resolve_left relative, Name.plainForm, segments]
          rfl
    | cons second others =>
        refine ⟨'\\' :: (List.intercalate ['\\'] (second :: others) ++ glued), ?_, rfl⟩
        rw [List.intercalate_cons_cons]
        simp
  obtain ⟨rest, same, stops⟩ := whole
  have first : name.first = c :: part := by rw [Name.first, segments]; rfl
  rw [firstSegment?, cut?_of_not_mem absent]
  dsimp only
  rw [same, first, List.cons_append]
  dsimp only
  rw [if_pos starts, ← List.cons_append, List.takeWhile_append_of_pos slash, stops,
    List.append_nil]

/-- Separators before a text hold no names. -/
theorem namesIn_gap {gap : Text} (gaps : ∀ c ∈ gap, separates c = true) (text : Text)
    : namesIn (gap ++ text) = namesIn text := by
  induction gap with
  | nil => rfl
  | cons c gap ih =>
      obtain ⟨here, later⟩ := List.forall_mem_cons.mp gaps
      rw [List.cons_append, namesIn, Text.splitBy, if_pos here, List.filterMap_cons_none rfl]
      exact ih later

/-- A part without separators ends at the next separator. -/
theorem splitBy_part {part rest : Text} (solid : ∀ c ∈ part, separates c = false)
    (apart : ∀ c ∈ rest.head?, separates c = true)
    : Text.splitBy separates (part ++ rest) = part :: (Text.splitBy separates rest).tail := by
  induction part with
  | nil =>
      cases rest with
      | nil => rfl
      | cons c rest =>
          rw [List.nil_append, Text.splitBy, if_pos (apart c rfl)]
          rfl
  | cons c part ih =>
      obtain ⟨here, later⟩ := List.forall_mem_cons.mp solid
      rw [List.cons_append, Text.splitBy, if_neg (by simp [here]), ih later]

theorem namesIn_part {part rest : Text} (solid : ∀ c ∈ part, separates c = false)
    (apart : ∀ c ∈ rest.head?, separates c = true)
    : namesIn (part ++ rest) = (firstSegment? part).toList ++ namesIn rest := by
  have behind : ((Text.splitBy separates rest).tail).filterMap firstSegment? = namesIn rest := by
    cases rest with
    | nil => rfl
    | cons c rest =>
        rw [namesIn, Text.splitBy, if_pos (apart c rfl), List.filterMap_cons_none rfl]
        rfl
  rw [← behind, namesIn, splitBy_part solid apart, List.filterMap_cons]
  cases firstSegment? part with
  | none => rfl
  | some segment => rfl

/-- A text that ends so that what is glued to it belongs to no name of one segment. -/
def Frees (text : Text) (names : List Name) : Prop :=
  (∃ c ∈ text.getLast?, separates c = true) ∨ ∀ last ∈ names.getLast?, last.form ≠ .unqualified

/-- How a text ends is told by its end. -/
theorem Frees.of_append {front : Text} {name : Name} {c : Char}
    (frees : Frees (front ++ (text ++ c :: rest)) (name :: names))
    : Frees (c :: rest) names := by
  rcases frees with ⟨d, last, separator⟩ | several
  · rw [List.getLast?_append_of_ne_nil _ (by simp),
      List.getLast?_append_of_ne_nil _ (List.cons_ne_nil c rest)] at last
    exact .inl ⟨d, last, separator⟩
  · refine .inr fun last isLast => several last ?_
    rw [List.getLast?_cons, Option.mem_def.mp isLast]
    rfl

namespace Divides

theorem eq_nil (divides : Divides [] names) : names = [] := by
  generalize empty : ([] : Text) = text at divides
  cases divides with
  | gap => rfl
  | name _ isName legible =>
      obtain ⟨_, none⟩ := List.append_eq_nil_iff.mp empty.symm
      exact absurd (List.append_eq_nil_iff.mp none).1 (Name.display_solid isName legible).1

/-- The first segments of the relative names in a divided text are found. -/
theorem first_mem_namesIn {glued : Text} (divides : Divides text names)
    (plain : ∀ c ∈ glued, separates c = false ∧ c ≠ ':' ∧ c ≠ '\\')
    (frees : glued = [] ∨ Frees text names)
    : ∀ name ∈ names, name.form ≠ .fullyQualified → name.first ∈ namesIn (text ++ glued) := by
  induction divides with
  | gap => nofun
  | @name gap rest name names gaps isName legible later apart ih =>
      obtain ⟨some, solid⟩ := Name.display_solid isName legible
      rw [List.append_assoc, namesIn_gap gaps, List.append_assoc]
      cases rest with
      | nil =>
          -- What is glued stands directly behind the name.
          obtain rfl := later.eq_nil
          have free : glued = [] ∨ name.form ≠ .unqualified := by
            refine frees.imp_right fun ends => ?_
            rcases ends with ⟨c, last, separator⟩ | several
            · rw [List.append_nil, List.getLast?_append_of_ne_nil _ some] at last
              rw [(solid c (List.mem_of_getLast? last)).1] at separator
              cases separator
            · exact several name rfl
          intro other listed relative
          obtain rfl := List.mem_singleton.mp listed
          have whole : namesIn (other.display ++ glued)
              = (firstSegment? (other.display ++ glued)).toList ++ namesIn [] := by
            have joined : ∀ c ∈ other.display ++ glued, separates c = false :=
              List.forall_mem_append.mpr
                ⟨fun c inside => (solid c inside).1, fun c inside => (plain c inside).1⟩
            have parts := namesIn_part joined (nofun : ∀ c ∈ ([] : Text).head?, separates c = true)
            rwa [List.append_nil] at parts
          rw [List.nil_append, whole, firstSegment?_display isName legible relative
            (fun c inside => (plain c inside).2) free]
          exact List.mem_append_left _ (List.mem_singleton_self _)
      | cons c rest =>
          have free : glued = [] ∨ Frees (c :: rest) names := frees.imp_right Frees.of_append
          have first : ∀ d ∈ (c :: rest ++ glued).head?, separates d = true := apart
          have parts := namesIn_part (fun d inside => (solid d inside).1) first
          rw [parts]
          intro other listed relative
          rcases List.mem_cons.mp listed with rfl | among
          · have found := firstSegment?_display isName legible relative
              (nofun : ∀ d ∈ ([] : Text), d ≠ ':' ∧ d ≠ '\\') (.inl rfl)
            rw [List.append_nil] at found
            rw [found]
            exact List.mem_append_left _ (List.mem_singleton_self _)
          · exact List.mem_append_right _ (ih free other among relative)

end Divides

end DocType

end ImportHeader
