import ImportHeader.Proofs.Parser.Run
import ImportHeader.Proofs.Reference.TypeText
import ImportHeader.Proofs.Text.Endings
import ImportHeader.Reference.Extraction

/-! Types in doc comments keep imports alive. Behind a tag of a doc comment, the first segment of
every relative name of a type is mentioned, so no import that binds it is unused.
-/

namespace ImportHeader

namespace DocType

variable {site : Site} {text rest : Text} {names : List Name}

-----------------------------------------------------------------------------------------
-- A line with a tag
-----------------------------------------------------------------------------------------

/-- A line of a comment with a tag, and behind it a type that ends at a blank, with the line or
with the comment.
-/
structure TypeLine (line : Text) where
  lead : Text
  tag : Text
  blanks : Text
  type : Text
  names : List Name
  rest : Text
  whole : line = lead ++ (tag ++ (blanks ++ (type ++ rest)))
  leads : ∀ c ∈ lead, (Text.isBlank c || c == '*' || c == '/') = true
  tagged : tag ∈ tags
  typed : tag ≠ "@method"
  spaced : blanks ≠ []
  blank : Text.allBlank blanks = true
  isType : IsType .outer type names
  ends : rest = [] ∨ (∃ c ∈ rest.head?, Text.isBlank c = true) ∨ rest = "*/"

/-- A tag has no blanks, and starts with none of the characters before it. -/
theorem visible_of_mem_tags {tag : Text} (tagged : tag ∈ tags)
    : (∀ c ∈ tag, (!Text.isBlank c) = true)
      ∧ ∃ c rest, tag = c :: rest ∧ (Text.isBlank c || c == '*' || c == '/') = false := by
  have all : (tags.all fun tag => tag.all (fun c => !Text.isBlank c)
      && tag.head?.any fun c => !(Text.isBlank c || c == '*' || c == '/')) = true := by decide
  obtain ⟨solid, first⟩ := Bool.and_eq_true_iff.mp (List.all_eq_true.mp all tag tagged)
  refine ⟨List.all_eq_true.mp solid, ?_⟩
  cases tag with
  | nil => cases first
  | cons c rest => exact ⟨c, rest, rfl, by simpa using first⟩

/-- A text that starts and ends with characters that are not blank. -/
def IsTrim (text : Text) : Prop :=
  (∃ c ∈ text.head?, Text.isBlank c = false) ∧ ∃ c ∈ text.getLast?, Text.isBlank c = false

theorem isTrim_singleton {c : Char} (visible : Text.isBlank c = false) : IsTrim [c] :=
  ⟨⟨c, rfl, visible⟩, c, rfl, visible⟩

theorem IsTrim.around {front back : Text} (starts : IsTrim front) (ends : IsTrim back)
    (middle : Text)
    : IsTrim (front ++ (middle ++ back)) := by
  obtain ⟨⟨c, first, visible⟩, _⟩ := starts
  obtain ⟨_, d, last, visible'⟩ := ends
  refine ⟨⟨c, ?_, visible⟩, d, ?_, visible'⟩
  · rw [List.head?_append, Option.mem_def.mp first]
    rfl
  · rw [List.getLast?_append, List.getLast?_append, Option.mem_def.mp last]
    rfl

theorem isTrim_display {name : Name} (isName : name.IsTypeName) (legible : name.isLegible = true)
    : IsTrim name.display := by
  obtain ⟨some, solid⟩ := Name.display_solid isName legible
  have visible : ∀ c ∈ name.display, Text.isBlank c = false := fun c listed =>
    (not_bracket_of_not_separates (solid c listed).1).2.2
  exact ⟨⟨_, List.head?_eq_some_head some, visible _ (List.head_mem some)⟩,
    _, List.getLast?_eq_some_getLast some, visible _ (List.getLast_mem some)⟩

theorem IsType.isTrim (isType : IsType site text names)
    (legible : ∀ name ∈ names, name.isLegible = true)
    : IsTrim text := by
  induction isType with
  | name _ isName => exact isTrim_display isName (legible _ List.mem_cons_self)
  | @nullable _ pad _ _ _ _ _ ih =>
      exact (isTrim_singleton (c := '?') (by decide)).around (ih legible) pad
  | @joined _ mark _ before behind _ _ _ _ _ _ _ _ _ ih ih' =>
      obtain ⟨here, later⟩ := List.forall_mem_append.mp legible
      have trim := (ih here).around (ih' later) (before ++ mark :: behind)
      rwa [List.append_assoc, List.cons_append] at trim
  | @list _ _ before pad _ _ _ _ _ ih =>
      have trim := (ih legible).around (isTrim_singleton (c := ']') (by decide))
        (before ++ '[' :: pad)
      rwa [List.append_assoc, List.cons_append] at trim
  | @group _ before text behind _ _ _ _ _ _ =>
      have trim := (isTrim_singleton (c := '(') (by decide)).around
        (isTrim_singleton (c := ')') (by decide)) (before ++ (text ++ behind))
      rwa [List.append_assoc, List.append_assoc] at trim
  | @generic _ name pad before text behind _ _ isName _ _ _ _ _ =>
      have trim := (isTrim_display isName (legible _ List.mem_cons_self)).around
        (isTrim_singleton (c := '>') (by decide)) (pad ++ '<' :: (before ++ (text ++ behind)))
      rwa [List.append_assoc, List.cons_append, List.append_assoc, List.append_assoc] at trim
  | argument _ ih => exact ih legible
  | @arguments _ before behind _ _ _ _ _ _ _ ih ih' =>
      obtain ⟨here, later⟩ := List.forall_mem_append.mp legible
      have trim := (ih here).around (ih' later) (before ++ ',' :: behind)
      rwa [List.append_assoc, List.cons_append] at trim

theorem splitWord?_append {word rest : Text} {c : Char}
    (solid : ∀ d ∈ word, (!Text.isBlank d) = true) (blank : Text.isBlank c = true)
    : splitWord? (word ++ c :: rest) = some (word, rest) := by
  have stops : (!Text.isBlank c) = false := by rw [blank]; rfl
  rw [splitWord?, List.dropWhile_append_of_pos solid, List.takeWhile_append_of_pos solid,
    List.dropWhile_cons_of_neg (by simp [stops]), List.takeWhile_cons_of_neg (by simp [stops]),
    List.append_nil]

theorem trimStart_append {blanks : Text} (blank : Text.allBlank blanks = true)
    (visible : ∃ c ∈ text.head?, Text.isBlank c = false) (rest : Text)
    : Text.trimStart (blanks ++ (text ++ rest)) = text ++ rest := by
  obtain ⟨c, isFirst, first⟩ := visible
  obtain ⟨text, rfl⟩ := List.head?_eq_some_iff.mp isFirst
  rw [Text.trimStart, List.dropWhile_append_of_pos (List.all_eq_true.mp blank), List.cons_append,
    List.dropWhile_cons_of_neg (by simp [first])]

namespace TypeLine

variable {line : Text}

/-- The type that is read behind the tag, with what is glued to it. -/
theorem mentionsInLine_eq (typeLine : TypeLine line)
    (legible : ∀ name ∈ typeLine.names, name.isLegible = true)
    : mentionsInLine line
      = namesIn (typeLine.type ++ typeExpression 0 typeLine.rest) := by
  obtain ⟨lead, tag, blanks, type, names, rest, rfl, leads, tagged, typed, spaced, blank, isType,
    _⟩ := typeLine
  obtain ⟨solid, c, word, rfl, first⟩ := visible_of_mem_tags tagged
  obtain ⟨b, blanks, rfl⟩ := List.exists_cons_of_ne_nil spaced
  obtain ⟨here, later⟩ := Bool.and_eq_true_iff.mp (show (_ && _) = true from blank)
  have content : (lead ++ (c :: word ++ (b :: blanks ++ (type ++ rest)))).dropWhile
        (fun c => Text.isBlank c || c == '*' || c == '/')
      = c :: word ++ (b :: blanks ++ (type ++ rest)) := by
    rw [List.dropWhile_append_of_pos leads, List.cons_append,
      List.dropWhile_cons_of_neg (by simp [first])]
  have behind : behindTag (c :: word) (blanks ++ (type ++ rest)) = type ++ rest := by
    rw [behindTag, if_neg typed]
    exact trimStart_append later (isType.isTrim legible).1 rest
  have split : splitWord? (c :: word ++ (b :: blanks ++ (type ++ rest)))
      = some (c :: word, blanks ++ (type ++ rest)) :=
    splitWord?_append solid here
  unfold mentionsInLine
  simp only [content, split]
  rw [if_pos (List.contains_iff_mem.mpr tagged), behind,
    isType.typeExpression_append legible (fun outer => absurd rfl outer)]

/-- A carriage return at the end of the line belongs to what stands behind the type. -/
theorem exists_withoutReturn (typeLine : TypeLine line)
    (legible : ∀ name ∈ typeLine.names, name.isLegible = true)
    : ∃ other : TypeLine line.withoutReturn,
        other.type = typeLine.type ∧ other.names = typeLine.names
        ∧ (other.rest = "*/" → typeLine.rest = "*/") := by
  by_cases return? : line.getLast? = some '\r'
  · obtain ⟨lead, tag, blanks, type, names, rest, rfl, leads, tagged, typed, spaced, blank, isType,
      ends⟩ := typeLine
    have last : (type ++ rest).getLast? = some '\r' := by
      have inside : type ++ rest ≠ [] := by
        obtain ⟨⟨c, first, _⟩, _⟩ := isType.isTrim legible
        intro empty
        rw [(List.append_eq_nil_iff.mp empty).1] at first
        cases first
      have outside : blanks ++ (type ++ rest) ≠ [] := by simp [inside]
      rwa [List.getLast?_append_of_ne_nil _ (by simp [outside]),
        List.getLast?_append_of_ne_nil _ outside,
        List.getLast?_append_of_ne_nil _ inside] at return?
    rcases ends with rfl | ⟨c, isFirst, first⟩ | rfl
    · -- A type does not end with a blank.
      obtain ⟨_, c, isLast, visible⟩ := isType.isTrim legible
      rw [List.append_nil, Option.mem_def.mp isLast] at last
      obtain rfl := Option.some.inj last
      exact absurd visible (by decide)
    · obtain ⟨rest, rfl⟩ := List.head?_eq_some_iff.mp isFirst
      rw [List.getLast?_append_of_ne_nil _ (List.cons_ne_nil c rest)] at last
      have shorter : Text.withoutReturn
            (lead ++ (tag ++ (blanks ++ (type ++ c :: rest))))
          = lead ++ (tag ++ (blanks ++ (type ++ (c :: rest).dropLast))) := by
        rw [Text.withoutReturn, if_pos return?, List.dropLast_append_of_ne_nil (by simp),
          List.dropLast_append_of_ne_nil (by simp), List.dropLast_append_of_ne_nil (by simp),
          List.dropLast_append_of_ne_nil (List.cons_ne_nil c rest)]
      refine ⟨⟨lead, tag, blanks, type, names, (c :: rest).dropLast, shorter, leads, tagged, typed,
        spaced, blank, isType, ?_⟩, rfl, rfl, ?_⟩
      · cases rest with
        | nil => exact .inl rfl
        | cons d rest => exact .inr (.inl ⟨c, rfl, first⟩)
      · intro closes
        cases rest with
        | nil => cases closes
        | cons d rest =>
            obtain rfl : c = '*' := (List.cons.inj closes).1
            exact absurd first (by decide)
    · rw [List.getLast?_append_of_ne_nil _ (by simp)] at last
      cases last
  · rw [Text.withoutReturn_of_ne return?]
    exact ⟨typeLine, rfl, rfl, id⟩

/-- What is glued to the type is nothing, or the end of the comment. -/
theorem typeExpression_rest (typeLine : TypeLine line)
    : typeExpression 0 typeLine.rest = []
      ∨ typeLine.rest = "*/" ∧ typeExpression 0 typeLine.rest = "*/".toList := by
  rcases typeLine.ends with none | ⟨c, isFirst, blank⟩ | closes
  · rw [none]
    exact .inl rfl
  · obtain ⟨rest, same⟩ := List.head?_eq_some_iff.mp isFirst
    obtain ⟨opened, closed⟩ := not_bracket_of_isBlank blank
    rw [same, typeExpression, if_neg (by simp [opened]), if_neg (by simp [closed]),
      if_pos (by simp [blank])]
    exact .inl rfl
  · rw [closes]
    exact .inr ⟨rfl, by decide⟩

/-- The first segment of each relative name of the type is found in the line. -/
theorem first_mem_mentionsInLine (typeLine : TypeLine line)
    (legible : ∀ name ∈ typeLine.names, name.isLegible = true)
    (free : typeLine.rest = "*/" → Frees typeLine.type typeLine.names)
    : ∀ name ∈ typeLine.names, name.form ≠ .fullyQualified
      → name.first ∈ mentionsInLine line.withoutReturn := by
  obtain ⟨other, type, names, closes⟩ := typeLine.exists_withoutReturn legible
  rw [← type, ← names] at free
  rw [← names] at legible ⊢
  rw [other.mentionsInLine_eq legible]
  refine (other.isType.divides legible).first_mem_namesIn ?_ ?_
  · rcases other.typeExpression_rest with none | ⟨_, end?⟩
    · rw [none]
      exact nofun
    · rw [end?]
      have plain : ∀ c : Char, c = '*' ∨ c = '/'
          → separates c = false ∧ c ≠ ':' ∧ c ≠ '\\' := by
        rintro c (rfl | rfl)
        · exact ⟨by decide, by decide, by decide⟩
        · exact ⟨by decide, by decide, by decide⟩
      exact fun c listed => plain c (by simpa using listed)
  · exact other.typeExpression_rest.imp_right fun ⟨closed, _⟩ => free (closes closed)

end TypeLine

end DocType

-----------------------------------------------------------------------------------------
-- The mentions of a file
-----------------------------------------------------------------------------------------

/-- A mentioned name is used, so no import that binds it is unused. -/
theorem Extraction.not_sameFolded_of_mem_mentions {extraction : Extraction} {segment : Text}
    (mentioned : segment ∈ extraction.mentions)
    : ∀ entry ∈ extraction.unusedImports, Text.sameFolded segment entry.bound = false := by
  intro entry listed
  have unused := (List.mem_filter.mp listed).2
  rw [Bool.not_eq_true', uses, Bool.or_eq_false_iff] at unused
  exact Bool.eq_false_iff.mpr (List.any_eq_false.mp unused.2 segment mentioned)

/-- Types in doc comments keep imports alive: behind a tag of a doc comment, the first segment of
every relative name of a type is mentioned, so no import that binds it is unused. The names of the
type are told from what surrounds them, and the end of the comment is not glued to a name of one
segment.
-/
theorem doc_types_keep_imports {source comment line : Text} {file : SourceFile}
    (parsed : parse source = .ok file)
    (listed
      : comment
        ∈ ((tokenize source).filter fun token => token.kind == .docComment).map Token.text)
    (within : line ∈ comment.lines) (typeLine : DocType.TypeLine line)
    (legible : ∀ name ∈ typeLine.names, name.isLegible = true)
    (free : typeLine.rest = "*/" → DocType.Frees typeLine.type typeLine.names)
    : ∀ name ∈ typeLine.names, name.form ≠ .fullyQualified
      → name.first ∈ file.extract.mentions
        ∧ ∀ entry ∈ file.extract.unusedImports,
            Text.sameFolded name.first entry.bound = false := by
  intro name among relative
  obtain ⟨_, docComments, _⟩ := parse_eq_ok parsed
  have found := typeLine.first_mem_mentionsInLine legible free name among relative
  have mentioned : name.first ∈ file.extract.mentions := by
    refine List.mem_append_right _ (List.mem_flatMap.mpr ⟨comment, ?_, ?_⟩)
    · rwa [docComments]
    · exact List.mem_flatMap.mpr ⟨line, within, found⟩
  exact ⟨mentioned, Extraction.not_sameFolded_of_mem_mentions mentioned⟩

/-- A generic type with a group inside, before a variable. -/
theorem doc_types_keep_imports_of_generic_type
    : ∃ source file comment line, ∃ typeLine : DocType.TypeLine line,
        source
          = ("<?php\nuse Lib\\Foo;\n\n"
            ++ "/** @param Map<Bar\\Key, (\\Root|foo)[]> $x\r\n */\nf();").toList
        ∧ parse source = .ok file
        ∧ comment
          ∈ ((tokenize source).filter fun token => token.kind == .docComment).map Token.text
        ∧ line ∈ comment.lines
        ∧ typeLine.names.map Name.display
          = ["Map".toList, "Bar\\Key".toList, "\\Root".toList, "foo".toList]
        ∧ ∀ name ∈ typeLine.names, name.form ≠ .fullyQualified
          → name.first ∈ file.extract.mentions
            ∧ ∀ entry ∈ file.extract.unusedImports,
                Text.sameFolded name.first entry.bound = false := by
  obtain ⟨source, written⟩ : ∃ source : Text, source
      = ("<?php\nuse Lib\\Foo;\n\n"
        ++ "/** @param Map<Bar\\Key, (\\Root|foo)[]> $x\r\n */\nf();").toList := ⟨_, rfl⟩
  obtain ⟨file, parsed, _⟩ : ∃ file, parse source = .ok file ∧ file.hasCode = true := by
    rw [written]
    exact exists_of_parses _ (by decide +kernel)
  let map : Name := ⟨["Map".toList], .unqualified⟩
  let key : Name := ⟨["Bar".toList, "Key".toList], .qualified⟩
  let root : Name := ⟨["Root".toList], .fullyQualified⟩
  let foo : Name := ⟨["foo".toList], .unqualified⟩
  have inner : DocType.Site.inner ≠ .listed := nofun
  have pads : DocType.Site.inner.Pads [] := rfl
  have isMap : map.IsTypeName := ⟨by decide, by decide, .inr rfl⟩
  have isKey : key.IsTypeName := ⟨by decide, by decide, .inr rfl⟩
  have isRoot : root.IsTypeName := ⟨by decide, by decide, .inl rfl⟩
  have isFoo : foo.IsTypeName := ⟨by decide, by decide, .inr rfl⟩
  have joined : DocType.IsType .inner "\\Root|foo".toList [root, foo] :=
    DocType.IsType.joined inner (.inl rfl) (.name inner isRoot) pads pads (.name inner isFoo)
  have group : DocType.IsType .inner "(\\Root|foo)[]".toList [root, foo] :=
    .list inner (.group inner pads joined pads) pads pads
  have arguments : DocType.IsType .listed "Bar\\Key, (\\Root|foo)[]".toList [key, root, foo] :=
    DocType.IsType.arguments (.name inner isKey) pads (rfl : DocType.Site.inner.Pads [' '])
      (.argument group)
  have type : DocType.IsType .outer "Map<Bar\\Key, (\\Root|foo)[]>".toList
      [map, key, root, foo] :=
    .generic (nofun : DocType.Site.outer ≠ .listed) isMap (rfl : DocType.Site.outer.Pads []) pads
      arguments pads
  let typeLine
      : DocType.TypeLine "/** @param Map<Bar\\Key, (\\Root|foo)[]> $x\r".toList :=
    ⟨"/** ".toList, "@param".toList, " ".toList, _, _, " $x\r".toList, by decide,
      List.all_eq_true.mp (by decide), by decide, by decide, by decide, by decide, type,
      .inr (.inl ⟨' ', rfl, by decide⟩)⟩
  let comment : Text := "/** @param Map<Bar\\Key, (\\Root|foo)[]> $x\r\n */".toList
  have listed : comment
      ∈ ((tokenize source).filter fun token => token.kind == .docComment).map Token.text := by
    rw [written]
    decide +kernel
  have within : "/** @param Map<Bar\\Key, (\\Root|foo)[]> $x\r".toList ∈ comment.lines := by
    decide +kernel
  have legible : ∀ name ∈ [map, key, root, foo], name.isLegible = true := by decide
  have apart : " $x\r".toList ≠ "*/".toList := by decide
  exact ⟨source, file, comment, _, typeLine, written, parsed, listed, within, rfl,
    doc_types_keep_imports parsed listed within typeLine legible (absurd · apart)⟩

/-- The end of a comment that is glued to a name hides it, so the import of a class that only the
comment names counts as unused.
-/
theorem glued_end_hides_type
    : ∃ source file comment line, ∃ typeLine : DocType.TypeLine line,
        source = "<?php\nuse Lib\\Foo;\n\n/** @var Foo*/\n$x = 1;\n".toList
        ∧ parse source = .ok file
        ∧ comment
          ∈ ((tokenize source).filter fun token => token.kind == .docComment).map Token.text
        ∧ line ∈ comment.lines
        ∧ typeLine.names = [⟨["Foo".toList], .unqualified⟩]
        ∧ "Foo".toList ∉ file.extract.mentions
        ∧ file.extract.unusedImports.map ImportEntry.bound = ["Foo".toList] := by
  obtain ⟨source, written⟩ : ∃ source : Text, source
      = "<?php\nuse Lib\\Foo;\n\n/** @var Foo*/\n$x = 1;\n".toList := ⟨_, rfl⟩
  obtain ⟨file, parsed, checked⟩ : ∃ file, parse source = .ok file
      ∧ (file.extract.mentions == ["Foo*/".toList]
        && file.extract.unusedImports.map ImportEntry.bound == ["Foo".toList]) = true := by
    rw [written]
    exact exists_of_parses _ (by decide +kernel)
  rw [Bool.and_eq_true, beq_iff_eq, beq_iff_eq] at checked
  obtain ⟨mentions, unused⟩ := checked
  let foo : Name := ⟨["Foo".toList], .unqualified⟩
  have isFoo : foo.IsTypeName := ⟨by decide, by decide, .inr rfl⟩
  let comment : Text := "/** @var Foo*/".toList
  let typeLine : DocType.TypeLine comment :=
    ⟨"/** ".toList, "@var".toList, " ".toList, foo.display, [foo], "*/".toList, by decide,
      List.all_eq_true.mp (by decide), by decide, by decide, by decide, by decide,
      .name nofun isFoo, .inr (.inr rfl)⟩
  refine ⟨source, file, comment, comment, typeLine, written, parsed, ?_, ?_, rfl, ?_, unused⟩
  · rw [written]
    decide +kernel
  · decide
  · rw [mentions]
    decide

end ImportHeader
