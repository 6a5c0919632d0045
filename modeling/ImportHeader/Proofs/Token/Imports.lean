import ImportHeader.Printer
import ImportHeader.Proofs.Token.Blocks
import ImportHeader.Proofs.Token.Names

/-! Printed imports. An import whose names are identifiers is printed as one block, and the
lexer cuts it into the same pieces wherever it stands.
-/

namespace ImportHeader

open Lexer

/-- Whether the name of an item would be taken for the keyword of its kind. -/
def ImportItem.isAmbiguous (item : ImportItem) : Bool :=
  item.alias?.isSome && item.name.length == 1
    && (Text.sameFolded item.name.first "function" || Text.sameFolded item.name.first "const")

def ImportItem.isPrintable (item : ImportItem) : Bool :=
  item.name.isPrintable && item.alias?.all Text.isIdentifier

/-- The keyword that is printed before an item. -/
def ImportItem.keyword? (item : ImportItem) : Option Text :=
  item.kind?.bind ImportKind.keyword?

def ImportItem.isSpelled (item : ImportItem) : Bool :=
  item.name.isSpelled && item.alias?.all Text.isIdentifier

/-- Whether all names of an import can be written. -/
def Import.isSpelled (declaration : Import) : Bool :=
  declaration.items.all ImportItem.isSpelled && declaration.group?.all Name.isSpelled

/-- Whether a name of an import would be taken for the keyword of its kind. -/
def Import.isAmbiguous (declaration : Import) : Bool :=
  match declaration.group? with
  | some _ => declaration.items.any fun item => item.keyword?.isNone && item.isAmbiguous
  | none =>
      declaration.kind.keyword?.isNone && (declaration.items.take 1).any ImportItem.isAmbiguous

/-- Whether an import can be printed and read back. -/
def Import.isPrintable (declaration : Import) : Bool :=
  declaration.items.all ImportItem.isPrintable && declaration.group?.all Name.isPrintable
    && match declaration.group? with
      | some _ => declaration.items.all fun item => item.keyword?.isSome || !item.isAmbiguous
      | none =>
          declaration.kind.keyword?.isSome
            || (declaration.items.take 1).all fun item => !item.isAmbiguous

namespace Lexer

def word (text : Text) : Piece :=
  (.name, text)

def blank : Piece :=
  (.whitespace, [' '])

def keywordPieces : Option Text → List Piece
  | some text => [word text, blank]
  | none => []

def aliasPieces : Option Text → List Piece
  | some text => [blank, word "as", blank, word text]
  | none => []

def itemPieces (item : ImportItem) : List Piece :=
  keywordPieces item.keyword? ++ word item.name.joined :: aliasPieces item.alias?

def listPieces : List ImportItem → List Piece
  | [] => []
  | [item] => itemPieces item
  | item :: next :: rest => itemPieces item ++ (.comma, [',']) :: blank :: listPieces (next :: rest)

def namePieces (declaration : Import) : List Piece :=
  match declaration.group? with
  | some group =>
      word group.joined :: (.backslash, ['\\']) :: (.leftBrace, ['{'])
        :: (listPieces declaration.items ++ [(.rightBrace, ['}'])])
  | none => listPieces declaration.items

/-- The pieces of a printed import. -/
def importPieces (declaration : Import) : List Piece :=
  word "use" :: blank
    :: (keywordPieces declaration.kind.keyword?
      ++ (namePieces declaration ++ [(.semicolon, [';'])]))

theorem joined_itemPieces (item : ImportItem) : joined (itemPieces item) = item.print := by
  obtain ⟨name, alias?, kind?, span?⟩ := item
  unfold itemPieces ImportItem.print ImportItem.keyword?
  cases kind?.bind ImportKind.keyword? with
  | none =>
      cases alias? with
      | none => simp [keywordPieces, aliasPieces, word]
      | some text => simp [keywordPieces, aliasPieces, word, blank]
  | some keyword =>
      cases alias? with
      | none => simp [keywordPieces, aliasPieces, word, blank]
      | some text => simp [keywordPieces, aliasPieces, word, blank]

theorem joined_listPieces (items : List ImportItem)
    : joined (listPieces items) = List.intercalate ", ".toList (items.map ImportItem.print) := by
  fun_induction listPieces items with
  | case1 => rfl
  | case2 item =>
      rw [joined_itemPieces, List.map_singleton, List.intercalate_singleton]
  | case3 item next rest ih =>
      rw [joined_append, joined_itemPieces, joined_cons, joined_cons, ih]
      simp only [List.map_cons, List.intercalate_cons_cons, blank, List.append_assoc]
      rfl

theorem joined_importPieces (declaration : Import)
    : joined (importPieces declaration) = declaration.print := by
  obtain ⟨kind, group?, items⟩ := declaration
  have keyword : joined (keywordPieces kind.keyword?)
      = match kind.keyword? with
        | some word => word ++ [' ']
        | none => [] := by
    cases kind.keyword? with
    | none => rfl
    | some text => simp [keywordPieces, word, blank]
  have names : joined (namePieces ⟨kind, group?, items⟩)
      = match group? with
        | some group => group.joined ++ "\\\x7b"
            ++ List.intercalate ", ".toList (items.map ImportItem.print) ++ "\x7d"
        | none => List.intercalate ", ".toList (items.map ImportItem.print) := by
    cases group? with
    | none => exact joined_listPieces items
    | some group => simp [namePieces, joined_listPieces, word]
  rw [importPieces, joined_cons, joined_cons, joined_append, joined_append, keyword, names]
  simp only [Import.print, word, blank, joined_cons, joined_nil, List.append_assoc]
  rfl

theorem stands_append {left right : List Piece} {text : Text}
    (first : Stands left (joined right ++ text)) (second : Stands right text)
    : Stands (left ++ right) text := by
  unfold Stands at first second ⊢
  rw [joined_append, List.append_assoc, first, second, List.append_assoc]

theorem stands_cons_append {piece : Piece} {right : List Piece} {text : Text}
    (first : Stands [piece] (joined right ++ text)) (second : Stands right text)
    : Stands (piece :: right) text :=
  stands_append first second

/-- The marks behind an item of an import. -/
def EndsItem (text : Text) : Prop :=
  ∃ c rest, text = c :: rest ∧ c ∈ [',', ';', '}']

theorem EndsItem.endsName {text : Text} (ends : EndsItem text) : EndsName text := by
  obtain ⟨c, rest, rfl, mark⟩ := ends
  simp only [List.mem_cons, List.not_mem_nil, or_false] at mark
  rcases mark with rfl | rfl | rfl <;> exact endsName_cons (by decide) (by decide) rest

theorem endsName_blank (text : Text) : EndsName (' ' :: text) :=
  endsName_cons (by decide) (by decide) text

theorem stands_blank {text : Text} (solid : ∀ c ∈ text.head?, isSpace c = false)
    : Stands [blank] text := by
  refine stands_cons.mpr ⟨?_, stands_nil⟩
  rw [joined_nil, List.nil_append, List.nil_append, munch_space rfl]
  cases text with
  | nil => rfl
  | cons c rest => simp [run, solid c rfl]

theorem isWritten_keyword {keyword : Text} (identifier : keyword.isIdentifier = true) (text : Text)
    : Stands [word keyword] (' ' :: text) :=
  stands_of_isWritten (isWritten_of_isIdentifier identifier) (endsName_blank text)

theorem head?_of_isWritten {name text : Text} (written : IsWritten name)
    : ∀ c ∈ (name ++ text).head?, isSpace c = false := by
  obtain ⟨segments, some, identifiers, rfl⟩ := written
  obtain ⟨first, rest, rfl⟩ := List.exists_cons_of_ne_nil some
  obtain ⟨c, front, same, start, _⟩ := nameLength_intercalate identifiers (show EndsName [] from rfl)
  rw [same]
  intro d isHead
  obtain rfl : c = d := Option.some.inj isHead
  exact isSpace_eq_false_of_isNamePart (isNamePart_of_isNameStart start)

theorem isIdentifier_keyword {kind : ImportKind} {keyword : Text}
    (spelled : kind.keyword? = some keyword)
    : keyword.isIdentifier = true := by
  cases kind with
  | classLike => cases spelled
  | function =>
      obtain rfl := Option.some.inj spelled
      decide
  | const =>
      obtain rfl := Option.some.inj spelled
      decide

/-- A keyword and a blank stand before a written name. -/
theorem stands_keywordPieces {keyword? : Option Text}
    (identifier : ∀ keyword ∈ keyword?, keyword.isIdentifier = true) {text : Text}
    (solid : ∀ c ∈ text.head?, isSpace c = false)
    : Stands (keywordPieces keyword?) text := by
  cases keyword? with
  | none => exact stands_nil
  | some keyword =>
      exact stands_cons_append (isWritten_keyword (identifier keyword rfl) _) (stands_blank solid)

theorem stands_aliasPieces {alias? : Option Text}
    (identifier : ∀ text ∈ alias?, Text.isIdentifier text = true) {text : Text}
    (ends : EndsName text)
    : Stands (aliasPieces alias?) text ∧ EndsName (joined (aliasPieces alias?) ++ text) := by
  cases alias? with
  | none => exact ⟨stands_nil, ends⟩
  | some name =>
      have written := isWritten_of_isIdentifier (identifier name rfl)
      have keyword : IsWritten "as".toList := isWritten_of_isIdentifier (by decide)
      refine ⟨?_, endsName_blank _⟩
      have last : Stands [blank, word name] text := by
        refine stands_cons_append (stands_blank ?_) (stands_of_isWritten written ends)
        rw [joined_cons, joined_nil, List.append_nil]
        exact head?_of_isWritten written
      refine stands_cons_append (stands_blank ?_) (stands_cons_append
        (isWritten_keyword (by decide) _) last)
      rw [joined_cons, List.append_assoc]
      exact head?_of_isWritten keyword

variable {item : ImportItem} {items : List ImportItem} {declaration : Import}

theorem spelled_item (spelled : item.isSpelled = true)
    : item.name.isSpelled = true ∧ ∀ text ∈ item.alias?, Text.isIdentifier text = true := by
  obtain ⟨named, renamed⟩ := Bool.and_eq_true_iff.mp spelled
  refine ⟨named, fun text here => ?_⟩
  rwa [Option.mem_def.mp here] at renamed

theorem spelled_of_printable (printable : item.isPrintable = true) : item.isSpelled = true := by
  obtain ⟨named, renamed⟩ := Bool.and_eq_true_iff.mp printable
  exact Bool.and_eq_true_iff.mpr ⟨Name.isSpelled_of_isPrintable named, renamed⟩

theorem identifier_keyword? : ∀ keyword ∈ item.keyword?, Text.isIdentifier keyword = true := by
  intro keyword here
  obtain ⟨kind, _, spelled⟩ := Option.bind_eq_some_iff.mp here
  exact isIdentifier_keyword spelled

theorem stands_itemPieces (spelled : item.isSpelled = true) {text : Text}
    (ends : EndsItem text)
    : Stands (itemPieces item) text := by
  obtain ⟨named, renamed⟩ := spelled_item spelled
  have written := Name.isWritten_joined named
  obtain ⟨last, ends'⟩ := stands_aliasPieces renamed ends.endsName
  refine stands_append (stands_keywordPieces identifier_keyword? ?_)
    (stands_cons_append (stands_of_isWritten written ends') last)
  rw [joined_cons, List.append_assoc]
  exact head?_of_isWritten written

theorem head?_itemPieces (spelled : item.isSpelled = true) (text : Text)
    : ∀ c ∈ (joined (itemPieces item) ++ text).head?, isSpace c = false := by
  obtain ⟨named, _⟩ := spelled_item spelled
  unfold itemPieces
  cases spelled : item.keyword? with
  | none =>
      rw [keywordPieces, List.nil_append, joined_cons, List.append_assoc]
      exact head?_of_isWritten (Name.isWritten_joined named)
  | some keyword =>
      rw [keywordPieces, List.cons_append, joined_cons, List.append_assoc]
      exact head?_of_isWritten (isWritten_of_isIdentifier (identifier_keyword? keyword spelled))

theorem stands_listPieces (spelled : ∀ item ∈ items, item.isSpelled = true) {text : Text}
    (ends : EndsItem text)
    : Stands (listPieces items) text
      ∧ (items ≠ [] → ∀ c ∈ (joined (listPieces items) ++ text).head?, isSpace c = false) := by
  fun_induction listPieces items with
  | case1 => exact ⟨stands_nil, fun some => absurd rfl some⟩
  | case2 item =>
      have here := spelled item List.mem_cons_self
      exact ⟨stands_itemPieces here ends, fun _ => head?_itemPieces here text⟩
  | case3 item next rest ih =>
      have here := spelled item List.mem_cons_self
      obtain ⟨later, solid⟩ := ih fun other listed => spelled other (List.mem_cons_of_mem _ listed)
      refine ⟨?_, fun _ => ?_⟩
      · refine stands_append (stands_itemPieces here ⟨',', _, rfl, by simp⟩) ?_
        refine stands_cons_append (stands_cons.mpr ⟨rfl, stands_nil⟩) ?_
        exact stands_cons_append (stands_blank (solid (List.cons_ne_nil _ _))) later
      · rw [joined_append, List.append_assoc]
        exact head?_itemPieces here _

theorem spelled_import (spelled : declaration.isSpelled = true)
    : (∀ item ∈ declaration.items, item.isSpelled = true)
      ∧ (∀ group ∈ declaration.group?, group.isSpelled = true) := by
  obtain ⟨items, grouped⟩ := Bool.and_eq_true_iff.mp spelled
  refine ⟨List.all_eq_true.mp items, fun group here => ?_⟩
  rwa [Option.mem_def.mp here] at grouped

/-- What can be printed and read back can be written, and is not ambiguous. -/
theorem printable_import (printable : declaration.isPrintable = true)
    : declaration.isSpelled = true ∧ declaration.isAmbiguous = false := by
  obtain ⟨both, plain⟩ := Bool.and_eq_true_iff.mp printable
  obtain ⟨items, grouped⟩ := Bool.and_eq_true_iff.mp both
  refine ⟨Bool.and_eq_true_iff.mpr ⟨List.all_eq_true.mpr fun item listed => ?_, ?_⟩, ?_⟩
  · exact spelled_of_printable (List.all_eq_true.mp items item listed)
  · cases group : declaration.group? with
    | none => rfl
    | some name =>
        rw [group] at grouped
        exact Name.isSpelled_of_isPrintable grouped
  · unfold Import.isAmbiguous
    cases group : declaration.group? with
    | some name =>
        rw [group] at plain
        refine List.any_eq_false.mpr fun item listed => ?_
        have kept := List.all_eq_true.mp plain item listed
        cases keyed : item.keyword? <;> simp_all
    | none =>
        rw [group] at plain
        cases keyed : declaration.kind.keyword? with
        | some keyword => rfl
        | none =>
            rw [keyed] at plain
            refine List.any_eq_false.mpr fun item listed => ?_
            simpa using List.all_eq_true.mp plain item listed

/-- A printed import is cut into its pieces, whatever stands behind it. -/
theorem stands_importPieces (spelled : declaration.isSpelled = true)
    (some : declaration.group? = none → declaration.items ≠ []) (text : Text)
    : Stands (importPieces declaration) text := by
  obtain ⟨items, grouped⟩ := spelled_import spelled
  have final : Stands [(.semicolon, [';'])] text := stands_cons.mpr ⟨rfl, stands_nil⟩
  have identifier : ∀ keyword ∈ declaration.kind.keyword?, Text.isIdentifier keyword = true :=
    fun keyword spelled => isIdentifier_keyword spelled
  have ends : EndsItem (joined [(.semicolon, [';'])] ++ text) := ⟨';', text, rfl, by simp⟩
  have names : Stands (namePieces declaration) (joined [(.semicolon, [';'])] ++ text)
      ∧ ∀ c ∈ (joined (namePieces declaration) ++ (joined [(.semicolon, [';'])] ++ text)).head?,
          isSpace c = false := by
    unfold namePieces
    cases group : declaration.group? with
    | none =>
        obtain ⟨inside, solid⟩ := stands_listPieces items ends
        exact ⟨inside, solid (some group)⟩
    | some name =>
        have written := Name.isWritten_joined (grouped name group)
        refine ⟨?_, ?_⟩
        · refine stands_cons_append (stands_of_isWritten written ?_) (stands_cons_append
            (stands_cons.mpr ⟨rfl, stands_nil⟩) (stands_cons_append
              (stands_cons.mpr ⟨rfl, stands_nil⟩) (stands_append ?_
                (stands_cons.mpr ⟨rfl, stands_nil⟩))))
          · rfl
          · exact (stands_listPieces items ⟨'}', _, rfl, by simp⟩).1
        · rw [joined_cons, List.append_assoc]
          exact head?_of_isWritten written
  have tail : Stands (namePieces declaration ++ [(.semicolon, [';'])]) text :=
    stands_append names.1 final
  have solid : ∀ c ∈ (joined (namePieces declaration ++ [(.semicolon, [';'])]) ++ text).head?,
      isSpace c = false := by
    rw [joined_append, List.append_assoc]
    exact names.2
  refine stands_cons_append (isWritten_keyword (by decide) _) (stands_cons_append (stands_blank ?_)
    (stands_append (stands_keywordPieces identifier solid) tail))
  rw [joined_append, List.append_assoc]
  cases spelled : declaration.kind.keyword? with
  | none => exact solid
  | some keyword =>
      rw [keywordPieces, joined_cons, List.append_assoc]
      exact head?_of_isWritten (isWritten_of_isIdentifier (identifier keyword spelled))

theorem isBlock_importPieces (declaration : Import) : IsBlock (importPieces declaration) := by
  refine ⟨⟨_, _, rfl, rfl⟩, ?_⟩
  exact ⟨word "use" :: blank
    :: (keywordPieces declaration.kind.keyword? ++ namePieces declaration), (.semicolon, [';']),
    by simp [importPieces], rfl⟩

-----------------------------------------------------------------------------------------
-- Characters that are not printed
-----------------------------------------------------------------------------------------

/-- A character that no printed import and no printed opening of a namespace holds. -/
def isForeign (c : Char) : Bool :=
  !(isNamePart c || [' ', '\\', ',', ';', '{', '}'].contains c)

theorem isForeign_iff {c : Char}
    : isForeign c = true
      ↔ isNamePart c = false
        ∧ c ≠ ' ' ∧ c ≠ '\\' ∧ c ≠ ',' ∧ c ≠ ';' ∧ c ≠ '{' ∧ c ≠ '}' := by
  simp [isForeign]

theorem not_mem_joined {c : Char} {pieces : List Piece} (absent : ∀ piece ∈ pieces, c ∉ piece.2)
    : c ∉ joined pieces := by
  intro listed
  obtain ⟨piece, inside, here⟩ := List.mem_flatMap.mp listed
  exact absent piece inside here

variable {c : Char}

theorem not_mem_keywordPieces (foreign : isForeign c = true) {keyword? : Option Text}
    (identifier : ∀ keyword ∈ keyword?, Text.isIdentifier keyword = true)
    : ∀ piece ∈ keywordPieces keyword?, c ∉ piece.2 := by
  obtain ⟨other, space, _⟩ := isForeign_iff.mp foreign
  cases keyword? with
  | none => exact nofun
  | some keyword =>
      have absent : c ∉ keyword := not_mem_of_isIdentifier (identifier keyword rfl) other
      simp [keywordPieces, word, blank, absent, space]

theorem not_mem_itemPieces (foreign : isForeign c = true) (spelled : item.isSpelled = true)
    : ∀ piece ∈ itemPieces item, c ∉ piece.2 := by
  obtain ⟨other, space, slash, _⟩ := isForeign_iff.mp foreign
  obtain ⟨named, renamed⟩ := spelled_item spelled
  have written := (Name.isWritten_joined named).not_mem other slash
  have aliased : ∀ piece ∈ aliasPieces item.alias?, c ∉ piece.2 := by
    cases given : item.alias? with
    | none => exact nofun
    | some text =>
        have absent : c ∉ text := not_mem_of_isIdentifier (renamed text given) other
        have keyword : c ∉ "as".toList := not_mem_of_isIdentifier rfl other
        simp only [aliasPieces, word, blank, List.forall_mem_cons]
        exact ⟨by simp [space], keyword, by simp [space], absent, nofun⟩
  intro piece listed
  rcases List.mem_append.mp listed with here | here
  · exact not_mem_keywordPieces foreign identifier_keyword? piece here
  rcases List.mem_cons.mp here with rfl | here
  · exact written
  · exact aliased piece here

theorem not_mem_listPieces (foreign : isForeign c = true)
    (spelled : ∀ item ∈ items, item.isSpelled = true)
    : ∀ piece ∈ listPieces items, c ∉ piece.2 := by
  obtain ⟨_, space, _, comma, _⟩ := isForeign_iff.mp foreign
  fun_induction listPieces items with
  | case1 => exact nofun
  | case2 item => exact not_mem_itemPieces foreign (spelled item List.mem_cons_self)
  | case3 item next rest ih =>
      have first := not_mem_itemPieces foreign (spelled item List.mem_cons_self)
      have later := ih fun other listed => spelled other (List.mem_cons_of_mem _ listed)
      intro piece listed
      simp only [List.mem_append, List.mem_cons] at listed
      rcases listed with here | rfl | rfl | here
      · exact first piece here
      · simp [comma]
      · simp [blank, space]
      · exact later piece here

/-- A printed import holds no foreign character. -/
theorem not_mem_importPieces (foreign : isForeign c = true)
    (spelled : declaration.isSpelled = true)
    : c ∉ joined (importPieces declaration) := by
  obtain ⟨other, space, slash, _, semicolon, opening, closing⟩ := isForeign_iff.mp foreign
  obtain ⟨items, grouped⟩ := spelled_import spelled
  have inner := not_mem_listPieces foreign items
  have names : ∀ piece ∈ namePieces declaration, c ∉ piece.2 := by
    unfold namePieces
    cases group : declaration.group? with
    | none => exact inner
    | some name =>
        have written := (Name.isWritten_joined (grouped name group)).not_mem other slash
        intro piece listed
        simp only [List.mem_cons, List.mem_append, List.not_mem_nil, or_false] at listed
        rcases listed with rfl | rfl | rfl | here | rfl
        · exact written
        · simp [slash]
        · simp [opening]
        · exact inner piece here
        · simp [closing]
  have keyword : ∀ piece ∈ keywordPieces declaration.kind.keyword?, c ∉ piece.2 :=
    not_mem_keywordPieces foreign fun keyword spelled => isIdentifier_keyword spelled
  refine not_mem_joined fun piece listed => ?_
  simp only [importPieces, List.mem_cons, List.mem_append, List.not_mem_nil, or_false] at listed
  rcases listed with rfl | rfl | here | here | rfl
  · exact not_mem_of_isIdentifier rfl other
  · simp [blank, space]
  · exact keyword piece here
  · exact names piece here
  · simp [semicolon]

end Lexer

end ImportHeader
