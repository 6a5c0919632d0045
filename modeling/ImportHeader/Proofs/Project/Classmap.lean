import ImportHeader.Project.Classmap
import ImportHeader.Proofs.Token.Imports
import ImportHeader.Proofs.Token.Lossless

/-! Class maps as a generator writes them: a returned array with one quoted class name and one path
below the base or the vendor directory for each entry. The reader takes apart what is written, in
any layout and whatever stands in the quoted texts.
-/

namespace ImportHeader

namespace Classmap

open Lexer

-----------------------------------------------------------------------------------------
-- The written form
-----------------------------------------------------------------------------------------

/-- A text with a backslash before each backslash and each single quote. -/
def escape : Text → Text
  | [] => []
  | c :: rest => if c = '\\' ∨ c = '\'' then '\\' :: c :: escape rest else c :: escape rest

/-- A text between single quotes. -/
def quoted (text : Text) : Text :=
  '\'' :: (escape text ++ ['\''])

/-- An entry of a class map: a class as its key spells it, and a path that starts with a slash and
stands below the base or the vendor directory.
-/
structure Entry where
  key : Text
  name : Name
  inVendor : Bool
  below : Text
  named : Name.ofText? key = some name
  rooted : below.head? = some '/'

namespace Entry

/-- The variable that an entry names its directory by. -/
def directory (entry : Entry) : Text :=
  if entry.inVendor then "$vendorDir" else "$baseDir"

/-- The words of an entry. -/
def words (entry : Entry) : List Text :=
  [quoted entry.key, "=>", entry.directory, ['.'], quoted entry.below, [',']]

/-- The directory of an entry. -/
def base (entry : Entry) (root : Path) : Path :=
  if entry.inVendor then root.join ⟨"vendor"⟩ else root

/-- The path that an entry stands for. -/
def path (entry : Entry) (root : Path) : Path :=
  (entry.base root).join ⟨entry.below.dropWhile (· == '/')⟩

end Entry

/-- The words of an array in the long or in the short form. -/
def arrayWords (long : Bool) (entries : List Entry) : List Text :=
  (if long then ["array".toList, ['(']] else [['[']])
    ++ (entries.flatMap Entry.words ++ [if long then [')'] else [']'], [';']])

/-- Words with any white space behind each. -/
inductive Spaced : List Text → Text → Prop
  | nil : Spaced [] []
  | cons {word gap text : Text} {words : List Text} (space : ∀ c ∈ gap, isSpace c = true)
      (rest : Spaced words text)
    : Spaced (word :: words) (word ++ (gap ++ text))

/-- A class map of some entries: an open tag and a returned array. -/
def IsMap (entries : List Entry) (source : Text) : Prop :=
  ∃ long gap gap' body,
    source = "<?php".toList ++ (gap ++ ("return".toList ++ (gap' ++ body)))
      ∧ (∀ c ∈ gap, isSpace c = true) ∧ (∀ c ∈ gap', isSpace c = true) ∧ gap' ≠ []
      ∧ Spaced (arrayWords long entries) body

-----------------------------------------------------------------------------------------
-- Quoted texts
-----------------------------------------------------------------------------------------

theorem unescape_cons {c : Char} (other : c ≠ '\\') (rest : Text)
    : unescape (c :: rest) = c :: unescape rest := by
  rw [unescape]
  · exact fun _ same => absurd same other
  · exact fun _ same => absurd same other
  · exact fun _ _ same => absurd same other

theorem unescape_escape (text : Text) : unescape (escape text) = text := by
  induction text with
  | nil => rfl
  | cons c rest ih =>
      rw [escape]
      split
      · rename_i special
        rcases special with rfl | rfl
        · rw [unescape, ih]
        · rw [unescape, ih]
      · rename_i plain
        rw [unescape_cons (fun same => plain (.inl same)), ih]

/-- The reader takes the quotes off that the writer puts on. -/
theorem unquote_quoted (text : Text) : unquote (quoted text) = text := by
  unfold unquote quoted
  simp [isQuote, unescape_escape]

/-- A quoted text ends with its own quote, whatever it holds and whatever follows. -/
theorem quotedLength_escape (text rest : Text)
    : quotedLength '\'' (escape text ++ '\'' :: rest) = (true, (escape text).length + 1) := by
  induction text with
  | nil => rfl
  | cons c text ih =>
      rw [escape]
      split
      · rw [List.cons_append, List.cons_append, quotedLength, ih]
        rfl
      · rename_i plain
        rw [List.cons_append, quotedLength_cons _ _ _ fun same => plain (.inl same),
          if_neg fun same => plain (.inr same), ih]
        rfl

theorem stands_quoted (text rest : Text) : Stands [(.string, quoted text)] rest := by
  refine stands_cons.mpr ⟨?_, stands_nil⟩
  rw [joined_nil, List.nil_append, List.append_assoc]
  change quotation '\'' (escape text ++ '\'' :: rest) = _
  rw [quotation, quotedLength_escape, List.length_append]
  rfl

-----------------------------------------------------------------------------------------
-- The tokens of a class map
-----------------------------------------------------------------------------------------

/-- The tokens of an entry. -/
def Entry.pieces (entry : Entry) : List Piece :=
  [(.string, quoted entry.key), (.fatArrow, "=>".toList), (.variable, entry.directory),
    (.operator, ['.']), (.string, quoted entry.below), (.comma, [','])]

/-- The tokens of an array up to its entries. -/
def openingPieces (long : Bool) : List Piece :=
  if long then [(.name, "array".toList), (.leftParen, ['('])] else [(.leftBracket, ['['])]

/-- The tokens of an array behind its entries. -/
def closingPieces (long : Bool) : List Piece :=
  [if long then (.rightParen, [')']) else (.rightBracket, [']']), (.semicolon, [';'])]

variable {gap text body source : Text} {words : List Text} {piece : Piece}

theorem solids_space (space : ∀ c ∈ gap, isSpace c = true)
    : solids (cut (gap ++ text)) = solids (cut text) := by
  induction gap with
  | nil => rfl
  | cons c gap ih =>
      rw [← ih fun d listed => space d (List.mem_cons_of_mem _ listed)]
      have first := space c List.mem_cons_self
      -- White space that follows is in the same token, so the rest is cut in another place.
      have run : solids (cut ((gap ++ text).drop (run isSpace (gap ++ text))))
          = solids (cut (gap ++ text)) := by
        cases more : gap ++ text with
        | nil => rfl
        | cons d rest =>
            cases also : isSpace d with
            | false => simp [Lexer.run, also]
            | true =>
                rw [cut_cons d rest, munch_space also]
                simp [Lexer.run, also, solids, Piece.isTrivia, TokenKind.isTrivia]
      rw [List.cons_append, cut_cons, munch_space first, ← run]
      rfl

/-- A word that stands where it is written is a token, and the white space behind it is none. -/
theorem solids_word (stands : Stands [piece] (gap ++ text)) (solid : piece.isTrivia = false)
    (space : ∀ c ∈ gap, isSpace c = true)
    : solids (cut (piece.2 ++ (gap ++ text))) = piece :: solids (cut text) := by
  have same : cut (piece.2 ++ (gap ++ text)) = piece :: cut (gap ++ text) := by
    simpa [Stands] using stands
  rw [same, ← solids_space space]
  simp [solids, solid]

/-- White space does not continue what a word behind it does not continue. -/
theorem ends_gap {test : Char → Bool} (solid : ∀ c, isSpace c = true → test c = false)
    (space : ∀ c ∈ gap, isSpace c = true) (ends : ∀ c ∈ text.head?, test c = false)
    : ∀ c ∈ (gap ++ text).head?, test c = false := by
  cases gap with
  | nil => exact ends
  | cons d gap =>
      intro c first
      obtain rfl := Option.some.inj first
      exact solid d (space d List.mem_cons_self)

theorem isNamePart_of_isSpace {c : Char} (space : isSpace c = true) : isNamePart c = false := by
  by_contra part
  rw [Bool.not_eq_false] at part
  rw [isSpace_eq_false_of_isNamePart part] at space
  cases space

/-- A word that is read as one token before all that can follow it. -/
theorem Spaced.exists_rest {word : Text} (spaced : Spaced (word :: words) text) (kind : TokenKind)
    (solid : kind.isTrivia = false)
    (stands : ∀ gap rest, (∀ c ∈ gap, isSpace c = true) → Spaced words rest
      → Stands [(kind, word)] (gap ++ rest))
    : ∃ rest, Spaced words rest ∧ solids (cut text) = (kind, word) :: solids (cut rest) := by
  cases spaced with
  | @cons _ gap rest _ space spaced =>
      exact ⟨rest, spaced, solids_word (stands gap rest space spaced) solid space⟩

/-- A mark is a token before every text. -/
theorem stands_mark {kind : TokenKind} {c : Char} (munched : ∀ rest, munch c rest = (kind, 0))
    (rest : Text)
    : Stands [(kind, [c])] rest :=
  stands_cons.mpr ⟨munched rest, stands_nil⟩

/-- The first character of spaced words is that of the first word. -/
theorem Spaced.head? {c : Char} {word : Text} (spaced : Spaced ((c :: word) :: words) text)
    : text.head? = some c := by
  cases spaced with
  | cons => rfl

/-- The variable of a directory stands before white space and before a full stop. -/
theorem stands_directory (entry : Entry) (space : ∀ c ∈ gap, isSpace c = true)
    (spaced : Spaced (['.'] :: words) text)
    : Stands [(.variable, entry.directory)] (gap ++ text) := by
  have ends : ∀ c ∈ (gap ++ text).head?, isNamePart c = false := by
    refine ends_gap (fun c => isNamePart_of_isSpace) space ?_
    rw [spaced.head?]
    intro c first
    obtain rfl := Option.some.inj first
    decide
  have variable_of (c : Char) (name : Text) (start : isNameStart c = true)
      (parts : name.all isNamePart = true)
      : Stands [(.variable, '$' :: c :: name)] (gap ++ text) := by
    refine stands_cons.mpr ⟨?_, stands_nil⟩
    change leadingDollar (c :: (name ++ (gap ++ text))) = _
    rw [leadingDollar, prolonged, if_pos start,
      run_append isNamePart (List.all_eq_true.mp parts) ends]
    rfl
  unfold Entry.directory
  split
  · exact variable_of 'v' "endorDir".toList (by decide) (by decide)
  · exact variable_of 'b' "aseDir".toList (by decide) (by decide)

/-- A full stop stands before white space and before a quote. -/
theorem stands_fullStop {quotedText : Text} (space : ∀ c ∈ gap, isSpace c = true)
    (spaced : Spaced (('\'' :: quotedText) :: words) text)
    : Stands [(.operator, ['.'])] (gap ++ text) := by
  have ends : ∀ c ∈ (gap ++ text).head?, (c == '.' || c.isDigit) = false := by
    refine ends_gap (fun c space => ?_) space ?_
    · simp only [isSpace, Bool.or_eq_true, beq_iff_eq] at space
      rcases space with ((rfl | rfl) | rfl) | rfl <;> decide
    · rw [spaced.head?]
      intro c first
      obtain rfl := Option.some.inj first
      decide
  refine stands_cons.mpr ⟨?_, stands_nil⟩
  change fullStop (gap ++ text) = _
  generalize gap ++ text = rest at ends ⊢
  cases rest with
  | nil => rfl
  | cons c rest =>
      obtain ⟨other, digit⟩ := Bool.or_eq_false_iff.mp (ends c rfl)
      rw [fullStop]
      · rw [prolonged, if_neg (by simp [digit])]
        rfl
      · rintro _ ⟨rfl, _⟩
        cases other

/-- Whether a character can continue a written name. -/
def continuesName (c : Char) : Bool :=
  isNamePart c || c == '\\'

theorem continuesName_of_isSpace {c : Char} (space : isSpace c = true)
    : continuesName c = false := by
  rw [continuesName, isNamePart_of_isSpace space, Bool.false_or, beq_eq_false_iff_ne]
  rintro rfl
  cases space

/-- A name stands before what does not continue it. -/
theorem stands_name {name : Text} (identifier : name.isIdentifier = true)
    (ends : ∀ c ∈ text.head?, continuesName c = false)
    : Stands [(.name, name)] text := by
  refine stands_of_isWritten (isWritten_of_isIdentifier identifier) ?_
  cases text with
  | nil => rfl
  | cons c text =>
      obtain ⟨other, slash⟩ := Bool.or_eq_false_iff.mp (ends c rfl)
      exact endsName_cons other (beq_eq_false_iff_ne.mp slash) text

/-- The tokens of an entry are its words. -/
theorem Spaced.exists_rest_of_entry {entry : Entry} (spaced : Spaced (entry.words ++ words) text)
    : ∃ rest, Spaced words rest ∧ solids (cut text) = entry.pieces ++ solids (cut rest) := by
  obtain ⟨_, spaced, key⟩ := spaced.exists_rest .string rfl fun _ _ _ _ => stands_quoted _ _
  obtain ⟨_, spaced, arrow⟩ := spaced.exists_rest .fatArrow rfl fun _ _ _ _ =>
    stands_cons.mpr ⟨rfl, stands_nil⟩
  obtain ⟨_, spaced, directory⟩ := spaced.exists_rest .variable rfl fun _ _ space spaced =>
    stands_directory entry space spaced
  obtain ⟨_, spaced, stop⟩ := spaced.exists_rest .operator rfl fun _ _ space spaced =>
    stands_fullStop space spaced
  obtain ⟨_, spaced, below⟩ := spaced.exists_rest .string rfl fun _ _ _ _ => stands_quoted _ _
  obtain ⟨rest, spaced, comma⟩ := spaced.exists_rest .comma rfl fun _ _ _ _ =>
    stands_mark (fun _ => rfl) _
  refine ⟨rest, spaced, ?_⟩
  rw [key, arrow, directory, stop, below, comma]
  rfl

theorem Spaced.exists_rest_of_entries {entries : List Entry}
    (spaced : Spaced (entries.flatMap Entry.words ++ words) text)
    : ∃ rest, Spaced words rest
        ∧ solids (cut text) = entries.flatMap Entry.pieces ++ solids (cut rest) := by
  induction entries generalizing text with
  | nil => exact ⟨text, spaced, rfl⟩
  | cons entry entries ih =>
      rw [List.flatMap_cons, List.append_assoc] at spaced
      obtain ⟨_, spaced, first⟩ := spaced.exists_rest_of_entry
      obtain ⟨rest, spaced, others⟩ := ih spaced
      exact ⟨rest, spaced, by rw [first, others, List.flatMap_cons, List.append_assoc]⟩

/-- The tokens of an array are those of its brackets and its entries. -/
theorem solids_array {long : Bool} {entries : List Entry}
    (spaced : Spaced (arrayWords long entries) text)
    : solids (cut text)
      = openingPieces long ++ (entries.flatMap Entry.pieces ++ closingPieces long) := by
  have closed {text : Text} (spaced : Spaced [if long then [')'] else [']'], [';']] text)
      : solids (cut text) = closingPieces long := by
    have bracket : ∃ rest, Spaced [[';']] rest
        ∧ solids (cut text) = (closingPieces long).take 1 ++ solids (cut rest) := by
      cases long with
      | false =>
          exact spaced.exists_rest .rightBracket rfl fun _ _ _ _ => stands_mark (fun _ => rfl) _
      | true =>
          exact spaced.exists_rest .rightParen rfl fun _ _ _ _ => stands_mark (fun _ => rfl) _
    obtain ⟨_, spaced, first⟩ := bracket
    obtain ⟨_, spaced, second⟩ := spaced.exists_rest .semicolon rfl fun _ _ _ _ =>
      stands_mark (fun _ => rfl) _
    cases spaced
    rw [first, second]
    rfl
  have opened : ∃ rest,
      Spaced (entries.flatMap Entry.words ++ [if long then [')'] else [']'], [';']]) rest
        ∧ solids (cut text) = openingPieces long ++ solids (cut rest) := by
    cases long with
    | false => exact spaced.exists_rest .leftBracket rfl fun _ _ _ _ => stands_mark (fun _ => rfl) _
    | true =>
        obtain ⟨_, spaced, first⟩ := spaced.exists_rest .name rfl fun _ _ space spaced => by
          refine stands_name (by decide) (ends_gap (fun _ => continuesName_of_isSpace) space ?_)
          rw [spaced.head?]
          intro c first
          obtain rfl := Option.some.inj first
          decide
        obtain ⟨rest, spaced, second⟩ := spaced.exists_rest .leftParen rfl fun _ _ _ _ =>
          stands_mark (fun _ => rfl) _
        exact ⟨rest, spaced, by rw [first, second]; rfl⟩
  obtain ⟨_, spaced, first⟩ := opened
  obtain ⟨_, spaced, middle⟩ := spaced.exists_rest_of_entries
  rw [first, middle, closed spaced]

/-- The tokens of a class map. -/
theorem IsMap.exists_pieces {entries : List Entry} (isMap : IsMap entries source)
    : ∃ long, ((tokenize source).filter fun token => !token.kind.isTrivia).map Token.piece
        = (.openTag, "<?php".toList) :: (.name, "return".toList)
          :: (openingPieces long ++ (entries.flatMap Entry.pieces ++ closingPieces long)) := by
  obtain ⟨long, gap, gap', body, rfl, space, space', some, spaced⟩ := isMap
  refine ⟨long, ?_⟩
  have isTag : IsOpenTag "<?php".toList := .inr ⟨"php".toList, rfl, rfl⟩
  have tokens : ((tokenize ("<?php".toList ++ (gap ++ ("return".toList ++ (gap' ++ body))))).filter
      fun token => !token.kind.isTrivia).map Token.piece
      = solids (cut ("<?php".toList ++ (gap ++ ("return".toList ++ (gap' ++ body))))) := by
    have isMarkup : IsMarkup [] ("<?php".toList ++ (gap ++ ("return".toList ++ (gap' ++ body)))) :=
      isMarkup_iff_markupLength.mpr rfl
    have cuts := isMarkup.tokenize_eq
    rw [List.nil_append] at cuts
    rw [cuts, solids, ← map_piece_place 0 (cut _), List.filter_map, map_piece_place]
    rfl
  have returns : Stands [(.name, "return".toList)] (gap' ++ body) := by
    refine stands_name (by decide) ?_
    obtain ⟨first, others, rfl⟩ := List.exists_cons_of_ne_nil some
    intro c isFirst
    obtain rfl := Option.some.inj isFirst
    exact continuesName_of_isSpace (space' first List.mem_cons_self)
  have tag : solids ((.openTag, "<?php".toList) :: cut (gap ++ ("return".toList ++ (gap' ++ body))))
      = (.openTag, "<?php".toList) :: solids (cut (gap ++ ("return".toList ++ (gap' ++ body)))) :=
    rfl
  rw [tokens, cut_openTag isTag, tag, solids_space space, solids_word returns rfl space',
    solids_array spaced]

-----------------------------------------------------------------------------------------
-- Reading the entries
-----------------------------------------------------------------------------------------

variable {root : Path}

/-- A path below another one that is not empty is not empty. -/
theorem isEmpty_join {base below : Path} (some : base.text ≠ [])
    (relative : below.isAbsolute = false)
    : (base.join below).text.isEmpty = false := by
  obtain ⟨c, rest, same⟩ := List.exists_cons_of_ne_nil some
  unfold Path.join
  rw [relative, same]
  simp only [List.isEmpty_cons, Bool.or_self, Bool.false_eq_true, if_false]
  split <;> rfl

theorem isAbsolute_dropWhile (text : Text)
    : (⟨text.dropWhile (· == '/')⟩ : Path).isAbsolute = false := by
  have stops := List.head?_dropWhile_not (· == '/') text
  unfold Path.isAbsolute
  dsimp only
  cases first : (text.dropWhile (· == '/')).head? with
  | none => rfl
  | some c =>
      rw [first] at stops
      have other : (c == '/') = false := by simpa using stops
      rw [Option.some_beq_some, other]

theorem Entry.base_ne_nil (entry : Entry) (rooted : root.text ≠ [])
    : (entry.base root).text ≠ [] := by
  unfold base
  split
  · exact List.isEmpty_eq_false_iff.mp (isEmpty_join rooted (by decide))
  · exact rooted

/-- The value of an entry is its path. -/
theorem valuePath_of_pieces (entry : Entry) (rooted : root.text ≠ []) {tokens : List Token}
    (pieces : tokens.map Token.piece
      = [(.variable, entry.directory), (.operator, ['.']), (.string, quoted entry.below)])
    : valuePath root tokens = .ok (entry.path root) := by
  obtain ⟨directory, rest, rfl, isDirectory, pieces⟩ := List.map_eq_cons_iff.mp pieces
  obtain ⟨stop, rest, rfl, isStop, pieces⟩ := List.map_eq_cons_iff.mp pieces
  obtain ⟨below, rest, rfl, isBelow, pieces⟩ := List.map_eq_cons_iff.mp pieces
  obtain rfl := List.map_eq_nil_iff.mp pieces
  obtain ⟨kind, text⟩ := Prod.mk.inj isDirectory
  obtain ⟨kind', text'⟩ := Prod.mk.inj isStop
  obtain ⟨kind'', text''⟩ := Prod.mk.inj isBelow
  have some := entry.base_ne_nil rooted
  have first : extendPath root ⟨[]⟩ directory = .ok (entry.base root) := by
    unfold extendPath Entry.base
    rw [kind, text, Entry.directory]
    cases entry.inVendor <;> rfl
  have second : extendPath root (entry.base root) stop = .ok (entry.base root) := by
    unfold extendPath
    rw [kind', text']
    rfl
  have third : extendPath root (entry.base root) below = .ok (entry.path root) := by
    unfold extendPath
    rw [kind'', text'', unquote_quoted]
    simp only [List.isEmpty_eq_false_iff.mpr some, Bool.false_eq_true, if_false]
    rfl
  have full : (entry.path root).text.isEmpty = false :=
    isEmpty_join some (isAbsolute_dropWhile entry.below)
  unfold valuePath
  simp only [List.foldlM_cons, List.foldlM_nil, first, second, third, bind, Except.bind, pure,
    Except.pure, full]
  rfl

variable {before value rest : List Token} {key arrow stop : Token}

/-- Tokens without an arrow hold no entry. -/
theorem entries_eq_nil (plain : ∀ token ∈ before, (token.kind != .fatArrow) = true)
    : entries root before = .ok [] := by
  rw [entries]
  split
  · rfl
  · rename_i found
    rw [List.dropWhile_eq_nil_iff.mpr plain] at found
    cases found

/-- An entry is read from the tokens around its arrow, and the others from the end of its value on.
-/
theorem entries_step {name : Name} {path : Path}
    (plain : ∀ token ∈ before ++ [key], (token.kind != .fatArrow) = true)
    (isArrow : arrow.kind = .fatArrow) (named : keyName (before ++ [key]) = .ok name)
    (inside : ∀ token ∈ value, (!endsValue token) = true) (read : valuePath root value = .ok path)
    (ends : endsValue stop = true)
    : entries root (before ++ key :: arrow :: (value ++ stop :: rest))
      = (entries root (stop :: rest)).map ((name, path) :: ·) := by
  have whole : before ++ key :: arrow :: (value ++ stop :: rest)
      = (before ++ [key]) ++ arrow :: (value ++ stop :: rest) := by simp
  have dropped : ((before ++ [key]) ++ arrow :: (value ++ stop :: rest)).dropWhile
      (fun token => token.kind != .fatArrow) = arrow :: (value ++ stop :: rest) := by
    rw [List.dropWhile_append_of_pos plain, List.dropWhile_cons_of_neg (by simp [isArrow])]
  have taken : ((before ++ [key]) ++ arrow :: (value ++ stop :: rest)).takeWhile
      (fun token => token.kind != .fatArrow) = before ++ [key] := by
    rw [List.takeWhile_append_of_pos plain, List.takeWhile_cons_of_neg (by simp [isArrow]),
      List.append_nil]
  rw [whole, entries]
  split
  · rename_i found
    rw [dropped] at found
    cases found
  · rename_i found
    rw [dropped] at found
    obtain ⟨_, rfl⟩ := List.cons.inj found
    rw [taken, named, List.takeWhile_append_of_pos inside, List.dropWhile_append_of_pos inside,
      List.takeWhile_cons_of_neg (by simp [ends]), List.dropWhile_cons_of_neg (by simp [ends]),
      List.append_nil]
    simp only [read, bind, Except.bind, pure, Except.pure]
    cases entries root (stop :: rest) <;> rfl

/-- The entries are read one by one, each from its own tokens. -/
theorem entries_of_pieces (rooted : root.text ≠ []) {listed : List Entry} {tokens : List Token}
    {closing : List Piece} (plain : ∀ token ∈ before, (token.kind != .fatArrow) = true)
    (pieces : tokens.map Token.piece = listed.flatMap Entry.pieces ++ closing)
    (plain' : ∀ piece ∈ closing, (piece.1 != .fatArrow) = true)
    : entries root (before ++ tokens)
      = .ok (listed.map fun entry => (entry.name, entry.path root)) := by
  induction listed generalizing before tokens with
  | nil =>
      refine entries_eq_nil fun token inside => ?_
      rcases List.mem_append.mp inside with early | late
      · exact plain token early
      · exact plain' _ (pieces ▸ List.mem_map_of_mem late)
  | cons entry listed ih =>
      rw [List.flatMap_cons, List.append_assoc] at pieces
      obtain ⟨key, behind, rfl, isKey, pieces⟩ := List.map_eq_cons_iff.mp pieces
      obtain ⟨arrow, behind, rfl, isArrow, pieces⟩ := List.map_eq_cons_iff.mp pieces
      obtain ⟨value, behind, rfl, isValue, pieces⟩ := List.map_eq_append_iff.mp
        (show behind.map Token.piece = [(.variable, entry.directory), (.operator, ['.']),
          (.string, quoted entry.below)] ++ ((.comma, [',']) :: (listed.flatMap Entry.pieces
            ++ closing)) from pieces)
      obtain ⟨comma, others, rfl, isComma, pieces⟩ := List.map_eq_cons_iff.mp pieces
      obtain ⟨keyKind, keyText⟩ := Prod.mk.inj isKey
      have commaKind : comma.kind = .comma := congrArg Prod.fst isComma
      have named : keyName (before ++ [key]) = .ok entry.name := by
        unfold keyName
        rw [List.getLast?_concat]
        dsimp only
        rw [if_pos keyKind, keyText, unquote_quoted, entry.named]
        rfl
      have inside : ∀ token ∈ value, (!endsValue token) = true := by
        intro token among
        have kinds : token.piece ∈ value.map Token.piece := List.mem_map_of_mem among
        rw [isValue] at kinds
        have kind : token.kind = .variable ∨ token.kind = .operator ∨ token.kind = .string := by
          simpa [Token.piece] using List.mem_map_of_mem (f := Prod.fst) kinds
        unfold endsValue
        rcases kind with kind | kind | kind <;> rw [kind] <;> rfl
      rw [entries_step (fun token among => ?_) (congrArg Prod.fst isArrow) named inside
        (valuePath_of_pieces entry rooted isValue) (by rw [endsValue, commaKind]; rfl)]
      · have read : entries root ([comma] ++ others) = _ :=
          ih (fun token among => by rw [List.mem_singleton.mp among, commaKind]; rfl) pieces
        rw [List.singleton_append] at read
        rw [read]
        rfl
      · rcases List.mem_append.mp among with early | late
        · exact plain token early
        · rw [List.mem_singleton.mp late, keyKind]
          rfl

/-- A written class map is read as the names and paths of its entries, in their order. -/
theorem parse_inverts_layout {entries : List Entry} (rooted : root.text ≠ [])
    (isMap : IsMap entries source)
    : parse source root = .ok (entries.map fun entry => (entry.name, entry.path root)) := by
  obtain ⟨long, pieces⟩ := isMap.exists_pieces
  unfold parse
  dsimp only
  generalize (tokenize source).filter (fun token => !token.kind.isTrivia) = tokens at pieces ⊢
  obtain ⟨tag, tokens, rfl, isTag, pieces⟩ := List.map_eq_cons_iff.mp pieces
  obtain ⟨keyword, tokens, rfl, isKeyword, pieces⟩ := List.map_eq_cons_iff.mp pieces
  obtain ⟨before, tokens, rfl, isOpening, pieces⟩ := List.map_eq_append_iff.mp pieces
  have tagKind : tag.kind = .openTag := congrArg Prod.fst isTag
  obtain ⟨kind, text⟩ := Prod.mk.inj isKeyword
  have other : tag.isKeyword "return".toList = false := by
    unfold Token.isKeyword
    rw [tagKind]
    rfl
  have returns : keyword.isKeyword "return".toList = true := by
    unfold Token.isKeyword
    rw [kind, text]
    decide
  have dropped : (tag :: keyword :: (before ++ tokens)).dropWhile
      (fun token => !token.isKeyword "return".toList) = keyword :: (before ++ tokens) := by
    rw [List.dropWhile_cons_of_pos (by rw [other]; rfl),
      List.dropWhile_cons_of_neg (by rw [returns]; decide)]
  rw [dropped]
  refine entries_of_pieces rooted (fun token among => ?_) pieces fun piece among => ?_
  · have listed : token.piece ∈ before.map Token.piece := List.mem_map_of_mem among
    rw [isOpening] at listed
    have arrowless : ∀ piece ∈ openingPieces long, (piece.1 != .fatArrow) = true := by
      cases long <;> decide
    exact arrowless _ listed
  · have arrowless : ∀ piece ∈ closingPieces long, (piece.1 != .fatArrow) = true := by
      cases long <;> decide
    exact arrowless piece among

/-- A key with a backslash and a path with a quote, a comma, an arrow and a parenthesis are read
whole, in the short form and beside an entry below the vendor directory.
-/
theorem parse_inverts_layout_of_two_entries
    : ∃ source,
        source = ("<?php\nreturn [\n 'A\\\\B'=>$baseDir.'//a\\',=>(.php',"
          ++ "\n 'C' => $vendorDir . '/c.php' ,\n];\n").toList
        ∧ parse source ⟨"/p".toList⟩
          = .ok [(⟨["A".toList, "B".toList], .qualified⟩, ⟨"/p/a',=>(.php".toList⟩),
              (⟨["C".toList], .unqualified⟩, ⟨"/p/vendor/c.php".toList⟩)] := by
  let first : Entry := ⟨"A\\B".toList, ⟨["A".toList, "B".toList], .qualified⟩, false,
    "//a',=>(.php".toList, rfl, rfl⟩
  let second : Entry := ⟨"C".toList, ⟨["C".toList], .unqualified⟩, true, "/c.php".toList, rfl, rfl⟩
  have word (word gap : Text) {words : List Text} {text : Text} (space : gap.all isSpace = true)
      (rest : Spaced words text)
      : Spaced (word :: words) (word ++ (gap ++ text)) :=
    .cons (List.all_eq_true.mp space) rest
  have closing : Spaced [[']'], [';']] _ := word [']'] [] rfl (word [';'] "\n".toList rfl .nil)
  have later : Spaced (second.words ++ [[']'], [';']]) _ :=
    word (quoted second.key) [' '] rfl (word "=>".toList [' '] rfl
      (word second.directory [' '] rfl (word ['.'] [' '] rfl
        (word (quoted second.below) [' '] rfl (word [','] "\n".toList rfl closing)))))
  have spaced : Spaced (arrayWords false [first, second]) _ :=
    word ['['] "\n ".toList rfl (word (quoted first.key) [] rfl (word "=>".toList [] rfl
      (word first.directory [] rfl (word ['.'] [] rfl
        (word (quoted first.below) [] rfl (word [','] "\n ".toList rfl later))))))
  have isMap : IsMap [first, second] _ :=
    ⟨false, ['\n'], [' '], _, rfl, List.all_eq_true.mp rfl, List.all_eq_true.mp rfl, by decide,
      spaced⟩
  exact ⟨_, rfl, parse_inverts_layout (by decide) isMap⟩

end Classmap

end ImportHeader
