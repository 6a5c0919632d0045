import ImportHeader.Proofs.Header.Printed
import ImportHeader.Proofs.Header.Rewritten

/-! Headers that are printed and read back. A file that is an open tag, a namespace and imports is
printed to a text which parses to such a file again: the namespace is opened in the same way, the
imports are the same in the same order, and the header ends with the last of them.
-/

namespace ImportHeader

open ImportHeader.Lexer ImportHeader.Parser

-----------------------------------------------------------------------------------------
-- The words of a header
-----------------------------------------------------------------------------------------

/-- An identifier other than the keywords that stand before names in a header. -/
def Text.isHeaderWord (text : Text) : Bool :=
  text.isIdentifier
    && (["function", "const", "namespace"] : List Text).all fun keyword =>
      !sameFolded text keyword

/-- A name of such words. -/
def Name.isHeaderName (name : Name) : Bool :=
  !name.segments.isEmpty && name.segments.all Text.isHeaderWord

/-- The names that are written in an import. -/
def Import.names (declaration : Import) : List Name :=
  declaration.group?.toList ++ declaration.items.map ImportItem.name

/-- An import in the shape that the parser reads, written in words of a header. A name that the
parser reads in an import has no leading backslash.
-/
structure Import.IsHeaderImport (declaration : Import) : Prop where
  shaped : declaration.IsShaped
  names : ∀ name ∈ declaration.names, name.isHeaderName = true
  plain : ∀ name ∈ declaration.names, name.form = Name.plainForm name.segments
  aliases : ∀ item ∈ declaration.items, ∀ text ∈ item.alias?, text.isHeaderWord = true

theorem Text.isIdentifier_of_isHeaderWord {text : Text} (isWord : text.isHeaderWord = true)
    : text.isIdentifier = true :=
  (Bool.and_eq_true_iff.mp isWord).1

theorem Text.sameFolded_of_isHeaderWord {text keyword : Text} (isWord : text.isHeaderWord = true)
    (listed : keyword ∈ (["function", "const", "namespace"] : List Text))
    : sameFolded text keyword = false := by
  have others := List.all_eq_true.mp (Bool.and_eq_true_iff.mp isWord).2 keyword listed
  simpa using others

namespace Name

variable {name : Name}

theorem isHeaderName_iff
    : name.isHeaderName = true
      ↔ name.segments ≠ [] ∧ ∀ segment ∈ name.segments, segment.isHeaderWord = true := by
  simp [isHeaderName]

theorem isHeaderWord_first (isName : name.isHeaderName = true)
    : name.first.isHeaderWord = true := by
  obtain ⟨some, words⟩ := isHeaderName_iff.mp isName
  obtain ⟨first, rest, segments⟩ := List.exists_cons_of_ne_nil some
  rw [Name.first, segments]
  exact words first (segments ▸ List.mem_cons_self)

theorem isPrintable_of_isHeaderName (isName : name.isHeaderName = true)
    : name.isPrintable = true := by
  obtain ⟨some, words⟩ := isHeaderName_iff.mp isName
  refine isPrintable_iff.mpr ⟨some, fun segment listed => ?_, .inr ?_⟩
  · exact Text.isIdentifier_of_isHeaderWord (words segment listed)
  · exact Text.sameFolded_of_isHeaderWord (isHeaderWord_first isName) (by simp)

/-- A name that is written without a leading backslash is imported as it is. -/
theorem imported_of_plain (isName : name.isHeaderName = true)
    (plain : name.form = plainForm name.segments)
    : name.imported = name := by
  rw [imported_eq (isPrintable_of_isHeaderName isName), ← plain]

end Name

theorem ImportItem.isPrintable_of_isHeaderName {item : ImportItem}
    (named : item.name.isHeaderName = true)
    (aliased : ∀ text ∈ item.alias?, text.isHeaderWord = true)
    : item.isPrintable = true ∧ item.isAmbiguous = false := by
  have first := Name.isHeaderWord_first named
  constructor
  · rw [isPrintable, Name.isPrintable_of_isHeaderName named, Bool.true_and]
    cases given : item.alias? with
    | none => rfl
    | some text => exact Text.isIdentifier_of_isHeaderWord (aliased text given)
  · rw [isAmbiguous, Text.sameFolded_of_isHeaderWord first (by simp),
      Text.sameFolded_of_isHeaderWord first (by simp)]
    simp

theorem Import.mem_names_of_group {declaration : Import} {group : Name}
    (given : declaration.group? = some group)
    : group ∈ declaration.names :=
  List.mem_append_left _ (Option.mem_toList.mpr given)

theorem Import.mem_names_of_item {declaration : Import} {item : ImportItem}
    (listed : item ∈ declaration.items)
    : item.name ∈ declaration.names :=
  List.mem_append_right _ (List.mem_map_of_mem listed)

namespace Import.IsHeaderImport

variable {declaration : Import}

theorem item (isHeader : declaration.IsHeaderImport) {item : ImportItem}
    (listed : item ∈ declaration.items)
    : item.isPrintable = true ∧ item.isAmbiguous = false :=
  ImportItem.isPrintable_of_isHeaderName (isHeader.names _ (mem_names_of_item listed))
    (isHeader.aliases item listed)

/-- None of the names is taken for a keyword. -/
theorem returns (isHeader : declaration.IsHeaderImport) : Returns declaration := by
  refine ⟨?_, isHeader.shaped⟩
  have printable : declaration.items.all ImportItem.isPrintable = true :=
    List.all_eq_true.mpr fun item listed => (isHeader.item listed).1
  have clear : ∀ item ∈ declaration.items, (!item.isAmbiguous) = true := fun item listed => by
    rw [(isHeader.item listed).2]
    rfl
  rw [isPrintable, printable, Bool.true_and]
  cases given : declaration.group? with
  | none =>
      have first : (declaration.items.take 1).all (fun item => !item.isAmbiguous) = true :=
        List.all_eq_true.mpr fun item listed => clear item (List.mem_of_mem_take listed)
      simp [first]
  | some group =>
      have named : group.isPrintable = true :=
        Name.isPrintable_of_isHeaderName (isHeader.names group (mem_names_of_group given))
      have all : declaration.items.all (fun item => item.keyword?.isSome || !item.isAmbiguous)
          = true :=
        List.all_eq_true.mpr fun item listed => by rw [clear item listed, Bool.or_true]
      simp [named, all]

/-- It is read back as it is. -/
theorem reread_eq (isHeader : declaration.IsHeaderImport)
    : declaration.reread = declaration.unplaced := by
  have same : ∀ name ∈ declaration.names, name.imported = name := fun name listed =>
    Name.imported_of_plain (isHeader.names name listed) (isHeader.plain name listed)
  have group : declaration.group?.map Name.imported = declaration.group? := by
    cases given : declaration.group? with
    | none => rfl
    | some group => rw [Option.map_some, same group (mem_names_of_group given)]
  have items : declaration.items.map ImportItem.reread
      = declaration.items.map ImportItem.unplaced := by
    refine List.map_congr_left fun item listed => ?_
    rw [ImportItem.reread, same item.name (mem_names_of_item listed)]
    rfl
  rw [reread, unplaced, group, items]

end Import.IsHeaderImport

-----------------------------------------------------------------------------------------
-- Files that are headers
-----------------------------------------------------------------------------------------

/-- A statement that is an import of a header, without comments. -/
structure Stmt.IsHeaderImport (stmt : Stmt) : Prop where
  declares : ∃ declaration, stmt.declaration? = some declaration ∧ declaration.IsHeaderImport
  comments : stmt.comments = []
  trailing : stmt.trailing? = none

theorem Stmt.IsHeaderImport.of_declaration? {stmt : Stmt} (isHeader : stmt.IsHeaderImport)
    {declaration : Import} (found : stmt.declaration? = some declaration)
    : declaration.IsHeaderImport := by
  obtain ⟨other, found', good⟩ := isHeader.declares
  obtain rfl := Option.some.inj (found.symm.trans found')
  exact good

/-- A namespace that is opened in words of a header, without comments. -/
structure Namespace.IsHeaderSpace (space : Namespace) : Prop where
  known : space.braced = true ∨ space.name?.isSome = true
  named : ∀ located ∈ space.name?, located.name.isHeaderName = true
  comments : space.comments = []
  header : space.headerComment? = none

/-- A file of an open tag, imports and, around them, a namespace if there is one. -/
structure SourceFile.IsHeader (file : SourceFile) : Prop where
  markup : file.markup? = none
  tag : ∃ span, file.openTag? = some ⟨"<?php", span, none⟩
  items
    : file.items
      = file.firstNamespace?.elim (file.importScope.map .plain) fun space => [.scope space]
  space : ∀ space ∈ file.firstNamespace?, space.IsHeaderSpace
  imports : ∀ stmt ∈ file.importScope, stmt.IsHeaderImport

/-- A namespace that is printed around imports. -/
def Namespace.frame (space : Namespace) : Frame where
  before := []
  opening := ⟨openingPieces (space.name?.map LocatedName.name) space.braced, []⟩
  name? := space.name?.map fun located => located.name.imported
  braced := space.braced
  closing := if space.braced then [⟨[(.rightBrace, ['}'])], []⟩] else []
  after := []

/-- A header as blocks. -/
def SourceFile.headerSheet (file : SourceFile) : Sheet :=
  ⟨file.firstNamespace?.map Namespace.frame, file.imports.map partOf⟩

theorem closes_frame (space : Namespace) : Closes space.frame.closing space.braced := by
  unfold Closes Namespace.frame
  cases space.braced with
  | true => exact ⟨_, _, rfl, rfl⟩
  | false => rfl

theorem isPlain_rightBrace : IsPlain [(.rightBrace, ['}'])] := by
  have stands (text : Text) : Stands [(.rightBrace, ['}'])] text :=
    stands_cons.mpr ⟨rfl, stands_nil⟩
  have solid : IsSolid [(.rightBrace, ['}'])] :=
    ⟨⟨⟨_, _, rfl, rfl⟩, [], _, rfl, rfl⟩, stands [], fun c rest _ _ => stands (c :: rest),
      '}', rfl, by decide⟩
  exact ⟨solid, not_opensComment (by decide), endsNoComment_of_not_mem (by decide)⟩

namespace Namespace.IsHeaderSpace

variable {space : Namespace}

theorem printable (isHeader : space.IsHeaderSpace)
    : ∀ name ∈ space.name?.map LocatedName.name, name.isPrintable = true := by
  intro name given
  obtain ⟨located, here, rfl⟩ := Option.map_eq_some_iff.mp given
  exact Name.isPrintable_of_isHeaderName (isHeader.named located here)

theorem opens (isHeader : space.IsHeaderSpace)
    : Opens space.frame.opening.pieces space.frame.name? space.frame.braced := by
  have known : space.braced = true ∨ (space.name?.map LocatedName.name).isSome = true := by
    rw [Option.isSome_map]
    exact isHeader.known
  have opened := opens_openingPieces isHeader.printable known
  rwa [Option.map_map] at opened

theorem plain (isHeader : space.IsHeaderSpace)
    : IsPlain space.frame.opening.pieces
      ∧ ∀ block ∈ space.frame.closing, IsPlain block.pieces := by
  refine ⟨isPlain_openingPieces space.braced fun name given =>
    Name.isSpelled_of_isPrintable (isHeader.printable name given), fun block listed => ?_⟩
  unfold frame at listed
  cases braced : space.braced with
  | true =>
      rw [braced] at listed
      obtain rfl := List.mem_singleton.mp listed
      exact isPlain_rightBrace
  | false =>
      rw [braced] at listed
      cases listed

end Namespace.IsHeaderSpace

namespace SourceFile.IsHeader

variable {file : SourceFile}

theorem isHeaderImport (isHeader : file.IsHeader)
    : ∀ declaration ∈ file.imports, declaration.IsHeaderImport := by
  intro declaration listed
  obtain ⟨stmt, here, found⟩ := List.mem_filterMap.mp listed
  exact (isHeader.imports stmt here).of_declaration? found

theorem returns (isHeader : file.IsHeader)
    : ∀ declaration ∈ file.imports, Returns declaration :=
  fun declaration listed => (isHeader.isHeaderImport declaration listed).returns

theorem isTidy (isHeader : file.IsHeader) : ∀ stmt ∈ file.importScope, stmt.IsTidy := by
  intro stmt listed
  have good := isHeader.imports stmt listed
  refine ⟨by simp [good.comments], by simp [good.trailing], fun declaration found => ?_⟩
  exact (good.of_declaration? found).shaped

/-- The blocks of a header can be read. -/
theorem isDrawable (isHeader : file.IsHeader) : file.headerSheet.IsDrawable := by
  refine ⟨⟨readsAll_imports isHeader.returns _, fun frame here => ?_⟩, fun frame here => ?_⟩
  · obtain ⟨space, _, rfl⟩ := Option.map_eq_some_iff.mp here
    exact ⟨trivial, trivial, closes_frame space, fun _ => rfl⟩
  · obtain ⟨space, spaced, rfl⟩ := Option.map_eq_some_iff.mp here
    exact (isHeader.space space spaced).opens

end SourceFile.IsHeader

namespace SourceFile.IsHeader

variable {file : SourceFile}

/-- The rows of a printed header hold its blocks. -/
theorem exists_rows (isHeader : file.IsHeader)
    : ∃ rows,
        file.print = "<?php".toList ++ (Row.printAll id ['\n'] rows ++ ['\n'])
        ∧ List.Forall₂ Row.Fits rows (file.headerSheet.blocks.map Block.pieces)
        ∧ ∀ row ∈ rows, row.IsTidy := by
  obtain ⟨span, tagged⟩ := isHeader.tag
  obtain ⟨rows, each, printed⟩ := Row.exists_rows tagged
  rw [isHeader.markup] at printed
  refine ⟨rows.flatten, printed, ?_⟩
  have inner {rows : List Row} (each : List.Forall₂ Row.IsOf file.importScope rows)
      : List.Forall₂ Row.Fits rows
          ((file.imports.map partOf).map fun part => part.block.pieces) := by
    rw [List.map_map]
    refine Row.fits_of_holds (Row.holds_of_imports each fun stmt listed => ?_) fun pieces listed => ?_
    · obtain ⟨declaration, found, _⟩ := (isHeader.imports stmt listed).declares
      rw [Stmt.isImport, found]
      rfl
    · obtain ⟨declaration, here, rfl⟩ := List.mem_map.mp listed
      exact isSolid_importPieces (isHeader.returns declaration here).prints
  rw [isHeader.items] at each
  cases spaced : file.firstNamespace? with
  | none =>
      rw [spaced] at each
      have plain := Row.exists_plain_rows each
      refine ⟨?_, Row.isTidy_of_rows plain isHeader.isTidy⟩
      rw [headerSheet, spaced, Option.map_none, Sheet.blocks, List.map_map]
      exact inner plain
  | some space =>
      rw [spaced] at each
      have scope : space.stmts = file.importScope := by rw [importScope, spaced]
      have good := isHeader.space space spaced
      have framed : List.Forall₂ Row.AreOf
          (([] : List Stmt).map .plain ++ .scope space :: ([] : List Stmt).map .plain) rows :=
        each
      obtain ⟨_, opening, within, closing, _, cut, ⟨⟩, isOpening, isInner, isClosing, ⟨⟩⟩ :=
        Row.exists_framed_rows framed
      rw [scope] at isInner
      obtain ⟨holdsClosing, tidyClosing⟩ := Row.holds_of_closing (closes_frame space) isClosing
        fun block listed => ⟨[], (good.plain.2 block listed).solid.alone⟩
      have fitsClosing := Row.fits_of_holds holdsClosing fun pieces listed => by
        obtain ⟨block, here, rfl⟩ := List.mem_map.mp listed
        exact (good.plain.2 block here).solid
      have fitsOpening : opening.Fits space.frame.opening.pieces := by
        refine ⟨?_, good.plain.1.solid.isBlock, good.plain.1.solid.isFirm⟩
        rw [isOpening.text_eq, Namespace.openingCode_eq]
        rfl
      rw [cut]
      constructor
      · have all := List.Forall₂.cons fitsOpening (List.rel_append (inner isInner) fitsClosing)
        simpa [headerSheet, spaced, Sheet.blocks, Namespace.frame, Function.comp_def] using all
      · intro row listed
        simp only [List.nil_append, List.append_nil, List.mem_cons, List.mem_append] at listed
        rcases listed with rfl | here | here
        · exact ⟨by simp [isOpening.comments_eq, good.comments],
            by simp [isOpening.trailing_eq, good.header]⟩
        · exact Row.isTidy_of_rows isInner isHeader.isTidy row here
        · exact tidyClosing row here

/-- A header leaves no comment open. -/
theorem quiet (isHeader : file.IsHeader)
    : ∀ block ∈ file.headerSheet.blocks, ¬OpensComment block.pieces := by
  have inside : ∀ part ∈ file.imports.map partOf, ¬OpensComment part.block.pieces := by
    refine List.forall_mem_map.mpr fun declaration listed => ?_
    exact (isPlain_importPieces (isHeader.returns declaration listed).prints).starts
  unfold headerSheet Sheet.blocks
  cases spaced : file.firstNamespace? with
  | none => exact List.forall_mem_map.mpr inside
  | some space =>
      obtain ⟨opening, closing⟩ := (isHeader.space space spaced).plain
      intro block listed
      have listed' : block = space.frame.opening
          ∨ block ∈ (file.imports.map partOf).map Part.block ∨ block ∈ space.frame.closing := by
        simpa [Namespace.frame] using listed
      rcases listed' with rfl | here | here
      · exact opening.starts
      · obtain ⟨part, among, rfl⟩ := List.mem_map.mp here
        exact inside part among
      · exact (closing block here).starts

/-- A printed header is read as its blocks. -/
theorem exists_drawn (isHeader : file.IsHeader)
    : ∃ code sheet again,
        parse file.print = .ok again
        ∧ Drawn file.print [] "<?php".toList code sheet again
        ∧ sheet.bare = file.headerSheet.bare := by
  obtain ⟨rows, printed, fits, tidy⟩ := isHeader.exists_rows
  have newline : Text.IsEnding ['\n'] := .inl rfl
  have coded : Coded "<?php".toList [] "<?php".toList [] :=
    ⟨rfl, .inr ⟨"php".toList, rfl, rfl⟩, by decide⟩
  have coded' : Coded file.print [] "<?php".toList
      (printTrailing (none.map id) ++ (Row.printAll id ['\n'] rows ++ ['\n'])) := by
    rw [printed]
    exact coded.recode_rows newline Row.breaksLine_newline none
  obtain ⟨sheet, again, parsed, drawn, bare, _⟩ :=
    exists_drawn_of_rows coded' newline (fun _ given => given) nofun fits tidy
      (List.forall_mem_map.mpr isHeader.quiet) Row.breaksLine_newline Row.lays_newline
      (List.append_nil _) isHeader.isDrawable
  exact ⟨_, sheet, again, parsed, drawn, bare⟩

end SourceFile.IsHeader

-----------------------------------------------------------------------------------------
-- What is read back
-----------------------------------------------------------------------------------------

/-- How a namespace is opened: its name, and whether braces stand around its statements. -/
def Namespace.heading (space : Namespace) : Option Name × Bool :=
  (space.name?.map LocatedName.name, space.braced)

/-- The header of a file ends with its last import, on the line of the source on which that is
printed.
-/
def SourceFile.EndsWithImport (file : SourceFile) (source : Text) (declaration : Import) : Prop :=
  ∃ front behind stmt region,
    source = front ++ declaration.print ++ behind
    ∧ file.importScope.getLast? = some stmt
    ∧ stmt.span? = some ⟨front.size, (front ++ declaration.print).size⟩
    ∧ file.headerRegion? = some region
    ∧ region.line = front.count '\n'
    ∧ region.stop = (front ++ declaration.print).size

namespace Parser.Describes

variable {source : Text} {sheet : Sheet} {file : SourceFile}

/-- A namespace is opened as its frame says. -/
theorem heading_eq (describes : Describes source sheet file.items)
    : file.firstNamespace?.map Namespace.heading
      = sheet.frame?.map fun frame => (frame.name?, frame.braced) := by
  cases framed : sheet.frame? with
  | none => rw [(describes.flat_eq framed).1, Option.map_none, Option.map_none]
  | some frame =>
      obtain ⟨space, first, spaced⟩ := describes.space framed
      rw [first, Option.map_some, Option.map_some, Namespace.heading, spaced.name_eq,
        spaced.braced_eq]

/-- Each statement of the import scope imports what its part does. -/
theorem scope_imports (describes : Describes source sheet file.items)
    : file.importScope.map Stmt.imported? = sheet.inside.map Part.import? := by
  have pairs := describes.scope
  generalize file.importScope = stmts at pairs
  generalize sheet.inside = parts at pairs
  induction pairs with
  | nil => rfl
  | cons isPart _ ih => rw [List.map_cons, List.map_cons, ih, imported?_of_isPart isPart]

end Parser.Describes

namespace SourceFile.IsHeader

variable {file again : SourceFile} {markup tag code : Text} {sheet : Sheet}

theorem map_bare_frame? (bare : sheet.bare = file.headerSheet.bare)
    : sheet.frame?.map Frame.bare = file.firstNamespace?.map fun space => space.frame.bare := by
  have frames := congrArg Sheet.frame? bare
  change sheet.frame?.map Frame.bare = (file.firstNamespace?.map Namespace.frame).map Frame.bare
    at frames
  rwa [Option.map_map] at frames

theorem map_bare_inside (bare : sheet.bare = file.headerSheet.bare)
    : sheet.inside.map Part.bare = (file.imports.map partOf).map Part.bare :=
  congrArg Sheet.inside bare

/-- A file that is read from the blocks of a header is opened as that is, from the root. -/
theorem heading_eq (describes : Describes file.print sheet again.items)
    (bare : sheet.bare = file.headerSheet.bare)
    : again.firstNamespace?.map Namespace.heading
      = file.firstNamespace?.map fun space =>
          (space.name?.map fun located => located.name.imported, space.braced) := by
  have headings := congrArg (Option.map fun frame => (frame.name?, frame.braced))
    (map_bare_frame? bare)
  rw [Option.map_map, Option.map_map] at headings
  rw [describes.heading_eq]
  exact headings

/-- It imports what that does. -/
theorem scope_imports (isHeader : file.IsHeader)
    (describes : Describes file.print sheet again.items) (bare : sheet.bare = file.headerSheet.bare)
    : again.importScope.map Stmt.imported? = file.importScope.map Stmt.imported? := by
  have bareless (parts : List Part)
      : (parts.map Part.bare).map Part.import? = parts.map Part.import? := by
    rw [List.map_map]
    rfl
  have printed : ∀ declaration ∈ file.imports,
      (partOf declaration).import? = some declaration.unplaced := fun declaration listed =>
    congrArg some (isHeader.isHeaderImport declaration listed).reread_eq
  calc again.importScope.map Stmt.imported?
    _ = (file.imports.map partOf).map Part.import? := by
      rw [describes.scope_imports, ← bareless, map_bare_inside bare, bareless]
    _ = file.imports.map fun declaration => some declaration.unplaced := by
      rw [List.map_map]
      exact List.map_congr_left printed
    _ = file.importScope.map Stmt.imported? := by
      have imports := isHeader.imports
      unfold SourceFile.imports
      generalize file.importScope = stmts at imports
      induction stmts with
      | nil => rfl
      | cons stmt stmts ih =>
          obtain ⟨declaration, found, _⟩ := (imports stmt List.mem_cons_self).declares
          rw [List.filterMap_cons_some found, List.map_cons, List.map_cons, Stmt.imported?, found,
            ih fun other listed => imports other (List.mem_cons_of_mem _ listed)]
          rfl

/-- It passes the check of headers. -/
theorem checkStructure (describes : Describes file.print sheet again.items)
    (bare : sheet.bare = file.headerSheet.bare)
    : again.checkStructure = .ok () := by
  refine describes.checkStructure_iff.mpr ⟨fun frame here part listed => ?_, ?_⟩
  · -- Nothing stands before the namespace.
    have frames := map_bare_frame? bare
    rw [Option.mem_def.mp here, Option.map_some] at frames
    obtain ⟨space, _, same⟩ := Option.map_eq_some_iff.mp frames.symm
    have before : [] = frame.before.map Part.bare := congrArg Frame.before same
    rw [List.map_eq_nil_iff.mp before.symm] at listed
    cases listed
  · have imports : ∀ stmt ∈ again.importScope, stmt.isImport = true := by
      intro stmt listed
      obtain ⟨part, here, isPart⟩ := Pairing.exists_left describes.scope listed
      rw [isImport_of_isPart isPart]
      exact Part.forall_of_bare (·.2.1.isSome = true) (map_bare_inside bare)
        (imports_map_partOf file.imports) part here
    have run : strayImport? ([] ++ (again.importScope ++ [])) = none :=
      strayImport?_of_run nofun imports nofun
    rwa [List.nil_append, List.append_nil] at run

/-- Its header ends with the last import. -/
theorem endsWithImport (isHeader : file.IsHeader)
    (drawn : Drawn file.print markup tag code sheet again)
    (bare : sheet.bare = file.headerSheet.bare) {declaration : Import}
    (last : file.imports.getLast? = some declaration)
    : again.EndsWithImport file.print declaration := by
  obtain ⟨earlier, imports⟩ := List.getLast?_eq_some_iff.mp last
  have returns := isHeader.returns declaration (List.mem_of_getLast? last)
  have inside := map_bare_inside bare
  rw [imports, List.map_append, List.map_append] at inside
  obtain ⟨frame?, parts⟩ := sheet
  obtain ⟨upper, final, rfl, _, same⟩ := List.map_eq_append_iff.mp inside
  obtain ⟨part, rfl, part_eq⟩ := List.map_eq_singleton_iff.mp same
  have pieces : part.block.pieces = importPieces declaration :=
    congrArg (fun part => part.block.pieces) part_eq
  have isImport : part.essence.2.1.isSome = true := by
    have essence := congrArg Part.essence part_eq
    change part.essence = (partOf declaration).essence at essence
    rw [essence]
    rfl
  have drawn' : Drawn file.print markup tag code ⟨frame?, upper ++ ([part] ++ [])⟩ again := drawn
  have solid : IsSolid part.block.pieces := pieces ▸ isSolid_importPieces returns.prints
  obtain ⟨trailing?, region⟩ := drawn'.region_of_import solid isImport nofun
  obtain ⟨stmts, single, scope, _, pairs⟩ := Pairing.split drawn.describes.scope
  cases pairs with
  | @cons _ stmt _ _ isPart none =>
      cases none
      obtain ⟨front, whole, placed⟩ := isPart.placed
      rw [pieces, joined_importPieces] at whole placed
      have single : '\n' ∉ declaration.print := by
        rw [← joined_importPieces]
        exact not_mem_importPieces rfl (printable_import returns.1).1
      refine ⟨front, part.block.behind, stmt, _, whole, ?_, ?_, region, ?_, ?_⟩
      · rw [scope, List.getLast?_concat]
      · rw [placed, Text.size_append]
      · rw [regionBefore, whole, Text.lineBefore_append, List.count_append,
          List.count_eq_zero_of_not_mem single, Nat.add_zero]
      · rw [regionBefore, whole, Text.size_append _ part.block.behind, Nat.add_sub_cancel]

end SourceFile.IsHeader

/-- A header that is printed is read back, and passes the check. Its namespace has the same form and
the same name, with no backslash before it. The imports are the same in the same order, and the
header ends on the line of the last of them.
-/
theorem parse_print_of_header {file : SourceFile} (isHeader : file.IsHeader)
    : ∃ again,
        parse file.print = .ok again
        ∧ again.checkStructure = .ok ()
        ∧ again.firstNamespace?.map Namespace.heading
          = file.firstNamespace?.map (fun space =>
              (space.name?.map fun located => located.name.imported, space.braced))
        ∧ again.importScope.map Stmt.imported? = file.importScope.map Stmt.imported?
        ∧ ∀ declaration ∈ file.imports.getLast?, again.EndsWithImport file.print declaration := by
  obtain ⟨code, sheet, again, parsed, drawn, bare⟩ := isHeader.exists_drawn
  refine ⟨again, parsed, ?_, ?_, ?_, ?_⟩
  · exact SourceFile.IsHeader.checkStructure drawn.describes bare
  · exact SourceFile.IsHeader.heading_eq drawn.describes bare
  · exact isHeader.scope_imports drawn.describes bare
  · intro declaration last
    exact isHeader.endsWithImport drawn bare last

/-- A header with braces around the import of a group. -/
theorem parse_print_of_header_of_group
    : ∃ file again : SourceFile,
        file.print
        = "<?php\n\nnamespace A \x7b\n    use F\\\x7bfunction g, as as D\x7d;\n\x7d\n".toList
        ∧ file.IsHeader
        ∧ parse file.print = .ok again
        ∧ again.checkStructure = .ok ()
        ∧ again.firstNamespace?.map Namespace.heading = file.firstNamespace?.map Namespace.heading
        ∧ again.importScope.map Stmt.imported? = file.importScope.map Stmt.imported?
        ∧ ∀ declaration ∈ file.imports.getLast?, again.EndsWithImport file.print declaration := by
  obtain ⟨file, isHeader, printed, same⟩ : ∃ file : SourceFile,
      file.IsHeader
      ∧ file.print
        = "<?php\n\nnamespace A \x7b\n    use F\\\x7bfunction g, as as D\x7d;\n\x7d\n".toList
      ∧ file.firstNamespace?.map Namespace.heading
        = file.firstNamespace?.map fun space =>
            (space.name?.map fun located => located.name.imported, space.braced) := by
    refine ⟨⟨none, some ⟨"<?php".toList, default, none⟩,
        [.scope ⟨some ⟨⟨["A".toList], .unqualified⟩, default, List.cons_ne_nil _ _⟩, true, default,
          none,
          [{ kind := .importing ⟨.classLike, some ⟨["F".toList], .unqualified⟩,
              [⟨⟨["g".toList], .unqualified⟩, none, some .function, none⟩,
                ⟨⟨["as".toList], .unqualified⟩, some "D".toList, none, none⟩]⟩ }],
          default, [], []⟩],
        [], default⟩,
      ⟨rfl, ⟨_, rfl⟩, rfl, ?_, ?_⟩, by decide, by decide⟩
    · rintro _ ⟨rfl⟩
      exact ⟨.inl rfl, by decide, rfl, rfl⟩
    · intro stmt listed
      obtain rfl := List.mem_singleton.mp listed
      exact ⟨⟨_, rfl, ⟨by decide, by decide⟩, by decide, by decide, by decide⟩, rfl, rfl⟩
  obtain ⟨again, parsed, checked, heading, imports, ends⟩ := parse_print_of_header isHeader
  exact ⟨file, again, printed, isHeader, parsed, checked, heading.trans same.symm, imports, ends⟩

end ImportHeader
