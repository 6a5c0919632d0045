import ImportHeader.Proofs.Parser.Balance
import ImportHeader.Proofs.Text.Positions
import Mathlib.Data.List.Nodup

/-! The candidates of a file are faithful and complete. They are the class names of its tree that
an import can serve, each stands where a token of the source spells it, and no two stand at the
same place.
-/

namespace ImportHeader

-----------------------------------------------------------------------------------------
-- Names and their tokens
-----------------------------------------------------------------------------------------

/-- The name of a token starts where the token does. -/
theorem Token.eq_of_located? {token : Token} {located : LocatedName}
    (spelled : token.located? = some located)
    : token.kind = .name ∧ Name.ofText? token.text = some located.name
      ∧ located.span.start = token.offset := by
  unfold located? at spelled
  split at spelled
  · rename_i kind
    have read := LocatedName.map_name_read? token.text token.span
    rw [spelled, Option.map_some] at read
    refine ⟨kind, read.symm, ?_⟩
    rw [LocatedName.span_of_read? spelled]
    rfl
  · cases spelled

/-- Tokens of a source have later and later offsets. -/
theorem pairwise_offset {source : Text} {tokens : List Token}
    (inside : tokens.Sublist (tokenize source))
    : tokens.Pairwise fun left right => left.offset < right.offset := by
  refine List.Pairwise.imp_of_mem (fun listed _ apart => ?_)
    ((pairwise_tokenize source).sublist inside)
  exact Nat.lt_of_lt_of_le (offset_lt_stop_of_mem_tokenize (inside.subset listed)) apart

/-- Names of a source stand one behind the other. -/
theorem pairwise_namesOf {source : Text} {tokens : List Token}
    (inside : tokens.Sublist (tokenize source))
    : (namesOf tokens).Pairwise fun left right => left.span.start < right.span.start := by
  refine List.Pairwise.filterMap _ (fun left right less name spelled name' spelled' => ?_)
    (pairwise_offset inside)
  rw [(Token.eq_of_located? spelled).2.2, (Token.eq_of_located? spelled').2.2]
  exact less

theorem tokensOfCode_sublist (source : Text)
    : (tokensOfCode source).Sublist (tokenize source) :=
  List.filter_sublist.trans ((List.tail_sublist _).trans (List.dropWhile_sublist _))

/-- The class names of a file are names of its code, each token once at most, and in the order of
the tokens if closures capture nothing but variables.
-/
theorem among_of_parse {source : Text} {file : SourceFile} (parsed : parse source = .ok file)
    : Among (capturesVariables (tokensOfCode source) = true) (Place.names file.places)
        (namesOf (tokensOfCode source)) := by
  have same : Place.names file.places
      = file.stmts.flatMap fun stmt => Place.names (Place.ofStmt stmt) := by
    rw [SourceFile.places, SourceFile.stmts, Place.names, List.map_flatMap, List.flatMap_assoc]
    refine List.flatMap_congr fun item _ => ?_
    cases item with
    | plain stmt => simp [Place.ofItem, Item.stmts, Place.names]
    | scope space => simp [Place.ofItem, Item.stmts, Place.names, List.map_flatMap]
  rw [same]
  exact among_of_view parsed fun root tokens => tokens ▸ Parser.shows_names

namespace SourceFile

variable {source : Text} {file : SourceFile}

/-- A class name of a file is spelled by a token of its source. -/
theorem exists_token_of_mem_places (parsed : parse source = .ok file) {place : Place}
    (listed : place ∈ file.places)
    : ∃ token ∈ tokenize source, token.kind = .name
        ∧ Name.ofText? token.text = some place.1.name
        ∧ place.1.span.start = token.offset := by
  have among := (among_of_parse parsed).each.subset (List.mem_map_of_mem listed)
  obtain ⟨token, inside, spelled⟩ := List.mem_filterMap.mp among
  exact ⟨token, (tokensOfCode_sublist source).subset inside, Token.eq_of_located? spelled⟩

/-- No two class names of a file start at the same place. -/
theorem nodup_starts (parsed : parse source = .ok file)
    : (file.places.map fun place => place.1.span.start).Nodup := by
  obtain ⟨chosen, same, inside⟩ := (among_of_parse parsed).each
  have apart := (pairwise_namesOf (tokensOfCode_sublist source)).sublist inside
  have distinct : (chosen.map fun located => located.span.start).Nodup :=
    List.pairwise_map.mpr (apart.imp Nat.ne_of_lt)
  have starts := ((same.map fun located => located.span.start).nodup_iff).mp distinct
  rwa [Place.names, List.map_map] at starts

end SourceFile

-----------------------------------------------------------------------------------------
-- Candidates and places
-----------------------------------------------------------------------------------------

/-- What is extracted from a place. -/
def Place.reference (lines : LineIndex) (place : Place) : Reference :=
  ⟨place.1.name, place.2, lines.positionAt place.1.span.start⟩

theorem Node.candidates_eq (lines : LineIndex) (node : Node)
    : node.candidates lines
      = (node.references.filter Place.isImportable).map (Place.reference lines) := by
  unfold candidates
  induction node.references with
  | nil => rfl
  | cons place rest ih =>
      cases importable : place.1.name.isImportable with
      | true => simpa [Place.isImportable, Place.reference, importable] using ih
      | false => simpa [Place.isImportable, importable] using ih

namespace SourceFile

variable {source : Text} {file : SourceFile}

/-- The candidates are what the walk meets and an import can serve. -/
theorem candidates_eq (file : SourceFile)
    : file.extract.candidates
      = ((Outline.references file.outline).filter Place.isImportable).map
          (Place.reference file.lines) := by
  rw [Outline.references, List.filter_flatMap, List.map_flatMap]
  exact List.flatMap_congr fun node _ => node.candidates_eq file.lines

/-- Up to their order, the candidates are the class names that an import can serve. -/
theorem candidates_perm (file : SourceFile)
    : file.extract.candidates.Perm
        ((file.places.filter Place.isImportable).map (Place.reference file.lines)) := by
  rw [candidates_eq]
  exact (file.meets_places.perm.filter _).map _

theorem exists_place_of_candidate {reference : Reference}
    (listed : reference ∈ file.extract.candidates)
    : ∃ place ∈ file.places, place.reference file.lines = reference := by
  obtain ⟨place, inside, same⟩ := List.mem_map.mp (file.candidates_perm.subset listed)
  exact ⟨place, List.mem_of_mem_filter inside, same⟩

/-- No two candidates stand at the same position. -/
theorem nodup_positions (parsed : parse source = .ok file)
    : (file.extract.candidates.map Reference.position).Nodup := by
  have lines := (parse_eq_ok parsed).2.2.1
  rw [(file.candidates_perm.map Reference.position).nodup_iff, lines, List.map_map]
  have fewer : (file.places.filter Place.isImportable).Sublist file.places := List.filter_sublist
  have starts := (nodup_starts parsed).sublist (fewer.map fun place => place.1.span.start)
  have positions := starts.map (LineIndex.positionAt_injective source)
  rwa [List.map_map] at positions

end SourceFile

/-- Extracted references are faithful and complete. With their kinds, the names of the candidates
are those of the tree that an import can serve, each as often as it stands there. Each candidate
stands at the start of a token that spells its name, and no two stand at the same position.
-/
theorem extract_finds_class_names {source : Text} {file : SourceFile}
    (parsed : parse source = .ok file)
    : (file.extract.candidates.map fun reference => (reference.name, reference.kind)).Perm
        ((file.places.filter Place.isImportable).map fun place => (place.1.name, place.2))
      ∧ (∀ reference ∈ file.extract.candidates,
          ∃ token ∈ tokenize source, token.kind = .name
            ∧ Name.ofText? token.text = some reference.name
            ∧ reference.position = (LineIndex.ofText source).positionAt token.offset)
      ∧ (file.extract.candidates.map Reference.position).Nodup := by
  refine ⟨?_, fun reference listed => ?_, SourceFile.nodup_positions parsed⟩
  · have same := file.candidates_perm.map fun reference => (reference.name, reference.kind)
    rwa [List.map_map] at same
  · obtain ⟨place, inside, rfl⟩ := SourceFile.exists_place_of_candidate listed
    obtain ⟨token, among, kind, spelled, start⟩ :=
      SourceFile.exists_token_of_mem_places parsed inside
    refine ⟨token, among, kind, spelled, ?_⟩
    rw [Place.reference, (parse_eq_ok parsed).2.2.1, start]

/-- A class with names in its attribute, its parent and its method, and one in a nested closure. -/
theorem extract_finds_class_names_of_nested_class
    : ∃ source file,
        source
          = "<?php\n#[A(B::C)]\nclass D extends E { function f(F $x) { g(fn() => new G); } }".toList
        ∧ parse source = .ok file
        ∧ file.places.map (fun place => place.1.name.joined)
          = ["A".toList, "B".toList, "E".toList, "F".toList, "G".toList]
        ∧ (file.extract.candidates.map fun reference => (reference.name, reference.kind)).Perm
            ((file.places.filter Place.isImportable).map fun place => (place.1.name, place.2))
        ∧ (file.extract.candidates.map Reference.position).Nodup := by
  obtain ⟨source, written⟩ : ∃ source : Text, source
      = "<?php\n#[A(B::C)]\nclass D extends E { function f(F $x) { g(fn() => new G); } }".toList :=
    ⟨_, rfl⟩
  obtain ⟨file, parsed, checked⟩ : ∃ file, parse source = .ok file
      ∧ (file.places.map (fun place => place.1.name.joined)
        == ["A".toList, "B".toList, "E".toList, "F".toList, "G".toList]) = true := by
    rw [written]
    exact exists_of_parses _ (by decide +kernel)
  obtain ⟨same, _, apart⟩ := extract_finds_class_names parsed
  exact ⟨source, file, written, parsed, eq_of_beq checked, same, apart⟩

end ImportHeader
