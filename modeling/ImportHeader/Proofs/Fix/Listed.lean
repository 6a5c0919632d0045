import ImportHeader.Proofs.Fix.Plan
import ImportHeader.Proofs.Reference.IgnoreSet
import ImportHeader.Proofs.Symbol.Index

/-! Runs without hash tables. The names that a file needs no import for are a list of texts,
and a reference is resolved among a list of entries; the result is that of the run with the
tables, and it can be computed where theirs cannot.
-/

namespace ImportHeader

/-- The names that a file needs no import for: built-in classes, those of the settings, those
that it declares, and those of its own namespace as seen from there.
-/
def ignoredTexts (config : Config) (file : SourceFile) (extraction : Extraction)
    (index : SymbolIndex) : List Text :=
  let space? := (file.firstNamespace?.bind Namespace.name?).map LocatedName.name
  (if config.builtins then builtinClasses else []) ++ config.ignore ++ extraction.declared
    ++ (index.relativeTo space?).map Name.joined

/-- A name is ignored exactly if one of the texts spells it, whatever the case. -/
theorem contains_ignoreSet (config : Config) (file : SourceFile) (extraction : Extraction)
    (index : SymbolIndex) (name : Name)
    : (ignoreSet config file extraction index).contains name
      = (ignoredTexts config file extraction index).any (Text.sameFolded · name.joined) := by
  have start : (IgnoreSet.start config.builtins).contains name
      = (if config.builtins then builtinClasses else []).any
          (Text.sameFolded · name.joined) := by
    unfold IgnoreSet.start
    split
    · rw [IgnoreSet.contains_insertAll, IgnoreSet.contains_empty, Bool.false_or]
    · exact IgnoreSet.contains_empty
  unfold ignoreSet IgnoreSet.addScope ignoredTexts
  dsimp only
  rw [IgnoreSet.contains_insertAll, IgnoreSet.contains_insertAll, IgnoreSet.contains_insertAll,
    start, List.any_append, List.any_append, List.any_append]

/-- The references that need an import, by the texts of the names to be ignored. -/
def Extraction.referencesBut (extraction : Extraction) (ignored : List Text) : List Reference :=
  extraction.candidates.filter fun reference =>
    !extraction.binds reference.name.first && !reference.name.isReserved
      && !ignored.any (Text.sameFolded · reference.name.joined)

/-- What a reference resolves to among a list of entries. -/
def resolveAmong? (entries : List SymbolEntry) (reference : Name) : Option Name :=
  let ending := entries.filter fun entry => entry.name.last == reference.last
  let matching := ending.filterMap (SymbolIndex.importFor? reference)
  (SymbolIndex.withoutRepeats
    (matching.mergeSort fun left right => left.sortKey.le right.sortKey)).head?

/-- A run over a source, with the index as a list of entries. -/
def fixImportsAmong (source : Text) (entries : List SymbolEntry) (config : Config)
    : Except Error Outcome := do
  let file ← (parse source).mapError .parse
  if file.hasCode then
    let edit ← (Edit.start file source).mapError .header
    let extraction := file.extract
    let references :=
      extraction.referencesBut (ignoredTexts config file extraction (.ofEntries entries))
    let resolutions := (firstSeen [] (references.map Reference.name)).map fun reference =>
      ⟨reference, resolveAmong? entries reference⟩
    (edit.planFor extraction references resolutions).outcome source
  else
    return .unchanged source []

theorem references_eq_referencesBut (config : Config) (file : SourceFile)
    (extraction : Extraction) (index : SymbolIndex)
    : extraction.references (ignoreSet config file extraction index)
      = extraction.referencesBut (ignoredTexts config file extraction index) := by
  unfold Extraction.references Extraction.referencesBut
  simp only [contains_ignoreSet]

theorem resolve?_ofEntries (entries : List SymbolEntry) (reference : Name)
    : (SymbolIndex.ofEntries entries).resolve? reference = resolveAmong? entries reference := by
  unfold SymbolIndex.resolve? SymbolIndex.candidates resolveAmong?
  rw [(SymbolIndex.holds_ofEntries entries).endingIn_eq]

/-- A run with an index is the run among the entries that the index was filled with. -/
theorem fixImports_ofEntries (source : Text) (entries : List SymbolEntry) (config : Config)
    : fixImports source (.ofEntries entries) config = fixImportsAmong source entries config := by
  unfold fixImports fixImportsAmong Edit.plan SymbolIndex.resolveAll
  simp only [references_eq_referencesBut, resolve?_ofEntries]

/-- Whether a run over a source succeeds, on a file with references that need an import and
with an outcome that pass a test.
-/
def succeeds (source : Text) (entries : List SymbolEntry) (config : Config)
    (test : SourceFile → List Reference → Outcome → Bool) : Bool :=
  match parse source, fixImportsAmong source entries config with
  | .ok file, .ok outcome =>
      let ignored := ignoredTexts config file file.extract (.ofEntries entries)
      test file (file.extract.referencesBut ignored) outcome
  | _, _ => false

/-- A source that passes the computed test has a run that succeeds. -/
theorem exists_of_succeeds (source : Text) (entries : List SymbolEntry) (config : Config)
    (test : SourceFile → List Reference → Outcome → Bool)
    (passes : succeeds source entries config test = true)
    : ∃ file references outcome,
        parse source = .ok file
        ∧ references
          = file.extract.references (ignoreSet config file file.extract (.ofEntries entries))
        ∧ fixImports source (.ofEntries entries) config = .ok outcome
        ∧ test file references outcome = true := by
  unfold succeeds at passes
  split at passes
  · rename_i file outcome parsed done
    exact ⟨file, _, outcome, parsed, (references_eq_referencesBut config file _ _).symm,
      (fixImports_ofEntries source entries config).trans done, passes⟩
  · cases passes

end ImportHeader
