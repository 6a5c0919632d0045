import ImportHeader.Config
import ImportHeader.Diagnostic
import ImportHeader.Header.Edit
import ImportHeader.Reference.Extraction
import ImportHeader.Symbol.Resolution

/-! One run over one file: imports that nothing uses are removed, references that the index
resolves are imported, and the imports are put in order.
-/

namespace ImportHeader

/-- The result of a run: the new text, the imports added and removed, and what there is to
report.
-/
structure Outcome where
  text : Text
  added : List Name
  removed : List Name
  diagnostics : List Diagnostic
  changed : Bool
deriving DecidableEq, Inhabited

namespace Outcome

/-- The result of a run that changes nothing. -/
def unchanged (source : Text) (diagnostics : List Diagnostic) : Outcome :=
  ⟨source, [], [], diagnostics, false⟩

/-- The reports that are warnings. -/
def warnings (outcome : Outcome) : List Diagnostic :=
  outcome.diagnostics.filter Diagnostic.isWarning

end Outcome

/-- The names that a file needs no import for, by the settings and by its own scope. -/
def ignoreSet (config : Config) (file : SourceFile) (extraction : Extraction)
    (index : SymbolIndex) : IgnoreSet :=
  let space? := (file.firstNamespace?.bind Namespace.name?).map LocatedName.name
  ((IgnoreSet.start config.builtins).insertAll config.ignore).addScope extraction.declared
    space? index

/-- The place of the first reference with a given name. -/
def positionOf (references : List Reference) (name : Name) : Position :=
  ((references.find? fun reference => reference.name == name).map Reference.position).getD
    ⟨0, 0⟩

/-- The place of the first import of a given name. -/
def importPosition (extraction : Extraction) (name : Name) : Position :=
  ((extraction.imports.find? fun entry => entry.name.segments == name.segments).map
    ImportEntry.position).getD ⟨0, 0⟩

/-- Imports put into a file: the edit, the names added, and the resolutions whose local name
is taken by another import.
-/
structure Additions where
  edit : Edit
  added : List Name
  skipped : List (Name × Name)

/-- Imports what references resolve to, in order. -/
def Edit.addResolved (edit : Edit) : List Resolution → Additions
  | [] => ⟨edit, [], []⟩
  | ⟨reference, found?⟩ :: rest =>
      match found? with
      | none => edit.addResolved rest
      | some name =>
          if edit.isImported name then
            edit.addResolved rest
          else if edit.isBound name.last then
            let others := edit.addResolved rest
            { others with skipped := (reference, name) :: others.skipped }
          else
            let others := (edit.add name).addResolved rest
            { others with added := name :: others.added }

/-- What a run does to a file: the edit with its removals and additions, the names removed and
added, and what there is to report.
-/
structure Plan where
  edit : Edit
  added : List Name
  removed : List Name
  diagnostics : List Diagnostic

/-- Plans a run by the resolutions of its references: the imports that nothing uses are
removed, then what the references resolve to is imported. Unresolved references are reported
first, then removals, then imports that were left out.
-/
def Edit.planFor (edit : Edit) (extraction : Extraction) (references : List Reference)
    (resolutions : List Resolution) : Plan :=
  let aliases := extraction.unusedImports.map ImportEntry.bound
  let removed := edit.removable aliases
  let additions := (edit.remove aliases).addResolved resolutions
  let unresolved := resolutions.filter fun resolution => resolution.found?.isNone
  {
    edit := additions.edit
    added := additions.added
    removed
    diagnostics :=
      (unresolved.map fun ⟨reference, _⟩ =>
        .unresolved (positionOf references reference) reference)
      ++ (removed.map fun name => .removed (importPosition extraction name) name)
      ++ additions.skipped.map fun (reference, name) =>
        .skipped (positionOf references reference) name name.last
  }

/-- Plans a run, with the references resolved in an index. -/
def Edit.plan (edit : Edit) (extraction : Extraction) (references : List Reference)
    (index : SymbolIndex) : Plan :=
  edit.planFor extraction references (index.resolveAll (references.map Reference.name))

namespace Plan

/-- Whether there is nothing to do: nothing is removed or added, and the imports are in
order.
-/
def isIdle (plan : Plan) : Bool :=
  plan.added.isEmpty && plan.removed.isEmpty && plan.edit.isSorted

/-- Carries out a plan. -/
def outcome (plan : Plan) (source : Text) : Except Error Outcome :=
  if plan.isIdle then
    return .unchanged source plan.diagnostics
  else do
    let text ← plan.edit.sort.finish
    return ⟨text, plan.added, plan.removed, plan.diagnostics, text != source⟩

end Plan

/-- Runs over a source. A file without code stays as it is. -/
def fixImports (source : Text) (index : SymbolIndex) (config : Config)
    : Except Error Outcome := do
  let file ← (parse source).mapError .parse
  if file.hasCode then
    let edit ← (Edit.start file source).mapError .header
    let extraction := file.extract
    let references := extraction.references (ignoreSet config file extraction index)
    (edit.plan extraction references index).outcome source
  else
    return .unchanged source []

end ImportHeader
