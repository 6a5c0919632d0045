import ImportHeader.Tree.Outline
import ImportHeader.Reference.DocType
import ImportHeader.Reference.IgnoreSet

/-! What a file says about class names: the imports that bind them, the places that need
them, the names that are only mentioned, and the classes that it declares.
-/

namespace ImportHeader

/-- The places at which a class name can stand. -/
inductive ReferenceKind where
  | creation
  | parent
  | interface
  | staticAccess
  | paramType
  | returnType
  | propertyType
  | instanceOf
  | caught
  | traitUse
  | attr
deriving DecidableEq, Inhabited

/-- A class name that an import can bind, and where it stands. -/
structure Reference where
  name : Name
  kind : ReferenceKind
  position : Position
deriving DecidableEq, Inhabited

/-- One name bound by an import declaration. -/
structure ImportEntry where
  name : Name
  bound : Text
  kind : ImportKind
  position : Position
deriving DecidableEq, Inhabited

/-- All that a file says about class names, each list in the order of the source. -/
structure Extraction where
  imports : List ImportEntry
  candidates : List Reference
  mentions : List Text
  declared : List Text
deriving DecidableEq, Inhabited

/-- The kind of a reference from a type. -/
def TypeRole.referenceKind : TypeRole → ReferenceKind
  | .param => .paramType
  | .result => .returnType
  | .property => .propertyType

namespace Node

/-- The class names that stand at a node itself, not inside it. -/
def references : Node → List (LocatedName × ReferenceKind)
  | .classLike declaration =>
      declaration.parents.map (·, .parent) ++ declaration.interfaces.map (·, .interface)
  | .member (.traitUse traits _) => traits.map (·, .traitUse)
  | .type role hint => hint.map (·, role.referenceKind)
  | .expr (.new target _) => [(target, .creation)]
  | .expr (.staticAccess target) => [(target, .staticAccess)]
  | .expr (.instanceOf target) => [(target, .instanceOf)]
  | .expr (.catches targets) => targets.map (·, .caught)
  | .expr (.attr target _) => [(target, .attr)]
  | _ => []

/-- The references at a node that an import can serve. -/
def candidates (lines : LineIndex) (node : Node) : List Reference :=
  node.references.filterMap fun (located, kind) =>
    if located.name.isImportable then
      some ⟨located.name, kind, lines.positionAt located.span.start⟩
    else
      none

/-- The names that a node binds as an import. -/
def importEntries (lines : LineIndex) : Node → List ImportEntry
  | .importing declaration =>
      declaration.items.map fun item => {
        name := declaration.fullName item
        bound := item.bound
        kind := declaration.itemKind item
        position := item.span?.elim ⟨0, 0⟩ fun span => lines.positionAt span.start }
  | _ => []

/-- The first segment of a function or constant name, which can be an alias too. -/
def mention? : Node → Option Text
  | .expr (.qualifiedUse target) => some target.name.first
  | _ => none

/-- The name of the class that a node declares. -/
def declared? : Node → Option Text
  | .classLike declaration => declaration.name?
  | _ => none

end Node

/-- Collects what a file says about class names. -/
def SourceFile.extract (file : SourceFile) : Extraction where
  imports := file.nodes.flatMap (Node.importEntries file.lines)
  candidates := file.nodes.flatMap (Node.candidates file.lines)
  mentions := file.nodes.filterMap Node.mention? ++ file.docComments.flatMap DocType.mentions
  declared := file.nodes.filterMap Node.declared?

/-- The names of a class from inside it, which no import binds. -/
def Name.isReserved (name : Name) : Bool :=
  name.length == 1
    && (["self", "parent", "static"] : List Text).any (Text.sameFolded name.first)

namespace Extraction

/-- The imports of classes. -/
def classImports (extraction : Extraction) : List ImportEntry :=
  extraction.imports.filter fun entry => entry.kind == .classLike

/-- Whether an import of a class binds the given segment. -/
def binds (extraction : Extraction) (segment : Text) : Bool :=
  extraction.classImports.any fun entry => Text.sameFolded entry.bound segment

/-- The references that still need an import: not those that an import serves, those
reserved, or those to be ignored.
-/
def references (extraction : Extraction) (ignored : IgnoreSet) : List Reference :=
  extraction.candidates.filter fun reference =>
    !extraction.binds reference.name.first && !reference.name.isReserved
      && !ignored.contains reference.name

/-- Whether a bound name is the first segment of a reference, or is mentioned. -/
def uses (extraction : Extraction) (bound : Text) : Bool :=
  extraction.candidates.any (fun reference => Text.sameFolded reference.name.first bound)
    || extraction.mentions.any (Text.sameFolded · bound)

/-- The imports of classes that nothing uses. Imports of functions and constants are never
among them.
-/
def unusedImports (extraction : Extraction) : List ImportEntry :=
  extraction.classImports.filter fun entry => !extraction.uses entry.bound

end Extraction

end ImportHeader
