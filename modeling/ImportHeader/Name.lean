import ImportHeader.Text.Basic

/-! Names of classes, functions and constants: segments separated by backslashes.
The written form says from where a name is looked up.
-/

namespace ImportHeader

/-- How a name is written: one plain segment, several, with a leading backslash, or
anchored by `namespace\`.
-/
inductive NameForm where
  | unqualified
  | qualified
  | fullyQualified
  | relative
deriving DecidableEq, Inhabited, Hashable, Ord

/-- A name, as its segments and its written form. -/
structure Name where
  segments : List Text
  form : NameForm
deriving DecidableEq, Inhabited, Hashable

/-- The place of an import in the order of imports. -/
structure SortKey where
  depth : Nat
  text : Text
deriving DecidableEq, Inhabited

/-- The order of imports: fewer segments first, then by the joined name. -/
def SortKey.le (left right : SortKey) : Bool :=
  ((compare left.depth right.depth).then (compare left.text right.text)).isLE

namespace SortKey

/-- The comparison of sort keys: by depth, then by text. -/
theorem le_eq (left right : SortKey)
    : left.le right = (compareLex (compareOn depth) (compareOn text) left right).isLE :=
  rfl

theorem le_trans (left middle right : SortKey) (first : left.le middle = true)
    (second : middle.le right = true)
    : left.le right = true := by
  rw [le_eq] at first second ⊢
  exact Std.TransCmp.isLE_trans first second

theorem le_total (left right : SortKey) : (left.le right || right.le left) = true := by
  have swap : compareLex (compareOn depth) (compareOn text) left right
      = (compareLex (compareOn depth) (compareOn text) right left).swap :=
    Std.OrientedCmp.eq_swap
  rw [le_eq, le_eq, swap]
  cases compareLex (compareOn depth) (compareOn text) right left <;> rfl

end SortKey

namespace Name

/-- The keyword that anchors a relative name. -/
def anchor : Text :=
  "namespace\\"

/-- The form of a name without an anchor, by its segments. -/
def plainForm (segments : List Text) : NameForm :=
  if segments.length > 1 then .qualified else .unqualified

/-- The name with the given segments and no anchor; there must be one, and none empty. -/
def ofSegments? (segments : List Text) : Option Name :=
  if segments.isEmpty || segments.any List.isEmpty then
    none
  else
    some ⟨segments, plainForm segments⟩

/-- The anchor of a written name, if it has one, and what stands behind it. The keyword
of a relative name is read in any letter case.
-/
def splitAnchor (text : Text) : Option NameForm × Text :=
  match text with
  | '\\' :: rest => (some .fullyQualified, rest)
  | _ =>
      if Text.sameFolded (text.take anchor.length) anchor then
        (some .relative, text.drop anchor.length)
      else
        (none, text)

/-- Reads a written name; an empty segment makes it no name. -/
def ofText? (text : Text) : Option Name :=
  let (anchored, rest) := splitAnchor text
  let segments := Text.pieces '\\' rest
  if segments.any List.isEmpty then
    none
  else
    some ⟨segments, anchored.getD (plainForm segments)⟩

/-- A written name has a segment. -/
theorem segments_ne_nil_of_ofText? {text : Text} {name : Name} (read : ofText? text = some name)
    : name.segments ≠ [] := by
  unfold ofText? at read
  dsimp only at read
  split at read
  · cases read
  · cases read
    exact Text.splitBy_ne_nil _ _

/-- The segments with backslashes between them, without the anchor. -/
def joined (name : Name) : Text :=
  List.intercalate ['\\'] name.segments

/-- A name as it is written, anchor included. -/
def display (name : Name) : Text :=
  match name.form with
  | .fullyQualified => '\\' :: name.joined
  | .relative => anchor ++ name.joined
  | .unqualified | .qualified => name.joined

/-- The number of segments. -/
def length (name : Name) : Nat :=
  name.segments.length

/-- The first segment: the part that an import can bind. -/
def first (name : Name) : Text :=
  name.segments.headD []

/-- The last segment: the part that a plain import binds. -/
def last (name : Name) : Text :=
  name.segments.getLastD []

/-- A name whose meaning hangs on the imports of its file. -/
def isImportable (name : Name) : Bool :=
  match name.form with
  | .unqualified | .qualified => true
  | .fullyQualified | .relative => false

/-- The name of the first `count` segments; none of zero segments. -/
def take? (name : Name) (count : Nat) : Option Name :=
  ofSegments? (name.segments.take count)

/-- One name below another. -/
def append (name below : Name) : Name :=
  ⟨name.segments ++ below.segments, .qualified⟩

instance : Append Name := ⟨append⟩

/-- Whether the last segments of a name are those of another. -/
def endsWith (name ending : Name) : Bool :=
  ending.segments.isSuffixOf name.segments

/-- Whether the first segments of a name are those of another. -/
def startsWith (name beginning : Name) : Bool :=
  beginning.segments.isPrefixOf name.segments

/-- An imported name starts at the root whether or not a backslash leads it. -/
def imported (name : Name) : Name :=
  (ofSegments? name.segments).getD name

/-- The place of a name in the order of imports. -/
def sortKey (name : Name) : SortKey :=
  ⟨name.length, name.joined⟩

instance : Ord Name where
  compare left right :=
    (compare left.segments right.segments).then (compare left.form right.form)

end Name

end ImportHeader
