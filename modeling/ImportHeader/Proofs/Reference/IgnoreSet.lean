import ImportHeader.Reference.IgnoreSet
import Std.Data.HashSet.Lemmas

/-! The members of an ignore set: names are compared by their joined form in lower case. -/

namespace ImportHeader

namespace IgnoreSet

variable {ignored : IgnoreSet} {name : Name}

theorem contains_empty : empty.contains name = false :=
  Std.HashSet.contains_empty

theorem contains_insert (text : Text)
    : (ignored.insert text).contains name
      = (Text.sameFolded text name.joined || ignored.contains name) :=
  Std.HashSet.contains_insert

/-- Adding names adds those that they spell, and keeps what there was. -/
theorem contains_insertAll (texts : List Text)
    : (ignored.insertAll texts).contains name
      = (ignored.contains name || texts.any (Text.sameFolded · name.joined)) := by
  induction texts generalizing ignored with
  | nil => exact (Bool.or_false _).symm
  | cons text rest ih =>
      have next : ignored.insertAll (text :: rest) = (ignored.insert text).insertAll rest := rfl
      rw [next, ih, contains_insert, List.any_cons, Bool.or_comm (Text.sameFolded _ _),
        Bool.or_assoc]

end IgnoreSet

end ImportHeader
