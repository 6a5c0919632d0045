import ImportHeader.Proofs.Header.Layout
import ImportHeader.Proofs.Parser.Sheet
import ImportHeader.Proofs.Token.Imports

/-! The printed opening of a namespace. It is one block, which is read as the opening of a
namespace with the same name.
-/

namespace ImportHeader

open ImportHeader.Lexer

namespace Lexer

/-- The mark behind the name of a namespace. -/
def openingMark : Bool → Piece
  | true => (.leftBrace, ['{'])
  | false => (.semicolon, [';'])

/-- The pieces of the printed opening of a namespace. -/
def openingPieces (name? : Option Name) (braced : Bool) : List Piece :=
  word "namespace"
    :: ((name?.toList.flatMap fun name => [blank, word name.joined])
      ++ ((if braced then [blank] else []) ++ [openingMark braced]))

theorem stands_openingMark (braced : Bool) (text : Text) : Stands [openingMark braced] text := by
  cases braced with
  | true => exact stands_cons.mpr ⟨rfl, stands_nil⟩
  | false => exact stands_cons.mpr ⟨rfl, stands_nil⟩

/-- The end of an opening, from behind its name. -/
theorem stands_openingEnd (braced : Bool) (text : Text)
    : Stands ((if braced then [blank] else []) ++ [openingMark braced]) text
      ∧ EndsName (joined ((if braced then [blank] else []) ++ [openingMark braced]) ++ text) := by
  cases braced with
  | true =>
      refine ⟨stands_cons_append (stands_blank ?_) (stands_openingMark true text), rfl⟩
      intro c first
      obtain rfl : '{' = c := by simpa [openingMark] using first
      rfl
  | false => exact ⟨stands_openingMark false text, rfl⟩

/-- A printed opening is cut into its pieces, whatever stands behind it. -/
theorem stands_openingPieces {name? : Option Name} (braced : Bool)
    (spelled : ∀ name ∈ name?, name.isSpelled = true) (text : Text)
    : Stands (openingPieces name? braced) text := by
  obtain ⟨final, ends⟩ := stands_openingEnd braced text
  cases name? with
  | none => exact stands_cons_append (stands_of_isWritten (isWritten_of_isIdentifier rfl) ends) final
  | some name =>
      have written := Name.isWritten_joined (spelled name rfl)
      refine stands_cons_append (stands_of_isWritten (isWritten_of_isIdentifier rfl) rfl)
        (stands_cons_append (stands_blank ?_)
          (stands_cons_append (stands_of_isWritten written ends) final))
      change ∀ c ∈ (name.joined ++ _ ++ text).head?, isSpace c = false
      rw [List.append_assoc]
      exact head?_of_isWritten written

theorem isBlock_openingPieces (name? : Option Name) (braced : Bool)
    : IsBlock (openingPieces name? braced) := by
  refine ⟨⟨_, _, rfl, rfl⟩, ?_⟩
  refine ⟨word "namespace" :: ((name?.toList.flatMap fun name => [blank, word name.joined])
    ++ (if braced then [blank] else [])), openingMark braced, by simp [openingPieces], ?_⟩
  cases braced with
  | true => rfl
  | false => rfl

/-- A printed opening holds no foreign character. -/
theorem not_mem_openingPieces {c : Char} (foreign : isForeign c = true) {name? : Option Name}
    (braced : Bool) (spelled : ∀ name ∈ name?, name.isSpelled = true)
    : c ∉ joined (openingPieces name? braced) := by
  obtain ⟨other, space, slash, _, semicolon, opening, _⟩ := isForeign_iff.mp foreign
  refine not_mem_joined fun piece listed => ?_
  simp only [openingPieces, List.mem_cons, List.mem_append, List.mem_flatMap, Option.mem_toList,
    List.not_mem_nil, or_false] at listed
  rcases listed with rfl | ⟨name, given, rfl | rfl⟩ | here | rfl
  · exact not_mem_of_isIdentifier rfl other
  · simp [blank, space]
  · exact (Name.isWritten_joined (spelled name given)).not_mem other slash
  · cases braced with
    | true =>
        obtain rfl : piece = blank := by simpa using here
        simp [blank, space]
    | false => cases here
  · cases braced with
    | true => simp [openingMark, opening]
    | false => simp [openingMark, semicolon]

theorem solids_openingPieces (name? : Option Name) (braced : Bool)
    : solids (openingPieces name? braced)
      = word "namespace"
        :: (name?.toList.map (fun name => word name.joined) ++ [openingMark braced]) := by
  cases name? with
  | none => cases braced <;> rfl
  | some name => cases braced <;> rfl

end Lexer

theorem startsSpace_openingPieces (name? : Option Name) (braced : Bool)
    : StartsSpace (openingPieces name? braced) := by
  refine ⟨⟨"namespace", _, solids_openingPieces name? braced, rfl⟩, fun last isLast => ?_⟩
  rw [solids_openingPieces, ← List.cons_append, List.getLast?_concat] at isLast
  obtain rfl := Option.some.inj isLast
  cases braced <;> decide

/-- A printed opening opens a namespace with the same name. -/
theorem opens_openingPieces {name? : Option Name} {braced : Bool}
    (printable : ∀ name ∈ name?, name.isPrintable = true)
    (known : braced = true ∨ name?.isSome = true)
    : Opens (openingPieces name? braced) (name?.map Name.imported) braced := by
  refine ⟨"namespace", (openingMark braced).2, rfl, ?_⟩
  rw [solids_openingPieces]
  cases name? with
  | none =>
      obtain rfl := known.resolve_right (by simp)
      exact ⟨rfl, rfl⟩
  | some name =>
      refine ⟨name.joined, Name.ofText?_joined (printable name rfl), ?_⟩
      cases braced <;> rfl

/-- A printed opening whose name can be written opens a namespace. -/
theorem exists_opens_openingPieces {name? : Option Name} {braced : Bool}
    (spelled : ∀ name ∈ name?, name.isSpelled = true)
    (known : braced = true ∨ name?.isSome = true)
    : ∃ read?, Opens (openingPieces name? braced) read? braced := by
  cases name? with
  | none =>
      obtain rfl := known.resolve_right (by simp)
      exact ⟨none, "namespace", ['{'], rfl, rfl, rfl⟩
  | some name =>
      obtain ⟨read, same⟩ := Name.exists_ofText?_joined (spelled name rfl)
      refine ⟨some read, "namespace", (openingMark braced).2, rfl, name.joined, same, ?_⟩
      rw [solids_openingPieces]
      cases braced <;> rfl

theorem Namespace.openingCode_eq (space : Namespace)
    : space.openingCode
      = joined (openingPieces (space.name?.map LocatedName.name) space.braced) := by
  unfold Namespace.openingCode openingPieces
  cases space.name? with
  | none => cases space.braced <;> rfl
  | some located =>
      cases space.braced <;> simp [word, blank, openingMark, joined]

end ImportHeader
