import ImportHeader.Proofs.Token.Markup
import Mathlib.Data.List.Nodup

/-! All tokens of a source. They join to the source, each stands where those before it end, and
markup is a token only at the start: it goes to the first place where code begins, which is an
open tag.
-/

namespace ImportHeader

namespace Lexer

variable {markup rest source : Text}

/-- Code begins where an open tag stands. -/
def BeginsCode (text : Text) : Prop :=
  ∃ tag, IsOpenTag tag ∧ tag <+: text

/-- A text before the first place where code begins, or before the end where it never does. -/
structure IsMarkup (markup rest : Text) : Prop where
  ends : rest = [] ∨ BeginsCode rest
  first : ∀ front back, markup = front ++ back → back ≠ [] → ¬BeginsCode (back ++ rest)

theorem IsMarkup.cons {c : Char} (isMarkup : IsMarkup markup rest)
    (plain : ¬BeginsCode (c :: (markup ++ rest)))
    : IsMarkup (c :: markup) rest := by
  refine ⟨isMarkup.ends, fun front back whole some => ?_⟩
  cases front with
  | nil =>
      obtain rfl : c :: markup = back := whole
      exact plain
  | cons d front => exact isMarkup.first front back (List.cons.inj whole).2 some

/-- The lexer goes through markup as far as it is markup. -/
theorem isMarkup_iff_markupLength
    : IsMarkup markup rest ↔ markupLength (markup ++ rest) = markup.length := by
  induction markup with
  | nil =>
      rw [List.nil_append, List.length_nil, markupLength_eq_zero_iff, opensCode_iff]
      refine ⟨IsMarkup.ends, fun ends => ⟨ends, fun front back empty some => ?_⟩⟩
      exact absurd (List.append_eq_nil_iff.mp empty.symm).2 some
  | cons c markup ih =>
      rw [List.cons_append, markupLength, List.length_cons]
      by_cases opens : opensCode (c :: (markup ++ rest)) = true
      · rw [if_pos opens]
        refine iff_of_false (fun isMarkup => ?_) (by omega)
        exact isMarkup.first [] (c :: markup) rfl (List.cons_ne_nil _ _)
          (opensCode_iff.mp opens)
      · rw [if_neg opens, Nat.add_right_cancel_iff, ← ih]
        refine ⟨fun isMarkup => ⟨isMarkup.ends, fun front back whole => ?_⟩,
          fun isMarkup => isMarkup.cons (fun begins => opens (opensCode_iff.mpr begins))⟩
        exact isMarkup.first (c :: front) back (congrArg (c :: ·) whole)

/-- Every source is markup and what follows it. -/
theorem exists_isMarkup (source : Text)
    : ∃ markup rest, source = markup ++ rest ∧ IsMarkup markup rest := by
  refine ⟨source.take (markupLength source), source.drop (markupLength source),
    (List.take_append_drop _ _).symm, isMarkup_iff_markupLength.mpr ?_⟩
  rw [List.take_append_drop, List.length_take, Nat.min_eq_left (markupLength_le source)]

/-- Markup as a piece, if there is any. -/
def markupPieces (markup : Text) : List Piece :=
  if markup.isEmpty then [] else [(.inlineHtml, markup)]

theorem joined_markupPieces (markup : Text) : joined (markupPieces markup) = markup := by
  cases markup with
  | nil => rfl
  | cons c markup => exact List.append_nil _

theorem mem_markupPieces {piece : Piece}
    : piece ∈ markupPieces markup ↔ markup ≠ [] ∧ piece = (.inlineHtml, markup) := by
  cases markup with
  | nil => simp [markupPieces]
  | cons c markup => simp [markupPieces]

/-- The tokens of a source are its markup and the pieces of its code, each at its place. -/
theorem IsMarkup.tokenize_eq (isMarkup : IsMarkup markup rest)
    : tokenize (markup ++ rest) = place 0 (markupPieces markup ++ cut rest) := by
  have length := isMarkup_iff_markupLength.mp isMarkup
  unfold tokenize
  simp only [length, List.take_left, List.drop_left, tokensFrom_eq_place]
  cases markup with
  | nil => rfl
  | cons c markup => simp [markupPieces, place]

/-- Markup is no piece of code. -/
theorem ne_inlineHtml_of_mem_cut {text : Text} {piece : Piece} (listed : piece ∈ cut text)
    : piece.1 ≠ .inlineHtml := by
  have each : ∀ piece ∈ cut text, piece.1 ≠ .inlineHtml := by
    refine forall_mem_cut (fun c rest html => ?_) text
    have starts := canStart_munch c rest
    rw [show (munch c rest).1 = .inlineHtml from html] at starts
    cases starts
  exact each piece listed

/-- Where code begins, its first piece is an open tag. -/
theorem BeginsCode.cut_eq (begins : BeginsCode rest)
    : ∃ tag pieces, cut rest = (.openTag, tag) :: pieces := by
  obtain ⟨tag, isTag, code, rfl⟩ := begins
  exact ⟨tag, cut code, cut_openTag isTag code⟩

end Lexer

open Lexer

variable {source : Text} {token : Token} {front back : List Token}

theorem flatMap_text_tokenize (source : Text)
    : (tokenize source).flatMap Token.text = source := by
  obtain ⟨markup, rest, rfl, isMarkup⟩ := exists_isMarkup source
  rw [isMarkup.tokenize_eq, flatMap_text_place, joined_append, joined_markupPieces, joined_cut]

theorem text_ne_nil_of_mem_tokenize (listed : token ∈ tokenize source) : token.text ≠ [] := by
  obtain ⟨markup, rest, rfl, isMarkup⟩ := exists_isMarkup source
  have placed := List.mem_map_of_mem (f := Token.piece) listed
  rw [isMarkup.tokenize_eq, map_piece_place, List.mem_append, mem_markupPieces] at placed
  rcases placed with ⟨some, html⟩ | coded
  · rwa [show token.text = markup from (Prod.mk.inj html).2]
  · exact cut_ne_nil coded

theorem offset_of_tokenize_eq (cut : tokenize source = front ++ token :: back)
    : token.offset = Text.size (front.flatMap Token.text) := by
  obtain ⟨markup, rest, rfl, isMarkup⟩ := exists_isMarkup source
  rw [isMarkup.tokenize_eq] at cut
  rw [offset_of_place_eq cut, Nat.zero_add]

/-- Tokens stand one behind the other. -/
theorem pairwise_tokenize (source : Text)
    : (tokenize source).Pairwise (fun left right => left.stop ≤ right.offset) := by
  obtain ⟨markup, rest, rfl, isMarkup⟩ := exists_isMarkup source
  rw [isMarkup.tokenize_eq]
  exact pairwise_place 0 _

theorem offset_lt_stop_of_mem_tokenize (listed : token ∈ tokenize source)
    : token.offset < token.stop :=
  Nat.lt_add_of_pos_right (Text.size_pos (text_ne_nil_of_mem_tokenize listed))

/-- The source before a token, the token and the source behind it. -/
theorem source_of_tokenize_eq (cut : tokenize source = front ++ token :: back)
    : source = front.flatMap Token.text ++ (token.text ++ back.flatMap Token.text) := by
  rw [← List.flatMap_cons, ← List.flatMap_append, ← cut, flatMap_text_tokenize]

theorem stop_le_size_of_mem_tokenize (listed : token ∈ tokenize source)
    : token.stop ≤ source.size := by
  obtain ⟨front, back, cut⟩ := List.append_of_mem listed
  have sizes := congrArg Text.size (source_of_tokenize_eq cut)
  rw [Text.size_append, Text.size_append] at sizes
  rw [Token.stop, offset_of_tokenize_eq cut]
  omega

/-- Tokens that start at the same place are the same. -/
theorem eq_of_offset_eq {other : Token} (listed : token ∈ tokenize source)
    (also : other ∈ tokenize source) (same : token.offset = other.offset)
    : token = other := by
  have strict : (tokenize source).Pairwise (fun left right => left.offset < right.offset) := by
    refine (pairwise_tokenize source).imp_of_mem (fun {left right} inside _ behind => ?_)
    exact Nat.lt_of_lt_of_le (offset_lt_stop_of_mem_tokenize inside) behind
  have injective := List.pairwise_map.mpr (strict.imp (fun less => Nat.ne_of_lt less))
  exact List.inj_on_of_nodup_map injective listed also same

/-- Markup is the first token if it is one. -/
theorem eq_nil_of_inlineHtml (cut : tokenize source = front ++ token :: back)
    (html : token.kind = .inlineHtml)
    : front = [] ∧ ∃ rest, source = token.text ++ rest ∧ IsMarkup token.text rest := by
  obtain ⟨markup, rest, rfl, isMarkup⟩ := exists_isMarkup source
  have pieces := congrArg (List.map Token.piece) cut
  rw [isMarkup.tokenize_eq, map_piece_place, List.map_append, List.map_cons] at pieces
  have markupOnly {left right : List Piece} (coded : Lexer.cut rest = left ++ token.piece :: right)
      : False :=
    ne_inlineHtml_of_mem_cut (coded ▸ List.mem_append_right _ List.mem_cons_self) html
  cases markup with
  | nil => exact (markupOnly pieces).elim
  | cons c markup =>
      cases front with
      | nil =>
          have text : token.text = c :: markup :=
            (Prod.mk.inj (List.cons.inj pieces).1).2.symm
          exact ⟨rfl, rest, by rw [text], by rwa [text]⟩
      | cons first front => exact (markupOnly (List.cons.inj pieces).2).elim

/-- There is markup exactly in a source that does not begin with code. -/
theorem exists_inlineHtml_iff
    : (∃ token ∈ tokenize source, token.kind = .inlineHtml)
      ↔ source ≠ [] ∧ ¬BeginsCode source := by
  constructor
  · rintro ⟨token, listed, html⟩
    obtain ⟨front, back, cut⟩ := List.append_of_mem listed
    obtain ⟨_, rest, rfl, isMarkup⟩ := eq_nil_of_inlineHtml cut html
    have some := text_ne_nil_of_mem_tokenize listed
    exact ⟨List.append_ne_nil_of_left_ne_nil some _, isMarkup.first [] _ rfl some⟩
  · rintro ⟨some, plain⟩
    obtain ⟨markup, rest, rfl, isMarkup⟩ := exists_isMarkup source
    cases markup with
    | nil => exact absurd isMarkup.ends (not_or.mpr ⟨some, plain⟩)
    | cons c markup =>
        rw [isMarkup.tokenize_eq]
        exact ⟨⟨.inlineHtml, c :: markup, 0⟩, List.mem_cons_self, rfl⟩

/-- The first place where code begins is an open tag. -/
theorem exists_openTag_of_beginsCode {markup rest : Text} (isMarkup : IsMarkup markup rest)
    (begins : BeginsCode rest)
    : ∃ token ∈ tokenize (markup ++ rest),
        token.offset = markup.size ∧ token.kind = .openTag := by
  obtain ⟨tag, pieces, coded⟩ := begins.cut_eq
  refine ⟨⟨.openTag, tag, markup.size⟩, ?_, rfl, rfl⟩
  rw [isMarkup.tokenize_eq, place_append, joined_markupPieces, coded, place, Nat.zero_add]
  exact List.mem_append_right _ List.mem_cons_self

/-- The tokens of a source lose nothing: their texts join to it, none is empty, and each starts
behind the bytes of those before it, between two characters. Markup is a token exactly if the
source begins otherwise than with code; it is the first one and goes to the first place where
code begins, or to the end. The token at that place is an open tag.
-/
theorem tokenize_lossless (source : Text)
    : (tokenize source).flatMap Token.text = source
      ∧ (∀ token ∈ tokenize source, token.text ≠ [])
      ∧ (∀ front token back, tokenize source = front ++ token :: back
          → token.offset = Text.size (front.flatMap Token.text)
            ∧ String.Pos.Raw.IsValid (String.ofList source) ⟨token.offset⟩
            ∧ String.Pos.Raw.IsValid (String.ofList source) ⟨token.stop⟩)
      ∧ (∀ front token back, tokenize source = front ++ token :: back
          → token.kind = .inlineHtml
          → front = [] ∧ ∃ rest, source = token.text ++ rest ∧ IsMarkup token.text rest)
      ∧ ((∃ token ∈ tokenize source, token.kind = .inlineHtml)
          ↔ source ≠ [] ∧ ¬BeginsCode source)
      ∧ (∀ markup code, source = markup ++ code → IsMarkup markup code → BeginsCode code
          → (∃ token ∈ tokenize source, token.offset = markup.size)
            ∧ ∀ token ∈ tokenize source, token.offset = markup.size → token.kind = .openTag) := by
  refine ⟨flatMap_text_tokenize source, fun token => text_ne_nil_of_mem_tokenize, ?_,
    fun front token back => eq_nil_of_inlineHtml, exists_inlineHtml_iff, ?_⟩
  · intro front token back cut
    have offset := offset_of_tokenize_eq cut
    have whole := source_of_tokenize_eq cut
    refine ⟨offset, ?_, ?_⟩
    · rw [offset, whole]
      exact Text.isValid_append _ _
    · rw [Token.stop, offset, ← Text.size_append, whole, ← List.append_assoc]
      exact Text.isValid_append _ _
  · rintro markup code rfl isMarkup begins
    obtain ⟨tag, listed, place, opens⟩ := exists_openTag_of_beginsCode isMarkup begins
    refine ⟨⟨tag, listed, place⟩, fun token also here => ?_⟩
    rwa [eq_of_offset_eq also listed (here.trans place.symm)]

end ImportHeader
