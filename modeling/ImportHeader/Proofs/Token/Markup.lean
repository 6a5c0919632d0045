import ImportHeader.Proofs.Text.Endings
import ImportHeader.Proofs.Token.Seams

/-! The markup of a source, its open tag and its code. Markup with other line endings is still
markup.
-/

namespace ImportHeader

namespace Lexer

variable {text mild ending : Text}

/-- Line endings prolong nothing, so other ones prolong nothing more. -/
theorem Milder.reline (milder : Milder text mild) (isEnding : Text.IsEnding ending)
    (front : Text)
    : Milder (front ++ text) (Text.reline ending front ++ mild) := by
  have broken (back rest : Text) : Milder back (ending ++ rest) := by
    rcases isEnding with rfl | rfl
    · exact milder_space back rfl rest
    · exact milder_space back rfl ('\n' :: rest)
  induction front with
  | nil => exact milder
  | cons c front ih =>
      rw [Text.reline]
      split
      · rw [List.append_assoc]
        exact broken _ _
      split
      · rename_i return?
        obtain ⟨behind, rfl⟩ := List.head?_eq_some_iff.mp return?.2
        rw [Text.reline_newline, List.append_assoc]
        exact broken _ _
      · exact ih.append [c]

theorem opensCode_cons {c : Char} (other : c ≠ '<') (rest : Text)
    : opensCode (c :: rest) = false := by
  unfold opensCode
  split
  · rename_i same
    exact absurd (List.cons.inj same).1 other
  · rfl

/-- Markup with other line endings goes as far. -/
theorem markupLength_reline {front : Text} (isEnding : Text.IsEnding ending)
    (milder : Milder text mild) (opens : mild = [] ∨ opensCode mild = true)
    (ends : markupLength (front ++ text) = front.length)
    : markupLength (Text.reline ending front ++ mild) = (Text.reline ending front).length := by
  induction front with
  | nil => exact markupLength_eq_zero_iff.mpr opens
  | cons c front ih =>
      rw [List.cons_append, markupLength] at ends
      split at ends
      · cases ends
      rename_i goes
      have later := ih (Nat.succ_inj.mp ends)
      have skips {d : Char} {rest : Text} (other : ¬opensCode (d :: rest) = true)
          : markupLength (d :: rest) = markupLength rest + 1 := by
        rw [markupLength, if_neg other]
      rw [Text.reline]
      split
      · rcases isEnding with rfl | rfl
        · rw [List.append_assoc, List.singleton_append,
            skips (by rw [opensCode_cons (by decide)]; simp), later]
          simp
        · rw [List.append_assoc, List.cons_append, List.singleton_append,
            skips (by rw [opensCode_cons (by decide)]; simp),
            skips (by rw [opensCode_cons (by decide)]; simp), later]
          simp
      split
      · exact later
      · rw [List.cons_append, skips, later]
        · rfl
        · exact fun opens => goes
            (opensCode_of_milder ((milder.reline isEnding front).append [c]) opens)

/-- An open tag is a token before every text. -/
theorem stands_of_isOpenTag {tag : Text} (isTag : IsOpenTag tag) (rest : Text)
    : Stands [(.openTag, tag)] rest := by
  rcases isTag with rfl | ⟨word, folded, rfl⟩
  · exact stands_cons.mpr ⟨rfl, stands_nil⟩
  · have opens : opensCode ('<' :: '?' :: (word ++ rest)) = true :=
      opensCode_iff.mpr ⟨_, .inr ⟨word, folded, rfl⟩, ⟨rest, rfl⟩⟩
    have three : word.length = 3 := by simpa [Text.lower] using congrArg List.length folded
    refine stands_cons.mpr ⟨?_, stands_nil⟩
    rw [joined_nil, List.nil_append, List.cons_append]
    change lessThan ('?' :: (word ++ rest)) = _
    have echo : ¬['?', '='].isPrefixOf ('?' :: (word ++ rest)) = true := by
      intro starts
      obtain ⟨behind, same⟩ := List.isPrefixOf_iff_prefix.mp starts
      cases word with
      | nil => cases three
      | cons d word =>
          obtain ⟨rfl, _⟩ := List.cons.inj (List.cons.inj same).2
          cases (List.cons.inj folded).1
    rw [lessThan_eq, if_neg (by simp), if_neg echo, if_pos opens, List.length_cons, three]

theorem cut_openTag {tag : Text} (isTag : IsOpenTag tag) (rest : Text)
    : cut (tag ++ rest) = (.openTag, tag) :: cut rest := by
  simpa [Stands] using stands_of_isOpenTag isTag rest

end Lexer

/-- A source with code: markup, an open tag and the code behind it. -/
structure Coded (source markup tag code : Text) : Prop where
  whole : source = markup ++ tag ++ code
  isTag : Lexer.IsOpenTag tag
  ends : Lexer.markupLength source = markup.length

namespace Coded

variable {source markup tag code : Text}

open Lexer

/-- The tokens of a source with code. -/
theorem tokenize_eq (coded : Coded source markup tag code)
    : tokenize source
      = (if markup.isEmpty then [] else [⟨.inlineHtml, markup, 0⟩])
        ++ ⟨.openTag, tag, markup.size⟩ :: place (markup.size + tag.size) (cut code) := by
  obtain ⟨rfl, isTag, ends⟩ := coded
  rw [List.append_assoc] at ends ⊢
  unfold tokenize
  simp only [ends, List.take_left, List.drop_left, tokensFrom_eq_place, cut_openTag isTag,
    place]
  cases markup with
  | nil => rfl
  | cons c markup => rfl

/-- An open tag starts code. -/
theorem opensCode_of_isOpenTag (isTag : IsOpenTag tag) (rest : Text)
    : opensCode (tag ++ rest) = true :=
  opensCode_iff.mpr ⟨tag, isTag, List.prefix_append _ _⟩

/-- Other code behind white space can follow the open tag of a source. -/
theorem recode (coded : Coded source markup tag code) {c : Char} (space : isSpace c = true)
    (rest : Text)
    : Coded (markup ++ tag ++ c :: rest) markup tag (c :: rest) := by
  refine ⟨rfl, coded.isTag, ?_⟩
  have ends := coded.ends
  rw [coded.whole, List.append_assoc] at ends
  rw [List.append_assoc]
  exact markupLength_stable (.inr (opensCode_of_isOpenTag coded.isTag _))
    ((milder_space code space rest).append tag) ends

/-- And so it can with other line endings in the markup. -/
theorem recode_reline {ending : Text} (isEnding : Text.IsEnding ending)
    (coded : Coded source markup tag code) {c : Char} (space : isSpace c = true) (rest : Text)
    : Coded (Text.reline ending markup ++ tag ++ c :: rest) (Text.reline ending markup) tag
        (c :: rest) := by
  refine ⟨rfl, coded.isTag, ?_⟩
  have ends := coded.ends
  rw [coded.whole, List.append_assoc] at ends
  rw [List.append_assoc]
  exact markupLength_reline isEnding ((milder_space code space rest).append tag)
    (.inr (opensCode_of_isOpenTag coded.isTag _)) ends

/-- A source whose markup does not go to its end has code. -/
theorem exists_of_markupLength {source : Text}
    (shorter : markupLength source < source.length)
    : ∃ markup tag code, Coded source markup tag code := by
  obtain ⟨markup, whole, length⟩
      : ∃ markup, source = markup ++ source.drop markup.length
          ∧ markupLength source = markup.length := by
    refine ⟨source.take (markupLength source), ?_, ?_⟩
    · rw [List.length_take, Nat.min_eq_left (Nat.le_of_lt shorter), List.take_append_drop]
    · rw [List.length_take, Nat.min_eq_left (Nat.le_of_lt shorter)]
  generalize source.drop markup.length = behind at whole
  subst whole
  have opens : opensCode behind = true := by
    refine (markupLength_append length).resolve_left ?_
    rintro rfl
    rw [List.append_nil] at shorter length
    omega
  obtain ⟨tag, isTag, code, rfl⟩ := opensCode_iff.mp opens
  exact ⟨markup, tag, code, (List.append_assoc _ _ _).symm, isTag, length⟩

end Coded

end ImportHeader
