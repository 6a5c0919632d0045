import ImportHeader.Proofs.Parser.Tiling

/-! The statements of a file as parts of its source. Each is a stretch of the source from one
token to another, and together they divide the code: every token is in one of them, and in one
part of its namespace.
-/

namespace ImportHeader

/-- The bytes of a statement at the top level. -/
def Item.span? : Item → Option Span
  | .plain stmt => stmt.span?
  | .scope space => some space.span

/-- The places and texts of the statements of an item: its own, and those of the statements in a
namespace.
-/
def Item.places : Item → List (Option Span × Text)
  | .plain stmt => [(stmt.span?, stmt.text)]
  | .scope space =>
      (some space.span, space.text) :: space.stmts.map fun stmt => (stmt.span?, stmt.text)

/-- The parts of a namespace that ends with the given tokens. -/
def Namespace.parts (space : Namespace) (closing : List Token) : List Span :=
  space.header :: (space.stmts.filterMap Stmt.span? ++ closing.map Token.span)

/-- A span of a source that is not empty, starts and ends with a token, and has the given text. -/
structure IsStretch (source : Text) (span : Span) (text : Text) : Prop where
  solid : span.start < span.stop
  inside : span.stop ≤ source.size
  starts : ∃ token ∈ tokenize source, token.offset = span.start
  ends : ∃ token ∈ tokenize source, token.stop = span.stop
  text_eq : text = source.slice span.start span.stop

/-- Spans that follow one another, and of which exactly one covers each of some tokens. -/
structure Partitions (spans : List Span) (tokens : List Token) : Prop where
  ordered : spans.Pairwise fun left right => left.stop ≤ right.start
  unique : ∀ token ∈ tokens, ∃! span, span ∈ spans ∧ span.Covers token

variable {source : Text} {span : Span} {spans : List Span} {tokens : List Token}

theorem sublist_of_append {before here behind : List Token}
    (inside : (before ++ (here ++ behind)).Sublist tokens)
    : here.Sublist tokens :=
  ((List.sublist_append_left _ _).trans (List.sublist_append_right _ _)).trans inside

namespace Span.Frames

theorem isStretch (frames : span.Frames tokens) (inside : tokens.Sublist (tokenize source))
    : IsStretch source span (source.slice span.start span.stop) := by
  obtain ⟨first, isFirst, starts⟩ := frames.exists_first
  obtain ⟨last, isLast, ends⟩ := frames.exists_last
  exact {
    solid := frames.start_lt_stop inside
    inside := ends ▸ stop_le_size_of_mem_tokenize (inside.subset isLast)
    starts := ⟨first, inside.subset isFirst, starts⟩
    ends := ⟨last, inside.subset isLast, ends⟩
    text_eq := rfl }

/-- Tokens that stand before or behind those that a span frames are not in it. -/
theorem filter_covers {before behind : List Token} (frames : span.Frames tokens)
    (inside : (before ++ (tokens ++ behind)).Sublist (tokenize source))
    : (before ++ (tokens ++ behind)).filter (span.Covers ·) = tokens := by
  have ordered := (pairwise_tokenize source).sublist inside
  obtain ⟨_, later, apart⟩ := List.pairwise_append.mp ordered
  obtain ⟨_, _, apart'⟩ := List.pairwise_append.mp later
  have solid {token : Token} (listed : token ∈ before ++ (tokens ++ behind))
      : token.offset < token.stop :=
    offset_lt_stop_of_mem_tokenize (inside.subset listed)
  obtain ⟨first, isFirst, starts⟩ := frames.exists_first
  obtain ⟨last, isLast, ends⟩ := frames.exists_last
  have here : tokens.filter (span.Covers ·) = tokens := by
    refine List.filter_eq_self.mpr fun token listed => decide_eq_true ?_
    exact frames.covers (sublist_of_append inside) listed
  have none : before.filter (span.Covers ·) = [] := by
    refine List.filter_eq_nil_iff.mpr fun token listed covered => ?_
    have earlier := apart token listed first (List.mem_append_left _ isFirst)
    have some := solid (List.mem_append_left _ listed)
    have within := (of_decide_eq_true covered).1
    omega
  have none' : behind.filter (span.Covers ·) = [] := by
    refine List.filter_eq_nil_iff.mpr fun token listed covered => ?_
    have after := apart' last isLast token listed
    have some := solid (List.mem_append_right _ (List.mem_append_right _ listed))
    have within := (of_decide_eq_true covered).2
    omega
  rw [List.filter_append, List.filter_append, none, here, none', List.nil_append, List.append_nil]

end Span.Frames

namespace Tiles

/-- Spans that lie over tokens one behind the other are ordered. -/
theorem pairwise (tiles : Tiles Span.Frames spans tokens)
    (inside : tokens.Sublist (tokenize source))
    : spans.Pairwise fun left right => left.stop ≤ right.start := by
  induction tiles with
  | nil => exact .nil
  | cons here later ih =>
      refine List.pairwise_cons.mpr ⟨fun right listed => ?_,
        ih ((List.sublist_append_right _ _).trans inside)⟩
      obtain ⟨before, group, behind, rfl, frames⟩ := later.exists_of_mem listed
      obtain ⟨last, isLast, ends⟩ := here.exists_last
      obtain ⟨first, isFirst, starts⟩ := frames.exists_first
      rw [← ends, ← starts]
      have ordered := (pairwise_tokenize source).sublist inside
      exact (List.pairwise_append.mp ordered).2.2 last isLast first (by simp [isFirst])

theorem exists_covers (tiles : Tiles Span.Frames spans tokens)
    (inside : tokens.Sublist (tokenize source))
    : ∀ token ∈ tokens, ∃ span ∈ spans, span.Covers token := by
  induction tiles with
  | nil => nofun
  | @cons span spans group rest here _ ih =>
      intro token listed
      rcases List.mem_append.mp listed with first | later
      · exact ⟨span, List.mem_cons_self,
          here.covers ((List.sublist_append_left _ _).trans inside) first⟩
      · obtain ⟨other, among, covers⟩ :=
          ih ((List.sublist_append_right _ _).trans inside) token later
        exact ⟨other, List.mem_cons_of_mem _ among, covers⟩

theorem partitions (tiles : Tiles Span.Frames spans tokens)
    (inside : tokens.Sublist (tokenize source))
    : Partitions spans tokens := by
  have ordered := tiles.pairwise inside
  refine ⟨ordered, fun token listed => ?_⟩
  have solid := offset_lt_stop_of_mem_tokenize (inside.subset listed)
  obtain ⟨span, among, covers⟩ := tiles.exists_covers inside token listed
  refine ⟨span, ⟨among, covers⟩, fun other ⟨among', covers'⟩ => ?_⟩
  -- Of two spans one ends before the other starts, and the token is not empty.
  have apart {left right : Span} (before : left.stop ≤ right.start) (first : left.Covers token)
      (second : right.Covers token)
      : False := by
    have ends := first.2
    have starts := second.1
    omega
  let meet (left right : Span) : Prop := left.Covers token → right.Covers token → left = right
  have first : spans.Pairwise meet := ordered.imp fun before left right =>
    (apart before left right).elim
  have second : spans.Pairwise (flip meet) := ordered.imp fun before right left =>
    (apart before left right).elim
  exact first.forall_of_forall_of_flip (fun _ _ _ _ => rfl) second among' among covers' covers

end Tiles

-----------------------------------------------------------------------------------------
-- Statements, namespaces and files
-----------------------------------------------------------------------------------------

theorem Stmt.Over.exists_frames {stmt : Stmt} (isOver : stmt.Over source tokens)
    : ∃ span, stmt.span? = some span ∧ span.Frames tokens := by
  obtain ⟨span, place, frames, _⟩ := isOver.placed
  exact ⟨span, place, frames⟩

theorem Item.Over.exists_frames {item : Item} (isOver : item.Over source tokens)
    : ∃ span, item.span? = some span ∧ span.Frames tokens := by
  cases item with
  | plain stmt => exact Stmt.Over.exists_frames isOver
  | scope space => exact ⟨space.span, rfl, Namespace.Over.frames isOver⟩

theorem Stmt.Over.isStretch {stmt : Stmt} (isOver : stmt.Over source tokens)
    (inside : tokens.Sublist (tokenize source))
    : ∃ span, stmt.span? = some span ∧ IsStretch source span stmt.text := by
  obtain ⟨span, place, frames, text⟩ := isOver.placed
  exact ⟨span, place, text ▸ frames.isStretch inside⟩

/-- A statement in a namespace lies over some of the tokens of the namespace. -/
theorem Namespace.Over.exists_of_mem {space : Namespace} (isOver : space.Over source tokens)
    {stmt : Stmt} (listed : stmt ∈ space.stmts)
    : ∃ before here behind, tokens = before ++ (here ++ behind) ∧ stmt.Over source here := by
  obtain ⟨_, _, _, header, inner, closing, rfl, _, tiles, _⟩ := isOver
  obtain ⟨before, here, behind, rfl, isOver⟩ := tiles.exists_of_mem listed
  exact ⟨header ++ before, here, behind ++ closing, by simp only [List.append_assoc], isOver⟩

/-- A statement is a stretch of its source, and so are the statements in a namespace. -/
theorem Item.Over.isStretch {item : Item} (isOver : item.Over source tokens)
    (inside : tokens.Sublist (tokenize source))
    : ∀ place ∈ item.places, ∃ span, place.1 = some span ∧ IsStretch source span place.2 := by
  intro place listed
  cases item with
  | plain stmt =>
      obtain rfl := List.mem_singleton.mp listed
      exact Stmt.Over.isStretch isOver inside
  | scope space =>
      have spaced : space.Over source tokens := isOver
      rcases List.mem_cons.mp listed with rfl | later
      · exact ⟨space.span, rfl, spaced.text_eq ▸ spaced.frames.isStretch inside⟩
      · obtain ⟨stmt, among, rfl⟩ := List.mem_map.mp later
        obtain ⟨before, here, behind, rfl, isOver'⟩ := spaced.exists_of_mem among
        exact isOver'.isStretch (sublist_of_append inside)

theorem ClosesNamespace.tiles {braced : Bool} {closing : List Token}
    (closes : ClosesNamespace braced closing)
    : Tiles Span.Frames (closing.map Token.span) closing := by
  unfold ClosesNamespace at closes
  split at closes
  · obtain ⟨brace, rfl, _⟩ := closes
    exact .single ⟨brace, brace, rfl, rfl, rfl⟩
  · rw [closes]
    exact .nil

/-- The brace that closes a namespace ends where the namespace does. -/
theorem ClosesNamespace.stop_eq {braced : Bool} {front closing : List Token}
    (closes : ClosesNamespace braced closing) (frames : span.Frames (front ++ closing))
    : ∀ brace ∈ closing, brace.stop = span.stop := by
  intro brace listed
  obtain ⟨_, last, _, isLast, rfl⟩ := frames
  unfold ClosesNamespace at closes
  split at closes
  · obtain ⟨brace, rfl, _⟩ := closes
    obtain rfl := List.mem_singleton.mp listed
    rw [List.getLast?_concat] at isLast
    rw [Option.some.inj isLast]
  · rw [closes] at listed
    cases listed

/-- A namespace is divided into its header, its statements and its end. -/
theorem Namespace.Over.exists_parts {space : Namespace} (isOver : space.Over source tokens)
    (inside : tokens.Sublist (tokenize source))
    : ∃ closing, ClosesNamespace space.braced closing
        ∧ (∀ brace ∈ closing, brace ∈ tokens ∧ brace.stop = space.span.stop)
        ∧ Partitions (space.parts closing) tokens
        ∧ ∀ part ∈ space.parts closing,
            space.span.start ≤ part.start ∧ part.stop ≤ space.span.stop := by
  obtain ⟨frames, _, _, header, inner, closing, rfl, headed, stmts, closes⟩ := isOver
  have placed : Tiles Span.Frames (space.stmts.filterMap Stmt.span?) inner :=
    stmts.filterMap fun _ _ => Stmt.Over.exists_frames
  have tiles : Tiles Span.Frames (space.parts closing) (header ++ (inner ++ closing)) :=
    .cons headed (placed.append closes.tiles)
  refine ⟨closing, closes, fun brace listed => ⟨by simp [listed], ?_⟩, tiles.partitions inside,
    fun part listed => ?_⟩
  · rw [← List.append_assoc] at frames
    exact closes.stop_eq frames brace listed
  · obtain ⟨before, here, behind, whole, frames'⟩ := tiles.exists_of_mem listed
    obtain ⟨first, isFirst, starts⟩ := frames'.exists_first
    obtain ⟨last, isLast, ends⟩ := frames'.exists_last
    rw [← starts, ← ends]
    exact ⟨(frames.covers inside (by simp [whole, isFirst])).1,
      (frames.covers inside (by simp [whole, isLast])).2⟩

/-- The statements of a file divide its code. Each is a stretch of the source with its text, the
ones at the top level follow one another, and every token of the code is in exactly one of them.
A namespace is divided in the same way into its header, its statements and the brace that closes
it. A statement is a namespace exactly if its tokens start a namespace declaration, and no
statement in a namespace is one.
-/
theorem parse_partitions_code {source : Text} {file : SourceFile} {opening : OpenTag}
    (parsed : parse source = .ok file) (tagged : file.openTag? = some opening)
    : (∀ place ∈ file.items.flatMap Item.places,
          ∃ span, place.1 = some span ∧ IsStretch source span place.2)
      ∧ Partitions (file.items.filterMap Item.span?) (opening.codeTokens source)
      ∧ (∀ space, .scope space ∈ file.items
          → ∃ closing, ClosesNamespace space.braced closing
              ∧ (∀ brace ∈ closing,
                  brace ∈ opening.codeTokens source ∧ brace.stop = space.span.stop)
              ∧ Partitions (space.parts closing)
                  ((opening.codeTokens source).filter (space.span.Covers ·))
              ∧ ∀ part ∈ space.parts closing,
                  space.span.start ≤ part.start ∧ part.stop ≤ space.span.stop)
      ∧ (∀ item ∈ file.items, ∀ span ∈ item.span?,
          item.space?.isSome = true
          ↔ DeclaresNamespace ((opening.codeTokens source).filter (span.Covers ·)))
      ∧ ∀ space, .scope space ∈ file.items
          → ∀ stmt ∈ space.stmts, ∀ span ∈ stmt.span?,
              ¬DeclaresNamespace ((opening.codeTokens source).filter (span.Covers ·)) := by
  have tiles := tiles_of_parse parsed tagged
  have inside : (opening.codeTokens source).Sublist (tokenize source) := List.filter_sublist
  generalize opening.codeTokens source = tokens at tiles inside ⊢
  have placed : Tiles Span.Frames (file.items.filterMap Item.span?) tokens :=
    tiles.filterMap fun _ _ => Item.Over.exists_frames
  refine ⟨?_, placed.partitions inside, ?_, ?_, ?_⟩
  · intro place listed
    obtain ⟨item, among, here⟩ := List.mem_flatMap.mp listed
    obtain ⟨before, tokens, behind, rfl, isOver⟩ := tiles.exists_of_mem among
    exact isOver.isStretch (sublist_of_append inside) place here
  · intro space listed
    obtain ⟨before, here, behind, rfl, isOver⟩ := tiles.exists_of_mem listed
    have spaced : space.Over source here := isOver
    rw [spaced.frames.filter_covers inside]
    obtain ⟨closing, closes, braces, parts⟩ := spaced.exists_parts (sublist_of_append inside)
    refine ⟨closing, closes, fun brace among => ?_, parts⟩
    exact ⟨by simp [(braces brace among).1], (braces brace among).2⟩
  · intro item listed span place
    obtain ⟨before, here, behind, rfl, isOver⟩ := tiles.exists_of_mem listed
    obtain ⟨_, place', frames⟩ := isOver.exists_frames
    obtain rfl := Option.some.inj (place'.symm.trans place)
    rw [frames.filter_covers inside]
    cases item with
    | plain stmt => exact iff_of_false (by simp [Item.space?]) (Stmt.Over.plain isOver)
    | scope space => exact iff_of_true rfl (Namespace.Over.declares isOver)
  · intro space listed stmt among span place
    obtain ⟨before, _, behind, rfl, isOver⟩ := tiles.exists_of_mem listed
    obtain ⟨before', here, behind', rfl, isOver'⟩ := Namespace.Over.exists_of_mem isOver among
    obtain ⟨_, place', frames⟩ := isOver'.exists_frames
    obtain rfl := Option.some.inj (place'.symm.trans place)
    have whole : before ++ (before' ++ (here ++ behind') ++ behind)
        = (before ++ before') ++ (here ++ (behind' ++ behind)) := by
      simp only [List.append_assoc]
    rw [whole] at inside ⊢
    rw [frames.filter_covers inside]
    exact isOver'.plain

/-- A statement and a braced namespace with an import divide the code of a file. -/
theorem parse_partitions_code_of_braced_namespace
    : ∃ source file opening,
        source = "<?php\nexit; // x\nnamespace A \x7b use B\\C; \x7d".toList
        ∧ parse source = .ok file
        ∧ file.openTag? = some opening
        ∧ file.items.flatMap Item.places
          = [(some ⟨6, 11⟩, "exit;".toList),
              (some ⟨17, 41⟩, "namespace A \x7b use B\\C; \x7d".toList),
              (some ⟨31, 39⟩, "use B\\C;".toList)]
        ∧ (∀ place ∈ file.items.flatMap Item.places,
            ∃ span, place.1 = some span ∧ IsStretch source span place.2)
        ∧ Partitions (file.items.filterMap Item.span?) (opening.codeTokens source) := by
  obtain ⟨source, written⟩ : ∃ source : Text, source
      = "<?php\nexit; // x\nnamespace A \x7b use B\\C; \x7d".toList := ⟨_, rfl⟩
  obtain ⟨file, parsed, checked⟩ : ∃ file, parse source = .ok file
      ∧ (file.hasCode
        && file.items.flatMap Item.places
          == [(some ⟨6, 11⟩, "exit;".toList),
            (some ⟨17, 41⟩, "namespace A \x7b use B\\C; \x7d".toList),
            (some ⟨31, 39⟩, "use B\\C;".toList)]) = true := by
    rw [written]
    exact exists_of_parses _ (by decide +kernel)
  rw [Bool.and_eq_true, beq_iff_eq] at checked
  obtain ⟨opening, tagged⟩ := Option.isSome_iff_exists.mp checked.1
  have divided := parse_partitions_code parsed tagged
  exact ⟨source, file, opening, written, parsed, tagged, checked.2, divided.1, divided.2.1⟩

end ImportHeader
