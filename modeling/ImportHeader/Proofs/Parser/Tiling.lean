import ImportHeader.Proofs.Parser.Ledger
import ImportHeader.Proofs.Parser.Whole
import ImportHeader.Proofs.Token.Lossless

/-! The tokens that statements are read from. A statement frames the tokens that the parser
passes while it reads it, so the items of a file lie over its code token by token: one behind the
other, and none left out.
-/

namespace ImportHeader

open ImportHeader.Lexer ImportHeader.Parser

-----------------------------------------------------------------------------------------
-- Tokens and what lies over them
-----------------------------------------------------------------------------------------

/-- A span from the start of the first of some tokens to the end of the last. -/
def Span.Frames (span : Span) (tokens : List Token) : Prop :=
  ∃ first last, tokens.head? = some first ∧ tokens.getLast? = some last
    ∧ span = ⟨first.offset, last.stop⟩

/-- A token lies within a span. -/
def Span.Covers (span : Span) (token : Token) : Prop :=
  span.start ≤ token.offset ∧ token.stop ≤ span.stop

instance (span : Span) (token : Token) : Decidable (span.Covers token) :=
  inferInstanceAs (Decidable (_ ∧ _))

/-- Things that lie over tokens one behind the other, so that each token is under one of them. -/
inductive Tiles {α : Type} (lies : α → List Token → Prop) : List α → List Token → Prop
  | nil : Tiles lies [] []
  | cons {x xs tokens rest} (here : lies x tokens) (later : Tiles lies xs rest)
    : Tiles lies (x :: xs) (tokens ++ rest)

/-- Tokens with which a namespace declaration starts: the keyword, and a name or a brace. -/
def DeclaresNamespace (tokens : List Token) : Prop :=
  ∃ keyword next rest, tokens = keyword :: next :: rest
    ∧ keyword.isKeyword "namespace" = true
    ∧ (next.kind = .name ∨ next.kind = .leftBrace)

/-- The tokens that close a namespace: a brace in the braced form, and else none. -/
def ClosesNamespace (braced : Bool) (tokens : List Token) : Prop :=
  if braced then ∃ brace, tokens = [brace] ∧ brace.kind = .rightBrace else tokens = []

/-- A statement lies over the tokens that it was read from. -/
structure Stmt.Over (source : Text) (stmt : Stmt) (tokens : List Token) : Prop where
  placed
    : ∃ span, stmt.span? = some span ∧ span.Frames tokens
        ∧ stmt.text = source.slice span.start span.stop
  plain : ¬DeclaresNamespace tokens

/-- A namespace lies over its header, its statements and its end. -/
structure Namespace.Over (source : Text) (space : Namespace) (tokens : List Token) : Prop where
  frames : space.span.Frames tokens
  text_eq : space.text = source.slice space.span.start space.span.stop
  declares : DeclaresNamespace tokens
  parts
    : ∃ header inside closing, tokens = header ++ (inside ++ closing)
        ∧ space.header.Frames header
        ∧ Tiles (Stmt.Over source) space.stmts inside
        ∧ ClosesNamespace space.braced closing

/-- An item lies over tokens as what it is. -/
def Item.Over (source : Text) : Item → List Token → Prop
  | .plain stmt => stmt.Over source
  | .scope space => space.Over source

namespace Tiles

variable {α β : Type} {lies : α → List Token → Prop} {xs ys : List α} {tokens rest : List Token}

theorem single {x : α} (here : lies x tokens) : Tiles lies [x] tokens := by
  have tiles := Tiles.cons here .nil
  rwa [List.append_nil] at tiles

theorem append (first : Tiles lies xs tokens) (second : Tiles lies ys rest)
    : Tiles lies (xs ++ ys) (tokens ++ rest) := by
  induction first with
  | nil => exact second
  | cons here _ ih =>
      rw [List.append_assoc]
      exact .cons here ih

/-- Each thing lies over some of the tokens in a row. -/
theorem exists_of_mem (tiles : Tiles lies xs tokens) {x : α} (listed : x ∈ xs)
    : ∃ before here behind, tokens = before ++ (here ++ behind) ∧ lies x here := by
  induction tiles with
  | nil => cases listed
  | @cons y _ first rest here _ ih =>
      rcases List.mem_cons.mp listed with rfl | later
      · exact ⟨[], first, rest, rfl, here⟩
      · obtain ⟨before, here, behind, rfl, isOver⟩ := ih later
        exact ⟨first ++ before, here, behind, by rw [List.append_assoc], isOver⟩

/-- What is seen of each thing lies over the same tokens. -/
theorem filterMap {other : β → List Token → Prop} {view : α → Option β}
    (seen : ∀ x tokens, lies x tokens → ∃ y, view x = some y ∧ other y tokens)
    (tiles : Tiles lies xs tokens)
    : Tiles other (xs.filterMap view) tokens := by
  induction tiles with
  | nil => exact .nil
  | cons here _ ih =>
      obtain ⟨y, same, isOver⟩ := seen _ _ here
      rw [List.filterMap_cons_some same]
      exact .cons isOver ih

end Tiles

theorem map_token_lexemes (tokens : List Token)
    : (lexemes tokens).2.map Lexeme.token = tokens.filter fun token => !token.kind.isTrivia := by
  induction tokens with
  | nil => rfl
  | cons token tokens ih =>
      rw [lexemes]
      cases trivia : token.kind.isTrivia with
      | true => simpa [trivia] using ih
      | false => simpa [trivia] using ih

namespace Cursor

variable {start middle stop : Cursor}

/-- A cursor before tokens of its source. -/
def IsFaithful (cursor : Cursor) : Prop :=
  cursor.tokens.Sublist (tokenize cursor.source)

theorem IsFaithful.reaches (faithful : start.IsFaithful) (reached : start.Reaches stop)
    : stop.IsFaithful := by
  obtain ⟨passed, whole, _⟩ := reached.exists_tokens
  unfold IsFaithful at faithful ⊢
  rw [source_of_reaches reached]
  exact (whole ▸ List.sublist_append_right passed _).trans faithful

/-- The tokens that are passed are framed by where the first starts and the last ends. -/
theorem Passes.exists_frames (passes : start.Passes stop) (reached : start.Reaches stop)
    : ∃ passed, start.tokens = passed ++ stop.tokens
        ∧ Span.Frames ⟨start.nextSpan.start, stop.lastEnd⟩ passed := by
  obtain ⟨passed, whole, ends⟩ := reached.exists_tokens
  have some : passed ≠ [] := by
    rintro rfl
    have lengths := congrArg List.length whole
    unfold Passes at passes
    simp only [tokens, List.nil_append, List.length_map] at lengths
    omega
  obtain ⟨first, others, rfl⟩ := List.exists_cons_of_ne_nil some
  obtain ⟨last, isLast⟩ := List.getLast?_isSome.mpr some |> Option.isSome_iff_exists.mp
  refine ⟨first :: others, whole, first, last, rfl, isLast, ?_⟩
  have next : start.token? 0 = .some first := by
    rw [← head?_tokens, whole]
    rfl
  rw [nextSpan_of_token? next, ends, isLast]
  rfl

/-- Where a namespace declaration starts, the tokens ahead say so. -/
theorem atNamespace_iff : start.atNamespace = true ↔ DeclaresNamespace start.tokens := by
  unfold atNamespace atKeyword isKeyword kind? token? DeclaresNamespace tokens
  cases start.ahead with
  | nil => simp
  | cons first rest =>
      cases rest with
      | nil => simp
      | cons second rest => simp

end Cursor

theorem DeclaresNamespace.append {tokens : List Token} (declares : DeclaresNamespace tokens)
    (rest : List Token)
    : DeclaresNamespace (tokens ++ rest) := by
  obtain ⟨keyword, next, others, rfl, isKeyword, kind⟩ := declares
  exact ⟨keyword, next, others ++ rest, rfl, isKeyword, kind⟩

theorem DeclaresNamespace.of_append {tokens rest : List Token}
    (declares : DeclaresNamespace (tokens ++ rest)) (two : 2 ≤ tokens.length)
    : DeclaresNamespace tokens := by
  obtain ⟨keyword, next, behind, whole, isKeyword, kind⟩ := declares
  cases tokens with
  | nil => simp at two
  | cons first tokens =>
      cases tokens with
      | nil => simp at two
      | cons second others =>
          obtain ⟨same, later⟩ := List.cons.inj whole
          obtain ⟨same', _⟩ := List.cons.inj later
          exact ⟨first, second, others, rfl, same ▸ isKeyword, same' ▸ kind⟩

namespace Span.Frames

variable {span : Span} {source : Text} {tokens : List Token} {token : Token}

/-- A span covers the tokens that it frames. -/
theorem covers (frames : span.Frames tokens) (inside : tokens.Sublist (tokenize source))
    (listed : token ∈ tokens)
    : span.Covers token := by
  obtain ⟨first, last, isFirst, isLast, rfl⟩ := frames
  have ordered := (pairwise_tokenize source).sublist inside
  have solid {token : Token} (listed : token ∈ tokens) : token.offset < token.stop :=
    offset_lt_stop_of_mem_tokenize (inside.subset listed)
  constructor
  · obtain ⟨others, rfl⟩ := List.head?_eq_some_iff.mp isFirst
    rcases List.mem_cons.mp listed with rfl | later
    · exact Nat.le_refl _
    · have behind := (List.pairwise_cons.mp ordered).1 token later
      exact Nat.le_trans (Nat.le_of_lt (solid List.mem_cons_self)) behind
  · obtain ⟨others, rfl⟩ := List.getLast?_eq_some_iff.mp isLast
    rcases List.mem_append.mp listed with earlier | final
    · have before := (List.pairwise_append.mp ordered).2.2 token earlier last (by simp)
      exact Nat.le_trans before (Nat.le_of_lt (solid (by simp)))
    · obtain rfl := List.mem_singleton.mp final
      exact Nat.le_refl _

theorem exists_first (frames : span.Frames tokens)
    : ∃ first ∈ tokens, first.offset = span.start := by
  obtain ⟨first, last, isFirst, _, rfl⟩ := frames
  exact ⟨first, List.mem_of_head? isFirst, rfl⟩

theorem exists_last (frames : span.Frames tokens)
    : ∃ last ∈ tokens, last.stop = span.stop := by
  obtain ⟨first, last, _, isLast, rfl⟩ := frames
  exact ⟨last, List.mem_of_getLast? isLast, rfl⟩

theorem start_lt_stop (frames : span.Frames tokens) (inside : tokens.Sublist (tokenize source))
    : span.start < span.stop := by
  obtain ⟨first, listed, starts⟩ := frames.exists_first
  rw [← starts]
  exact Nat.lt_of_lt_of_le (offset_lt_stop_of_mem_tokenize (inside.subset listed))
    (frames.covers inside listed).2

end Span.Frames

namespace Parser

variable {start stop : Cursor}

/-- What was found on the way from one cursor to another lies over the tokens between them. -/
def LaysOver {α : Type} (lies : Text → α → List Token → Prop) (start : Cursor) (found : List α)
    (stop : Cursor)
    : Prop :=
  ∃ passed, start.tokens = passed ++ stop.tokens ∧ Tiles (lies start.source) found passed

/-- What each turn lays over the tokens that it passes, the turns together lay over all that they
pass.
-/
theorem Turns.laysOver {α : Type} {turn : Parser (Turn α)} {found : List α}
    {lies : Text → α → List Token → Prop}
    (each
      : ∀ {start stop result}, start.IsFaithful
          → turn.run start = .ok (result, stop) → LaysOver lies start result.found stop)
    (faithful : start.IsFaithful) (turns : Turns turn start found stop)
    : LaysOver lies start found stop := by
  induction turns with
  | last ran => exact each faithful ran
  | @more _ middle _ _ _ ran _ ih =>
      have reached := reaches_of_run ran
      obtain ⟨passed, whole, tiles⟩ := each faithful ran
      obtain ⟨others, whole', tiles'⟩ := ih (faithful.reaches reached)
      rw [source_of_reaches reached] at tiles'
      exact ⟨passed ++ others, by rw [whole, whole', List.append_assoc], tiles.append tiles'⟩

theorem laysOver_nil {α : Type} {lies : Text → α → List Token → Prop}
    (same : stop.tokens = start.tokens)
    : LaysOver lies start [] stop :=
  ⟨[], same.symm, .nil⟩

/-- A statement lies over the tokens that are passed by reading it. -/
theorem exists_over_of_stmt {found : Stmt} (faithful : start.IsFaithful) (guard : AtStmt start)
    (ran : stmt.run start = .ok (found, stop))
    : ∃ passed, start.tokens = passed ++ stop.tokens ∧ found.Over start.source passed := by
  obtain ⟨middle, read, commented, span, text, _⟩ := stmt_eq_ok.mp ran
  obtain ⟨kind, next, solid, free⟩ := guard
  obtain ⟨passed, whole, frames⟩ :=
    (passes_of_stmtKind next solid read).exists_frames (reaches_of_run read)
  have inside : passed.Sublist (tokenize start.source) :=
    (whole ▸ List.sublist_append_left passed _).trans faithful
  have longer : max middle.lastEnd start.nextSpan.start = middle.lastEnd :=
    Nat.max_eq_left (Nat.le_of_lt (frames.start_lt_stop inside))
  rw [longer] at span text
  refine ⟨passed, ?_, ⟨_, span, frames, text⟩, fun declares => ?_⟩
  · rw [whole, Cursor.tokens_congr (ahead_of_run_trailingOf commented)]
  · have here := Cursor.atNamespace_iff.mpr (whole ▸ declares.append middle.tokens)
    rw [here] at free
    cases free

theorem laysOver_namespaceTurn {braced : Bool} {result : Turn Stmt} (faithful : start.IsFaithful)
    (ran : (namespaceTurn braced).run start = .ok (result, stop))
    : LaysOver Stmt.Over start result.found stop := by
  cases result with
  | last results =>
      obtain ⟨rfl, rfl⟩ := namespaceTurn_last ran
      exact laysOver_nil rfl
  | more results =>
      obtain ⟨found, rfl, reads⟩ := (wraps_namespaceTurn braced).more ran
      obtain ⟨guard, read⟩ := reads rfl
      obtain ⟨passed, whole, isOver⟩ := exists_over_of_stmt faithful guard read
      exact ⟨passed, whole, .single isOver⟩

theorem passes_of_namespaceOpening {named braced : Bool}
    (ran : (namespaceOpening named).run start = .ok (braced, stop))
    : start.Passes stop := by
  obtain ⟨eaten, middle, ate, later⟩ := bind_eq_ok.mp ran
  cases eaten with
  | true => exact (passes_of_eat ate).reaches (reaches_of_run later)
  | false =>
      refine (reaches_of_run ate).passes ?_
      rw [if_neg (by simp)] at later
      split at later
      · exact passes_of_first passes_of_expect later
      · simp at later

/-- The brace that closes a namespace is the token that is passed last. -/
theorem exists_closing_tokens {braced : Bool}
    (ran : (namespaceClosing braced).run start = .ok ((), stop))
    : ∃ closing, start.tokens = closing ++ stop.tokens ∧ ClosesNamespace braced closing := by
  cases braced with
  | false =>
      obtain ⟨_, rfl⟩ := pure_eq_ok.mp ran
      exact ⟨[], rfl, rfl⟩
  | true =>
      obtain ⟨brace, _, expected, done⟩ := bind_eq_ok.mp ran
      obtain ⟨_, rfl⟩ := pure_eq_ok.mp done
      obtain ⟨here, kind, rfl⟩ := expect_eq_ok.mp expected
      rw [← Cursor.head?_tokens, List.head?_eq_some_iff] at here
      obtain ⟨rest, whole⟩ := here
      have behind : start.advance.tokens = rest := by
        rw [Cursor.tokens, Cursor.advance_ahead, List.map_drop]
        change start.tokens.drop 1 = rest
        rw [whole]
        rfl
      exact ⟨[brace], by rw [whole, behind]; rfl, brace, rfl, kind⟩

/-- A namespace lies over the tokens that are passed by reading it. -/
theorem exists_over_of_namespaceScope {space : Namespace} (faithful : start.IsFaithful)
    (here : start.atNamespace = true) (ran : namespaceScope.run start = .ok (space, stop))
    : ∃ passed, start.tokens = passed ++ stop.tokens ∧ space.Over start.source passed := by
  obtain ⟨keyword, named, middle, opened, entered, closed, expected, read, marked, commented,
    collected, leaves, header, span, text, _⟩ := namespaceScope_eq_ok.mp ran
  have offset : keyword.offset = start.nextSpan.start := by
    rw [nextSpan_of_token? (expect_eq_ok.mp expected).1]
    rfl
  rw [offset] at header span
  -- The header, the statements and the closing brace follow one another.
  have first := passes_of_expect expected
  have naming := reaches_of_run read
  have second := passes_of_namespaceOpening marked
  have opening := (reaches_of_run expected).trans (naming.trans (reaches_of_run marked))
  have entering := opening.trans (reaches_of_run commented)
  have passes : start.Passes opened := first.reaches (naming.trans (reaches_of_run marked))
  obtain ⟨headed, whole, frames⟩ := passes.exists_frames opening
  obtain ⟨inside, whole', tiles⟩ :=
    (turns_of_collect collected).laysOver laysOver_namespaceTurn (faithful.reaches entering)
  obtain ⟨closing, whole'', closes⟩ := exists_closing_tokens leaves
  rw [Cursor.tokens_congr (ahead_of_run_trailing? commented), whole''] at whole'
  rw [source_of_reaches entering] at tiles
  have all : start.tokens = headed ++ (inside ++ closing) ++ stop.tokens := by
    rw [whole, whole']
    simp only [List.append_assoc]
  -- The whole namespace is framed by its first and its last token.
  have leaving := (reaches_of_run commented).trans
    ((reaches_of_run collected).trans (reaches_of_run leaves))
  obtain ⟨passed, all', frames'⟩ := (passes.reaches leaving).exists_frames (opening.trans leaving)
  obtain rfl : passed = headed ++ (inside ++ closing) :=
    List.append_cancel_right (all'.symm.trans all)
  have within := (all' ▸ List.sublist_append_left _ stop.tokens).trans faithful
  have longer : max stop.lastEnd start.nextSpan.start = stop.lastEnd :=
    Nat.max_eq_left (Nat.le_of_lt (frames'.start_lt_stop within))
  rw [longer] at span
  rw [← header] at frames
  rw [← span] at frames'
  refine ⟨_, all', frames', text, ?_, headed, inside, closing, rfl, frames, tiles, closes⟩
  -- The header holds the keyword and a mark at least.
  have two : 2 ≤ headed.length := by
    have lengths := congrArg List.length whole
    have shorter := naming.length_le
    unfold Cursor.Passes at first second
    simp only [Cursor.tokens, List.length_map, List.length_append] at lengths
    omega
  have declares := Cursor.atNamespace_iff.mp here
  rw [whole] at declares
  exact (declares.of_append two).append _

theorem tokens_of_itemTurn_last {results : List Item}
    (ran : itemTurn.run start = .ok (.last results, stop))
    : results = [] ∧ start.tokens = [] ∧ stop.tokens = [] := by
  obtain ⟨none, ended⟩ := itemTurn_last ran
  obtain ⟨passed, whole, _⟩ := (reaches_of_run ran).exists_tokens
  rw [← Cursor.head?_tokens, List.head?_eq_none_iff] at ended
  rw [ended] at whole
  exact ⟨none, ended, (List.append_eq_nil_iff.mp whole.symm).2⟩

theorem laysOver_itemTurn {result : Turn Item} (faithful : start.IsFaithful)
    (ran : itemTurn.run start = .ok (result, stop))
    : LaysOver Item.Over start result.found stop := by
  cases result with
  | last results =>
      obtain ⟨rfl, empty, empty'⟩ := tokens_of_itemTurn_last ran
      exact laysOver_nil (empty'.trans empty.symm)
  | more results =>
      obtain ⟨found, rfl, reads⟩ := wraps_itemTurn.more ran
      cases found with
      | plain stmt =>
          obtain ⟨guard, read⟩ := reads rfl
          obtain ⟨passed, whole, isOver⟩ := exists_over_of_stmt faithful guard read
          exact ⟨passed, whole, .single isOver⟩
      | scope space =>
          obtain ⟨here, read⟩ := namespaceScope_of_itemTurn ran
          obtain ⟨passed, whole, isOver⟩ := exists_over_of_namespaceScope faithful here read
          exact ⟨passed, whole, .single isOver⟩

theorem Turns.exists_last {α : Type} {turn : Parser (Turn α)} {found : List α}
    (turns : Turns turn start found stop)
    : ∃ middle results, turn.run middle = .ok (.last results, stop) := by
  induction turns with
  | last ran => exact ⟨_, _, ran⟩
  | more _ _ ih => exact ih

end Parser

-----------------------------------------------------------------------------------------
-- Whole files
-----------------------------------------------------------------------------------------

/-- The tokens of a source behind its open tag, without trivia. -/
def OpenTag.codeTokens (opening : OpenTag) (source : Text) : List Token :=
  (tokenize source).filter fun token =>
    !token.kind.isTrivia && opening.span.stop ≤ token.offset

/-- The parser starts before the tokens of the code. -/
theorem Coded.tokens_codeStart {source markup tag code : Text} {opening : OpenTag}
    (coded : Coded source markup tag code) (ends : opening.span.stop = (markup ++ tag).size)
    : (codeStart source markup tag code).tokens = opening.codeTokens source := by
  have solid : 0 < tag.size := by
    rcases coded.isTag with rfl | ⟨word, _, rfl⟩
    · decide
    · exact Text.size_pos (List.cons_ne_nil _ _)
  rw [Text.size_append] at ends
  unfold OpenTag.codeTokens
  rw [coded.tokenize_eq, List.filter_append, List.filter_cons, ends]
  have before : (if markup.isEmpty then [] else [(⟨.inlineHtml, markup, 0⟩ : Token)]).filter
      (fun token => !token.kind.isTrivia && markup.size + tag.size ≤ token.offset) = [] := by
    split
    · rfl
    · simp only [List.filter_cons, List.filter_nil]
      rw [if_neg]
      simp only [Bool.and_eq_true, decide_eq_true_eq]
      omega
  have tagged : ¬(!TokenKind.isTrivia .openTag && decide (markup.size + tag.size ≤ markup.size))
      = true := by
    simp only [Bool.and_eq_true, decide_eq_true_eq]
    omega
  rw [before, if_neg tagged, List.nil_append, codeStart, Text.size_append, Cursor.tokens,
    Cursor.ofTokens, map_token_lexemes]
  refine List.filter_congr fun token listed => ?_
  simp [le_offset_of_mem_place listed]

/-- The items of a file lie over the tokens of its code. -/
theorem tiles_of_parse {source : Text} {file : SourceFile} {opening : OpenTag}
    (parsed : parse source = .ok file) (tagged : file.openTag? = some opening)
    : Tiles (Item.Over source) file.items (opening.codeTokens source) := by
  obtain ⟨markup, code, entered, stop, coded, _, span, commented, turns⟩ :=
    exists_run_of_parse parsed tagged
  have start := coded.tokens_codeStart (congrArg Span.stop span)
  have faithful : (codeStart source markup opening.text code).IsFaithful := by
    unfold Cursor.IsFaithful
    rw [start]
    exact List.filter_sublist
  have reached := reaches_of_run commented
  obtain ⟨passed, whole, tiles⟩ := turns.laysOver laysOver_itemTurn (faithful.reaches reached)
  obtain ⟨_, _, final⟩ := turns.exists_last
  rw [(tokens_of_itemTurn_last final).2.2, List.append_nil,
    Cursor.tokens_congr (ahead_of_run_trailing? commented), start] at whole
  rw [source_of_reaches reached, ← whole] at tiles
  exact tiles

end ImportHeader
