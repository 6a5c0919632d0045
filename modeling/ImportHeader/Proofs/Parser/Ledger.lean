import ImportHeader.Proofs.Parser.Settling
import ImportHeader.Proofs.Token.Nesting
import Mathlib.Data.List.Perm.Basic

/-! What a step of the parser passes. The tokens that it moves behind lead from one stack of
brackets to another, and what its result shows is spelled by them. The step does not stall, and does
the same whatever scans the groups in it, as long as the scans agree there. There is one rule for
each way in which steps are put together, and one lemma for each function of the parser keeps to the
rules.
-/

namespace ImportHeader

/-- The marks with which a statement ends. -/
inductive EndMark where
  | closeTag
  | semicolon

def EndMark.kind : EndMark → TokenKind
  | .closeTag => .closeTag
  | .semicolon => .semicolon

theorem EndMark.isBracket_kind (mark : EndMark) : mark.kind.isBracket = false := by
  cases mark <;> rfl

/-- The kinds of tokens that are no brackets and end no statement. -/
def TokenKind.isQuiet (kind : TokenKind) : Bool :=
  !(kind.isBracket || kind == .closeTag || kind == .semicolon)

theorem EndMark.ne_of_isQuiet {kind : TokenKind} (quiet : kind.isQuiet = true) (mark : EndMark)
    : kind ≠ mark.kind := by
  rintro rfl
  cases mark <;> cases quiet

namespace Unwinds

variable {mark : EndMark} {stack : List TokenKind} {kind opening closing : TokenKind}

theorem quiet (quiet : kind.isQuiet = true) : Unwinds mark.kind stack [kind] stack := by
  refine .plain ?_ (fun _ => mark.ne_of_isQuiet quiet) .nil
  cases kind <;> first | rfl | cases quiet

theorem push (closes : opening.closer? = some closing)
    : Unwinds mark.kind stack [opening] (closing :: stack) :=
  .opened closes .nil

theorem pop (bracket : closing.isBracket = true)
    : Unwinds mark.kind (closing :: stack) [closing] stack :=
  .closed bracket .nil

/-- Where a bracket is open, or it is not the mark in question, a semicolon can stand. -/
theorem semicolon (free : stack = [] → mark = .closeTag)
    : Unwinds mark.kind stack [.semicolon] stack :=
  .plain rfl (fun none => free none ▸ nofun) .nil

theorem innerSemicolon
    : Unwinds mark.kind (closing :: stack) [.semicolon] (closing :: stack) :=
  .semicolon nofun

end Unwinds

/-- Things found among others, each as often at most, and in their order if the file is calm. -/
structure Among {σ : Type} (calm : Prop) (found others : List σ) : Prop where
  each : found.Subperm others
  order : calm → found.Sublist others

namespace Among

variable {σ : Type} {calm : Prop} {found others middle more rest : List σ}

theorem of_sublist (inside : found.Sublist others) : Among calm found others :=
  ⟨inside.subperm, fun _ => inside⟩

theorem trans (first : Among calm found middle) (second : Among calm middle others)
    : Among calm found others :=
  ⟨first.each.trans second.each, fun still => (first.order still).trans (second.order still)⟩

theorem append (first : Among calm found others) (second : Among calm more rest)
    : Among calm (found ++ more) (others ++ rest) := by
  obtain ⟨⟨chosen, same, inside⟩, order⟩ := first
  obtain ⟨⟨chosen', same', inside'⟩, order'⟩ := second
  exact ⟨⟨chosen ++ chosen', same.append same', inside.append inside'⟩,
    fun still => (order still).append (order' still)⟩

end Among

namespace Cursor

variable {start middle stop : Cursor}

/-- The tokens ahead that carry syntax. -/
def tokens (cursor : Cursor) : List Token :=
  cursor.ahead.map Lexeme.token

theorem tokens_congr (same : stop.ahead = start.ahead) : stop.tokens = start.tokens :=
  congrArg (List.map Lexeme.token) same

theorem head?_tokens (cursor : Cursor) : cursor.tokens.head? = cursor.token? 0 := by
  rw [tokens, token?, List.head?_map, List.head?_eq_getElem?]

/-- The next token is the first of those ahead. -/
theorem tokens_of_token? {token : Token} (here : start.token? 0 = some token)
    : start.tokens = token :: start.advance.tokens := by
  unfold token? at here
  unfold tokens advance
  cases ahead : start.ahead with
  | nil => simp [ahead] at here
  | cons lexeme rest =>
      obtain rfl : lexeme.token = token := by simpa [ahead] using here
      rfl

theorem tokens_of_kind? {kind : TokenKind} (here : start.kind? 0 = some kind)
    : ∃ token, token.kind = kind ∧ start.tokens = token :: start.advance.tokens := by
  obtain ⟨token, next, same⟩ := Option.map_eq_some_iff.mp here
  exact ⟨token, same, tokens_of_token? next⟩

/-- Moving forward passes tokens, and the last of them is where the last token ends. -/
theorem Reaches.exists_tokens (reached : start.Reaches stop)
    : ∃ passed, start.tokens = passed ++ stop.tokens
        ∧ stop.lastEnd = (passed.getLast?.map Token.stop).getD start.lastEnd := by
  induction reached with
  | refl => exact ⟨[], rfl, rfl⟩
  | @advance stop _ ih =>
      obtain ⟨passed, whole, ends⟩ := ih
      unfold Cursor.advance
      cases ahead : stop.ahead with
      | nil => exact ⟨passed, whole, ends⟩
      | cons lexeme rest =>
          refine ⟨passed ++ [lexeme.token], ?_, ?_⟩
          · rw [whole, tokens, ahead, List.append_assoc]
            rfl
          · rw [List.getLast?_concat]
            rfl
  | pass _ _ ih => exact ih

end Cursor

namespace Parser

variable {α β σ τ : Type}

/-- What is read off the tokens ahead of a cursor: what each of them spells, and when that is found
in order. Outside of brackets a given mark does not stand.
-/
structure Ledger (σ : Type) where
  root : Cursor
  mark : EndMark
  spell : Token → Option σ
  calm : Prop

/-- The tokens between two cursors lead from one stack of brackets to another one. What is shown is
among what was known before, and what these tokens spell.
-/
def Spent (ledger : Ledger σ) (stack rest : List TokenKind) (before shown : List σ)
    (start stop : Cursor) : Prop :=
  ∃ passed, start.tokens = passed ++ stop.tokens
    ∧ Unwinds ledger.mark.kind stack (passed.map Token.kind) rest
    ∧ Among ledger.calm shown (before ++ passed.filterMap ledger.spell)

/-- From a cursor that the root of a ledger reaches, with less than `bound` tokens ahead, two steps
do the same and do not stall. The tokens that they pass lead from a stack of brackets to another one,
which can hang on the result. What a view of the result shows is among what was known before, and
what these tokens spell.
-/
def Spends (ledger : Ledger σ) (bound : Nat) (stack : List TokenKind) (rest : α → List TokenKind)
    (view : α → List σ) (before : List σ) (step step' : Parser α) (start : Cursor) : Prop :=
  ledger.root.Reaches start
    → start.ahead.length < bound
    → Settles step step' start
      ∧ ∀ ⦃found : α⦄ ⦃stop : Cursor⦄, step.run start = .ok (found, stop)
          → Spent ledger stack (rest found) before (view found) start stop

/-- Steps from here pass as many closing brackets as opening ones. -/
abbrev Keeps (ledger : Ledger σ) (bound : Nat) (stack : List TokenKind) (view : α → List σ)
    (before : List σ) (step step' : Parser α) (start : Cursor) : Prop :=
  Spends ledger bound stack (fun _ => stack) view before step step' start

/-- A step from here passes as many closing brackets as opening ones, and shows nothing. -/
abbrev Skips (ledger : Ledger σ) (bound : Nat) (stack : List TokenKind) (step step' : Parser α)
    (start : Cursor) : Prop :=
  Keeps ledger bound stack (fun _ => []) [] step step' start

/-- The stack behind a turn of a repetition: the last turn leads to another one. -/
def Turn.rest (stack rest : List TokenKind) : Turn α → List TokenKind
  | .more _ => stack
  | .last _ => rest

-----------------------------------------------------------------------------------------
-- Steps put together
-----------------------------------------------------------------------------------------

namespace Spent

variable {ledger : Ledger σ} {stack middle rest : List TokenKind} {before known shown : List σ}
  {start behind stop : Cursor}

theorem refl (within : shown.Sublist before) : Spent ledger stack stack before shown start start :=
  ⟨[], rfl, .nil, .of_sublist (within.trans (List.sublist_append_left _ _))⟩

theorem trans (first : Spent ledger stack middle before known start behind)
    (second : Spent ledger middle rest known shown behind stop)
    : Spent ledger stack rest before shown start stop := by
  obtain ⟨passed, whole, unwinds, among⟩ := first
  obtain ⟨passed', whole', unwinds', among'⟩ := second
  refine ⟨passed ++ passed', by rw [whole, whole', List.append_assoc], ?_, among'.trans ?_⟩
  · rw [List.map_append]
    exact unwinds.append unwinds'
  · rw [List.filterMap_append, ← List.append_assoc]
    exact among.append (.of_sublist (List.Sublist.refl _))

/-- What was known before is known beside what is shown. -/
theorem frame (spent : Spent ledger stack rest [] shown start stop) (before : List σ)
    : Spent ledger stack rest before (before ++ shown) start stop := by
  obtain ⟨passed, whole, unwinds, among⟩ := spent
  exact ⟨passed, whole, unwinds, (Among.of_sublist (List.Sublist.refl _)).append among⟩

end Spent

section

variable {ledger : Ledger σ} {bound : Nat} {stack last : List TokenKind}
  {rest : β → List TokenKind} {view : β → List σ} {before : List σ} {start behind : Cursor}

namespace Spends

/-- What is returned shows what is known. -/
theorem pure {value : β} (same : rest value = stack) (known : (view value).Sublist before)
    : Spends ledger bound stack rest view before (pure value) (pure value) start := by
  refine fun _ _ => ⟨settles_pure, fun found stop ran => ?_⟩
  obtain ⟨rfl, rfl⟩ := pure_eq_ok.mp ran
  exact same ▸ .refl known

theorem fail {cause : ParseCause} (other : cause ≠ .stalled)
    : Spends ledger bound stack rest view before (fail cause : Parser β) (fail cause) start := by
  refine fun _ _ => ⟨⟨rfl, ?_⟩, fun _ _ ran => absurd ran fail_ne_ok⟩
  rintro span ⟨⟩
  exact other rfl

theorem throw {error : ParseError} (other : error.cause ≠ .stalled)
    : Spends ledger bound stack rest view before (throw error : Parser β) (throw error) start := by
  refine fun _ _ => ⟨⟨rfl, ?_⟩, fun _ _ ran => absurd ran throw_ne_ok⟩
  rintro span ⟨⟩
  exact other rfl

theorem get {next next' : Cursor → Parser β}
    (later : Spends ledger bound stack rest view before (next start) (next' start) start)
    : Spends ledger bound stack rest view before (Parser.get >>= next) (Parser.get >>= next')
        start := by
  intro reached within
  obtain ⟨settles, spent⟩ := later reached within
  refine ⟨.bind ⟨rfl, nofun⟩ fun got => ?_, fun _ _ ran => spent (get_bind_eq_ok.mp ran)⟩
  obtain ⟨rfl, rfl⟩ := get_eq_ok.mp got
  exact settles

/-- Without what it shows, a step passes the same, whatever is read off the tokens. -/
theorem quiet {ledger' : Ledger τ} {step step' : Parser β}
    (spends : Spends ledger bound stack rest view before step step' start)
    (root : ledger'.root = ledger.root) (mark : ledger'.mark = ledger.mark)
    : Spends ledger' bound stack rest (fun _ => []) [] step step' start := by
  intro reached within
  obtain ⟨settles, spent⟩ := spends (root ▸ reached) within
  refine ⟨settles, fun found stop ran => ?_⟩
  obtain ⟨passed, whole, unwinds, _⟩ := spent ran
  exact ⟨passed, whole, mark ▸ unwinds, .of_sublist (List.nil_sublist _)⟩

/-- What holds with some tokens ahead holds with less. -/
theorem narrow {step step' : Parser β}
    (spends : Spends ledger (bound + 1) stack rest view before step step' start)
    : Spends ledger bound stack rest view before step step' start :=
  fun reached within => spends reached (Nat.lt_succ_of_lt within)

/-- Behind a token there are less tokens ahead. -/
theorem of_passes {bound' : Nat} {step step' : Parser β} (passed : start.Passes behind)
    (within : start.ahead.length < bound + 1)
    (spends : Spends ledger bound stack rest view before step step' behind)
    : Spends ledger bound' stack rest view before step step' behind :=
  fun reached _ => spends reached (Nat.lt_of_lt_of_le passed (Nat.le_of_lt_succ within))

variable {middle : α → List TokenKind} {shown : α → List σ} {step step' : Parser α}

/-- A step goes on with what the step before it shows. -/
theorem next {next next' : α → Parser β}
    (first : Spends ledger bound stack middle shown before step step' start)
    (later
      : ∀ {found behind}, step.run start = .ok (found, behind)
          → Spends ledger bound (middle found) rest view (shown found) (next found) (next' found)
              behind)
    : Spends ledger bound stack rest view before (step >>= next) (step' >>= next') start := by
  intro reached within
  obtain ⟨settles, spent⟩ := first reached within
  have there {found : α} {behind : Cursor} (ran : step.run start = .ok (found, behind)) :=
    later ran (reached.trans (reaches_of_run ran))
      (Nat.lt_of_le_of_lt (reaches_of_run ran).length_le within)
  refine ⟨settles.bind fun ran => (there ran).1, fun result stop ran => ?_⟩
  obtain ⟨found, behind, here, done⟩ := bind_eq_ok.mp ran
  exact (spent here).trans ((there here).2 done)

/-- What a first step shows is known behind it, beside what was known before. -/
theorem bind {next next' : α → Parser β}
    (first : Spends ledger bound stack middle shown [] step step' start)
    (later
      : ∀ {found behind}, step.run start = .ok (found, behind)
          → Spends ledger bound (middle found) rest view (before ++ shown found) (next found)
              (next' found) behind)
    : Spends ledger bound stack rest view before (step >>= next) (step' >>= next') start := by
  have framed : Spends ledger bound stack middle (fun found => before ++ shown found) before step
      step' start := by
    intro reached within
    obtain ⟨settles, spent⟩ := first reached within
    exact ⟨settles, fun found stop ran => (spent ran).frame before⟩
  exact framed.next later

/-- A first step can show nothing. -/
theorem after {next next' : α → Parser β}
    (first : Spends ledger bound stack middle (fun _ => []) [] step step' start)
    (later
      : ∀ {found behind}, step.run start = .ok (found, behind)
          → Spends ledger bound (middle found) rest view before (next found) (next' found) behind)
    : Spends ledger bound stack rest view before (step >>= next) (step' >>= next') start := by
  refine first.bind fun ran => ?_
  rw [List.append_nil]
  exact later ran

/-- Turns together show what each of them shows, by induction over the turns. -/
theorem collect {view : List α → List σ} {turn turn' : Parser (Turn α)} (strides : Strides turn)
    (join : ∀ left right, view (left ++ right) = view left ++ view right)
    (each
      : ∀ start,
          Spends ledger bound stack (Turn.rest stack last) (fun result => view result.found) []
            turn turn' start)
    : Spends ledger bound stack (fun _ => last) view [] (collect turn) (collect turn') start := by
  intro reached within
  refine ⟨settles_collect strides fun middle further => ?_, fun found stop ran => ?_⟩
  · exact (each middle (reached.trans further)
      (Nat.lt_of_le_of_lt further.length_le within)).1
  · have turns := turns_of_collect ran
    clear ran
    induction turns with
    | last ran => exact (each _ reached within).2 ran
    | more ran _ ih =>
        have further := reaches_of_run ran
        have first := (each _ reached within).2 ran
        have second := ih (reached.trans further) (Nat.lt_of_le_of_lt further.length_le within)
        rw [join]
        exact first.trans (second.frame _)

end Spends

theorem Keeps.collect {view : List α → List σ} {turn turn' : Parser (Turn α)}
    (strides : Strides turn) (join : ∀ left right, view (left ++ right) = view left ++ view right)
    (each
      : ∀ start, Keeps ledger bound stack (fun result => view result.found) [] turn turn' start)
    : Keeps ledger bound stack view [] (collect turn) (collect turn') start := by
  refine Spends.collect strides join fun start reached within => ?_
  obtain ⟨settles, spent⟩ := each start reached within
  refine ⟨settles, fun result stop ran => ?_⟩
  have same : Turn.rest stack stack result = stack := by cases result <;> rfl
  rw [same]
  exact spent ran

end

-----------------------------------------------------------------------------------------
-- Single tokens
-----------------------------------------------------------------------------------------

section

variable {ledger : Ledger σ} {bound : Nat} {stack rest : List TokenKind} {kind : TokenKind}
  {start : Cursor}

/-- A token that is passed shows what it spells. -/
theorem spends_token {token : Token} (here : start.token? 0 = some token)
    (unwinds : Unwinds ledger.mark.kind stack [token.kind] rest)
    : Spends ledger bound stack (fun _ => rest) (fun _ => (ledger.spell token).toList) [] skip skip
        start := by
  refine fun _ _ => ⟨⟨rfl, nofun⟩, fun found stop ran => ?_⟩
  obtain rfl := skip_eq_ok.mp ran
  refine ⟨[token], Cursor.tokens_of_token? here, unwinds, .of_sublist ?_⟩
  rw [List.nil_append, List.filterMap_cons]
  cases ledger.spell token <;> exact List.Sublist.refl _

theorem spends_skip (here : start.kind? 0 = some kind)
    (unwinds : Unwinds ledger.mark.kind stack [kind] rest)
    : Spends ledger bound stack (fun _ => rest) (fun _ => []) [] skip skip start := by
  obtain ⟨token, next, rfl⟩ := Option.map_eq_some_iff.mp here
  exact (spends_token next unwinds).quiet rfl rfl

/-- Behind a first token one token less is ahead. -/
theorem Spends.behind {rest' : β → List TokenKind} {view : β → List σ} {before : List σ}
    {next next' : Unit → Parser β} (here : start.kind? 0 = some kind)
    (unwinds : Unwinds ledger.mark.kind stack [kind] rest)
    (later : Spends ledger bound rest rest' view before (next ()) (next' ()) start.advance)
    : Spends ledger (bound + 1) stack rest' view before (skip >>= next) (skip >>= next') start := by
  intro reached within
  refine (spends_skip here unwinds).after (fun {_ behind} skipped => ?_) reached within
  obtain rfl := skip_eq_ok.mp skipped
  exact .of_passes (Cursor.passes_advance (Cursor.ahead_ne_nil_of_kind? here)) within later

theorem spends_expect {what : Expectation} (unwinds : Unwinds ledger.mark.kind stack [kind] rest)
    : Spends ledger bound stack (fun _ => rest) (fun _ => []) [] (expect kind what)
        (expect kind what) start := by
  refine .get ?_
  cases next : start.token? 0 with
  | none => exact .fail nofun
  | some token =>
      dsimp only
      split
      · rename_i same
        have here : start.kind? 0 = some kind := by rw [Cursor.kind?, next, Option.map_some, same]
        exact (spends_skip here unwinds).after fun _ => .pure rfl (List.nil_sublist _)
      · exact .fail nofun

/-- What is eaten leads to another stack. -/
theorem spends_eat (unwinds : start.isAt kind = true → Unwinds ledger.mark.kind stack [kind] rest)
    : Spends ledger bound stack (fun eaten => cond eaten rest stack) (fun _ => []) [] (eat kind)
        (eat kind) start := by
  refine .get ?_
  split
  · rename_i here
    exact (spends_skip (eq_of_beq here) (unwinds here)).after fun _ =>
      .pure rfl (List.nil_sublist _)
  · exact .pure rfl (List.nil_sublist _)

theorem skips_eat (quiet : kind.isQuiet = true)
    : Skips ledger bound stack (eat kind) (eat kind) start := by
  refine .get ?_
  split
  · rename_i here
    exact (spends_skip (eq_of_beq here) (.quiet quiet)).after fun _ =>
      .pure rfl (List.nil_sublist _)
  · exact .pure rfl (List.nil_sublist _)

theorem skips_eatKeyword {keyword : Text}
    : Skips ledger bound stack (eatKeyword keyword) (eatKeyword keyword) start := by
  refine .get ?_
  split
  · rename_i here
    exact (spends_skip (kind?_of_isKeyword here) (.quiet rfl)).after fun _ =>
      .pure rfl (List.nil_sublist _)
  · exact .pure rfl (List.nil_sublist _)

/-- What a name shows is spelled by its token. -/
theorem keeps_name? {shown : LocatedName → List σ}
    (spelled
      : ∀ {token : Token} {located : LocatedName},
          token.kind = .name
          → LocatedName.read? token.text token.span = some located
          → shown located = (ledger.spell token).toList)
    : Keeps ledger bound stack (fun found => found.toList.flatMap shown) [] name? name? start := by
  refine .get ?_
  cases next : start.token? 0 with
  | none => exact .pure rfl (List.nil_sublist _)
  | some token =>
      dsimp only
      split
      · rename_i kind
        refine (spends_token next (kind ▸ .quiet rfl)).bind fun _ => .pure rfl ?_
        cases read : LocatedName.read? token.text token.span with
        | none => exact List.nil_sublist _
        | some located =>
            rw [Option.toList_some, List.flatMap_singleton, spelled kind read]
            exact List.sublist_append_right _ _
      · exact .pure rfl (List.nil_sublist _)

theorem keeps_expectName {what : Expectation} {shown : LocatedName → List σ}
    (spelled
      : ∀ {token : Token} {located : LocatedName},
          token.kind = .name
          → LocatedName.read? token.text token.span = some located
          → shown located = (ledger.spell token).toList)
    : Keeps ledger bound stack shown [] (expectName what) (expectName what) start := by
  refine (keeps_name? spelled).bind fun {found _} _ => ?_
  cases found with
  | some name => exact .pure rfl (by simp)
  | none => exact .fail nofun

theorem skips_name? : Skips ledger bound stack name? name? start := by
  refine .get ?_
  cases next : start.token? 0 with
  | none => exact .pure rfl (List.nil_sublist _)
  | some token =>
      dsimp only
      split
      · rename_i kind
        have here : start.kind? 0 = some .name := by
          rw [Cursor.kind?, next, Option.map_some, kind]
        exact (spends_skip here (.quiet rfl)).after fun _ => .pure rfl (List.nil_sublist _)
      · exact .pure rfl (List.nil_sublist _)

theorem skips_expectName {what : Expectation}
    : Skips ledger bound stack (expectName what) (expectName what) start := by
  refine skips_name?.after fun {found _} _ => ?_
  cases found with
  | some name => exact .pure rfl (List.nil_sublist _)
  | none => exact .fail nofun

end

end Parser

end ImportHeader
