import ImportHeader.Proofs.Parser.Run
import Mathlib.Data.List.Infix

/-! The parser makes progress: every turn of a repetition that goes on moves behind a token. The
budgets of the parser are therefore never used up.
-/

namespace ImportHeader

namespace Cursor

variable {start middle stop : Cursor}

theorem advance_ahead (cursor : Cursor) : cursor.advance.ahead = cursor.ahead.drop 1 := by
  unfold advance
  split
  · rename_i ended
    rw [ended]
    rfl
  · rename_i lexeme rest next
    rw [next]
    rfl

/-- A cursor that is reached stands before the last lexemes of the first one. -/
theorem Reaches.ahead_suffix (reached : start.Reaches stop) : stop.ahead <:+ start.ahead := by
  induction reached with
  | refl => exact List.suffix_refl _
  | advance _ ih => exact advance_ahead _ ▸ (List.drop_suffix 1 _).trans ih
  | pass _ _ ih => exact ih

theorem Reaches.length_le (reached : start.Reaches stop)
    : stop.ahead.length ≤ start.ahead.length :=
  reached.ahead_suffix.length_le

/-- At least one token lies between two cursors. -/
def Passes (start stop : Cursor) : Prop :=
  stop.ahead.length < start.ahead.length

theorem Passes.reaches (passed : start.Passes middle) (reached : middle.Reaches stop)
    : start.Passes stop :=
  Nat.lt_of_le_of_lt reached.length_le passed

theorem Reaches.passes (reached : start.Reaches middle) (passed : middle.Passes stop)
    : start.Passes stop :=
  Nat.lt_of_lt_of_le passed reached.length_le

/-- Either a token lies between two cursors, or they stand before the same lexemes. -/
theorem Reaches.passes_or (reached : start.Reaches stop)
    : start.Passes stop ∨ stop.ahead = start.ahead := by
  rcases Nat.lt_or_eq_of_le reached.length_le with shorter | same
  · exact .inl shorter
  · exact .inr (reached.ahead_suffix.eq_of_length same)

theorem exists_token (here : start.ahead ≠ []) : ∃ token, start.token? 0 = some token := by
  obtain ⟨lexeme, rest, ahead⟩ := List.exists_cons_of_ne_nil here
  exact ⟨lexeme.token, by simp [token?, ahead]⟩

theorem ahead_ne_nil_of_token? {token : Token} (next : start.token? 0 = some token)
    : start.ahead ≠ [] := by
  intro ended
  simp [token?, ended] at next

theorem ahead_ne_nil_of_kind? {kind : TokenKind} (next : start.kind? 0 = some kind)
    : start.ahead ≠ [] := by
  intro ended
  simp [kind?, token?, ended] at next

theorem ahead_ne_nil_of_isAt {kind : TokenKind} (here : start.isAt kind = true)
    : start.ahead ≠ [] :=
  ahead_ne_nil_of_kind? (beq_iff_eq.mp here)

theorem ahead_ne_nil_of_isKeyword {keywords : List Text}
    (here : start.isKeyword 0 keywords = true)
    : start.ahead ≠ [] := by
  intro ended
  simp [isKeyword, token?, ended] at here

theorem kind?_congr (same : stop.ahead = start.ahead) (n : Nat)
    : stop.kind? n = start.kind? n := by
  simp only [kind?, token?, same]

theorem passes_advance (here : start.ahead ≠ []) : start.Passes start.advance := by
  have longer := List.length_pos_iff.mpr here
  unfold Passes
  rw [advance_ahead, List.length_drop]
  omega

end Cursor

namespace Parser

variable {α β : Type} {start stop : Cursor}

theorem kind?_of_isKeyword {n : Nat} {keywords : List Text}
    (here : start.isKeyword n keywords = true)
    : start.kind? n = some .name := by
  unfold Cursor.isKeyword at here
  unfold Cursor.kind?
  cases next : start.token? n with
  | none => simp [next] at here
  | some token =>
      rw [next, Option.any_some, List.any_eq_true] at here
      obtain ⟨keyword, _, spelled⟩ := here
      rw [Option.map_some, eq_of_beq (Bool.and_eq_true_iff.mp spelled).1]

theorem kind?_succ (start : Cursor) (n : Nat) : start.kind? (n + 1) = start.advance.kind? n := by
  simp [Cursor.kind?, Cursor.token?, Cursor.advance_ahead]

/-- What the first of two steps passes, both pass. -/
theorem passes_of_first {step : Parser α} {next : α → Parser β} {result : β}
    (first : ∀ {found middle}, step.run start = .ok (found, middle) → start.Passes middle)
    (ran : (step >>= next).run start = .ok (result, stop))
    : start.Passes stop := by
  obtain ⟨_, _, begun, rest⟩ := bind_eq_ok.mp ran
  exact (first begun).reaches (reaches_of_run rest)

/-- What the second of two steps passes from anywhere, both pass. -/
theorem passes_of_second {step : Parser α} {next : α → Parser β} {result : β}
    (second
      : ∀ {found middle},
          step.run start = .ok (found, middle)
          → (next found).run middle = .ok (result, stop)
          → middle.Passes stop)
    (ran : (step >>= next).run start = .ok (result, stop))
    : start.Passes stop := by
  obtain ⟨_, _, begun, rest⟩ := bind_eq_ok.mp ran
  exact (reaches_of_run begun).passes (second begun rest)

theorem passes_of_skip {next : Unit → Parser α} {result : α} (here : start.ahead ≠ [])
    (ran : (skip >>= next).run start = .ok (result, stop))
    : start.Passes stop :=
  passes_of_first (fun skipped => skip_eq_ok.mp skipped ▸ Cursor.passes_advance here) ran

theorem passes_of_eat {kind : TokenKind} (ran : (eat kind).run start = .ok (true, stop))
    : start.Passes stop := by
  obtain ⟨here, rfl⟩ := eat_eq_ok.mp ran
  rw [if_pos here.symm]
  exact Cursor.passes_advance (Cursor.ahead_ne_nil_of_isAt here.symm)

theorem passes_of_eatKeyword {keyword : Text}
    (ran : (eatKeyword keyword).run start = .ok (true, stop))
    : start.Passes stop := by
  obtain ⟨here, rfl⟩ := eatKeyword_eq_ok.mp ran
  rw [if_pos here.symm]
  exact Cursor.passes_advance (Cursor.ahead_ne_nil_of_isKeyword here.symm)

theorem passes_of_expect {kind : TokenKind} {what : Expectation} {token : Token}
    (ran : (expect kind what).run start = .ok (token, stop))
    : start.Passes stop := by
  obtain ⟨next, _, rfl⟩ := expect_eq_ok.mp ran
  exact Cursor.passes_advance (Cursor.ahead_ne_nil_of_token? next)

theorem passes_of_name? {found : Option LocatedName} (here : start.kind? 0 = some .name)
    (ran : name?.run start = .ok (found, stop))
    : start.Passes stop := by
  rcases name?_eq_ok.mp ran with ⟨_, next, _, _, rfl⟩ | ⟨other, _⟩
  · exact Cursor.passes_advance (Cursor.ahead_ne_nil_of_token? next)
  · exact absurd here other

theorem passes_of_expectName {what : Expectation} {found : LocatedName}
    (ran : (expectName what).run start = .ok (found, stop))
    : start.Passes stop := by
  obtain ⟨_, next, _, _, rfl⟩ := expectName_eq_ok.mp ran
  exact Cursor.passes_advance (Cursor.ahead_ne_nil_of_token? next)

theorem Turns.reaches {turn : Parser (Turn α)} {found : List α}
    (turns : Turns turn start found stop)
    : start.Reaches stop := by
  induction turns with
  | last ran => exact reaches_of_run ran
  | more ran _ ih => exact (reaches_of_run ran).trans ih

/-- What each turn gives to all it finds where something holds that cursors keep, the turns together
give.
-/
theorem Turns.forall_of_kept {turn : Parser (Turn α)} {found : List α} {property : α → Prop}
    {kept : Cursor → Prop}
    (keeps : ∀ {start stop : Cursor}, kept start → start.Reaches stop → kept stop)
    (each
      : ∀ {start stop result}, kept start
          → turn.run start = .ok (result, stop) → ∀ x ∈ result.found, property x)
    (held : kept start) (turns : Turns turn start found stop)
    : ∀ x ∈ found, property x := by
  induction turns with
  | last ran => exact each held ran
  | more ran _ ih =>
      intro x member
      rcases List.mem_append.mp member with here | later
      · exact each held ran x here
      · exact ih (keeps held (reaches_of_run ran)) x later

/-- A turn that goes on moves behind a token. -/
def Strides (turn : Parser (Turn α)) : Prop :=
  ∀ {start stop : Cursor} {found : List α},
    turn.run start = .ok (.more found, stop) → start.Passes stop

/-- A step that starts at a token moves behind it. -/
def Moves (step : Parser α) : Prop :=
  ∀ {start stop : Cursor} {found : α},
    start.ahead ≠ [] → step.run start = .ok (found, stop) → start.Passes stop

-----------------------------------------------------------------------------------------
-- Names, types and imports
-----------------------------------------------------------------------------------------

theorem strides_nameListTurn : Strides nameListTurn :=
  passes_of_first passes_of_expectName

theorem passes_of_typeName {found : List LocatedName} (here : start.kind? 0 = some .name)
    (ran : typeName.run start = .ok (found, stop))
    : start.Passes stop :=
  passes_of_first (passes_of_name? here) ran

theorem strides_typeGroupTurn : Strides typeGroupTurn := by
  intro start stop found ran
  rw [typeGroupTurn, get_bind_eq_ok] at ran
  split at ran
  · rename_i here
    exact passes_of_first (passes_of_typeName here) ran
  · rename_i here
    exact passes_of_skip (Cursor.ahead_ne_nil_of_kind? here) ran
  · rw [skip_bind_eq_ok] at ran
    simp at ran
  · simp at ran

theorem passes_of_typeJoint (ran : typeJoint.run start = .ok (true, stop))
    : start.Passes stop := by
  obtain ⟨eaten, middle, ate, ran⟩ := bind_eq_ok.mp ran
  cases eaten with
  | true =>
      obtain ⟨_, rfl⟩ := pure_eq_ok.mp ran
      exact passes_of_eat ate
  | false =>
      refine (reaches_of_run ate).passes ?_
      simp only [Bool.false_eq_true, if_false] at ran
      rw [get_bind_eq_ok] at ran
      split at ran
      · rename_i joins
        have here := (Bool.and_eq_true_iff.mp joins).1
        exact passes_of_skip (Cursor.ahead_ne_nil_of_isAt here) ran
      · rename_i apart
        exact absurd (pure_eq_ok.mp ran).1 apart

theorem strides_typeTurn : Strides typeTurn := by
  intro start stop found ran
  refine passes_of_second (fun {atom? middle} _ ran => ?_) ran
  cases atom? with
  | none => simp at ran
  | some names =>
      obtain ⟨joined, _, joint, ran⟩ := bind_eq_ok.mp ran
      cases joined with
      | false => simp at ran
      | true => exact (passes_of_typeJoint joint).reaches (reaches_of_run ran)

theorem strides_importListTurn : Strides importListTurn :=
  passes_of_first passes_of_expectName

theorem strides_importGroupTurn : Strides importGroupTurn := by
  intro start stop found ran
  refine passes_of_second (fun {eaten middle} _ ran => ?_) ran
  cases eaten with
  | true => simp at ran
  | false => exact passes_of_second (fun _ ran => passes_of_first passes_of_expectName ran) ran

end Parser

end ImportHeader
