import ImportHeader.Proofs.Parser.BodyProgress

/-! The last turns of the repetitions in bodies: at which token each of them ends, and whether it
moves behind it.
-/

namespace ImportHeader

namespace Parser

variable {start stop : Cursor}

section Last

variable {one : Parser (List Expr)}

/-- The last turn through a bracket group moves behind its closing bracket. -/
theorem groupTurn_last {opening : Token} {found : List Expr}
    (ran : (groupTurn one opening).run start = .ok (.last found, stop))
    : start.kind? 0 = some (closing opening.kind) ∧ found = [] ∧ stop = start.advance := by
  rw [groupTurn, get_bind_eq_ok] at ran
  split at ran
  · exact absurd ran throw_ne_ok
  · rename_i here
    split at ran
    · rename_i closes
      obtain ⟨same, rfl⟩ := skip_pure_eq_ok.mp ran
      cases same
      exact ⟨closes ▸ here, rfl, rfl⟩
    · exact absurd ran (bind_pure_ne_ok (by simp))

theorem paramTurn_last {found : List (Param Expr)}
    (ran : (paramTurn one).run start = .ok (.last found, stop))
    : start.kind? 0 = some .rightParen ∧ found = [] ∧ stop = start.advance := by
  rw [paramTurn, get_bind_eq_ok] at ran
  split at ran
  · exact absurd ran fail_ne_ok
  · rename_i here
    obtain ⟨same, rfl⟩ := skip_pure_eq_ok.mp ran
    cases same
    exact ⟨here, rfl, rfl⟩
  · exact absurd ran (bind_pure_ne_ok (by simp))
  · exact absurd ran (bind_pure_ne_ok (by simp))

theorem attributeTurn_last {found : List Expr}
    (ran : (attributeTurn one).run start = .ok (.last found, stop))
    : start.kind? 0 = some .rightBracket ∧ found = [] ∧ stop = start.advance := by
  rw [attributeTurn, get_bind_eq_ok] at ran
  split at ran
  · exact absurd ran fail_ne_ok
  · rename_i here
    obtain ⟨same, rfl⟩ := skip_pure_eq_ok.mp ran
    cases same
    exact ⟨here, rfl, rfl⟩
  · exact absurd ran (bind_pure_ne_ok (by simp))
  · obtain ⟨_, _, _, later⟩ := bind_eq_ok.mp ran
    exact absurd later (bind_pure_ne_ok (by simp))
  · exact absurd ran (bind_pure_ne_ok (by simp))

theorem catchTurn_last {found : List LocatedName}
    (ran : (catchTurn one).run start = .ok (.last found, stop))
    : start.kind? 0 = some .rightParen ∧ found = [] ∧ stop = start.advance := by
  rw [catchTurn, get_bind_eq_ok] at ran
  split at ran
  · exact absurd ran fail_ne_ok
  · rename_i here
    obtain ⟨same, rfl⟩ := skip_pure_eq_ok.mp ran
    cases same
    exact ⟨here, rfl, rfl⟩
  · exact absurd ran (bind_pure_ne_ok (by simp))
  · exact absurd ran (bind_pure_ne_ok (by simp))

theorem typeGroupTurn_last {found : List LocatedName}
    (ran : typeGroupTurn.run start = .ok (.last found, stop))
    : start.kind? 0 = some .rightParen ∧ found = [] ∧ stop = start.advance := by
  rw [typeGroupTurn, get_bind_eq_ok] at ran
  split at ran
  · exact absurd ran (bind_pure_ne_ok (by simp))
  · exact absurd ran (bind_pure_ne_ok (by simp))
  · rename_i here
    obtain ⟨same, rfl⟩ := skip_pure_eq_ok.mp ran
    cases same
    exact ⟨here, rfl, rfl⟩
  · exact absurd ran fail_ne_ok

/-- The last turn through the body of a class stands before its closing brace, behind attributes
that belong to no member.
-/
theorem memberTurn_last {found : List (Member Expr)}
    (ran : (memberTurn one).run start = .ok (.last found, stop))
    : ∃ listed middle, (attributes one).run start = .ok (listed, middle)
        ∧ middle.kind? 0 = some .rightBrace ∧ found = [] ∧ stop = middle.advance := by
  obtain ⟨listed, middle, attributed, ran⟩ := bind_eq_ok.mp ran
  rw [get_bind_eq_ok] at ran
  split at ran
  · exact absurd ran fail_ne_ok
  · rename_i here
    obtain ⟨same, rfl⟩ := skip_pure_eq_ok.mp ran
    cases same
    exact ⟨listed, middle, attributed, here, rfl, rfl⟩
  · exact absurd ran (bind_pure_ne_ok (by simp))
  · obtain ⟨_, _, _, later⟩ := bind_eq_ok.mp ran
    split at later
    · exact absurd later (bind_pure_ne_ok (by simp))
    · exact absurd later (bind_pure_ne_ok (by simp))

end Last

end Parser

end ImportHeader
