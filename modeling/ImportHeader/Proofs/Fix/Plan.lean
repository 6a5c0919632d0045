import ImportHeader.Fix
import ImportHeader.Proofs.Header.Scope

/-! Runs that reach the edit of their file, and the plan that such a run carries out. -/

namespace ImportHeader

/-- A run over a source that reaches its edit: the source parses to a file with code, the
header of the file can be edited, and the plan is made from what the file says.
-/
structure Run (source : Text) (index : SymbolIndex) (config : Config) (file : SourceFile)
    (edit : Edit) (plan : Plan)
    : Prop where
  parsed : parse source = .ok file
  code : file.hasCode = true
  started : Edit.start file source = .ok edit
  planned
    : plan
      = edit.plan file.extract
        (file.extract.references (ignoreSet config file file.extract index)) index

/-- An edit starts on a file that passes the check, with the file as it is. -/
theorem Edit.start_eq_ok {file : SourceFile} {source : Text} {edit : Edit}
    (started : Edit.start file source = .ok edit)
    : file.checkStructure = .ok ()
      ∧ edit.file = file
      ∧ edit.source = source
      ∧ edit.region? = file.headerRegion?
      ∧ edit.insertAt = (SourceFile.firstImport? file.importScope).getD file.scopeTop
      ∧ edit.inserted = 0
      ∧ edit.preceding = (SourceFile.firstImport? file.importScope).getD 0 := by
  unfold Edit.start at started
  cases check : file.checkStructure with
  | error error => simp [check, bind, Except.bind] at started
  | ok _ =>
      simp only [check, bind, Except.bind, pure, Except.pure, Except.ok.injEq] at started
      subst started
      exact ⟨rfl, rfl, rfl, rfl, rfl, rfl, rfl⟩

theorem Edit.exists_start {file : SourceFile} (checked : file.checkStructure = .ok ())
    (source : Text)
    : ∃ edit, Edit.start file source = .ok edit := by
  rw [Edit.start, checked]
  exact ⟨_, rfl⟩

/-- What holds of an edit and survives the import of a free name holds after all additions of
a run, by induction over the resolutions.
-/
theorem Edit.addResolved_induction {motive : Edit → Prop} (edit : Edit)
    (resolutions : List Resolution) (base : motive edit)
    (step
      : ∀ current reference name,
          ⟨reference, some name⟩ ∈ resolutions
          → motive current
          → current.isImported name = false
          → current.isBound name.last = false
          → motive (current.add name))
    : motive (edit.addResolved resolutions).edit := by
  induction resolutions generalizing edit with
  | nil => exact base
  | cons resolution rest ih =>
      have later := fun current (holds : motive current) => ih current holds
        fun next reference name listed => step next reference name (.tail _ listed)
      obtain ⟨reference, found?⟩ := resolution
      cases found? with
      | none => exact later edit base
      | some name =>
          unfold Edit.addResolved
          dsimp only
          split
          · exact later edit base
          · rename_i absent
            split
            · exact later edit base
            · rename_i free
              exact later _ (step edit reference name (.head _) base (by simpa using absent)
                (by simpa using free))

namespace Run

variable {source : Text} {index : SymbolIndex} {config : Config} {file : SourceFile}
  {edit : Edit} {plan : Plan}

theorem edit_file (run : Run source index config file edit plan) : edit.file = file :=
  (Edit.start_eq_ok run.started).2.1

/-- What a run plans has the origin of its edit. -/
theorem sameOrigin (run : Run source index config file edit plan)
    : Edit.SameOrigin plan.edit edit := by
  rw [run.planned]
  exact Edit.addResolved_induction (motive := fun current => Edit.SameOrigin current edit) _ _
    (edit.sameOrigin_remove _) fun current _ name _ kept _ _ =>
      (current.sameOrigin_add name).trans kept

/-- The result of a run that reaches its edit is that of its plan. -/
theorem fixImports_eq (run : Run source index config file edit plan)
    : fixImports source index config = plan.outcome source := by
  simp only [fixImports, run.parsed, run.started, run.code, Except.mapError, bind, Except.bind,
    if_true]
  rw [run.planned]

end Run

/-- Whether a run over a source reaches an edit of a file that passes a test. -/
def reachesEdit (source : Text) (test : SourceFile → Bool) : Bool :=
  match parse source with
  | .ok file => file.hasCode && (Edit.start file source).isOk && test file
  | .error _ => false

/-- A source that passes the computed test has a run that reaches its edit. -/
theorem Run.exists_of_reachesEdit (source : Text) (index : SymbolIndex) (config : Config)
    (test : SourceFile → Bool) (passes : reachesEdit source test = true)
    : ∃ file edit plan, Run source index config file edit plan ∧ test file = true := by
  unfold reachesEdit at passes
  split at passes
  · rename_i file parsed
    simp only [Bool.and_eq_true] at passes
    obtain ⟨⟨code, starts⟩, tested⟩ := passes
    cases started : Edit.start file source with
    | error error => simp [started, Except.isOk, Except.toBool] at starts
    | ok edit => exact ⟨file, edit, _, ⟨parsed, code, started, rfl⟩, tested⟩
  · cases passes

/-- A run that succeeds has parsed its source. It leaves a file without code as it is, and
carries out a plan on every other one.
-/
theorem fixImports_cases {source : Text} {index : SymbolIndex} {config : Config}
    {outcome : Outcome} (done : fixImports source index config = .ok outcome)
    : ∃ file,
        parse source = .ok file
        ∧ (file.hasCode = false ∧ outcome = .unchanged source []
          ∨ ∃ edit plan,
              Run source index config file edit plan ∧ plan.outcome source = .ok outcome) := by
  unfold fixImports at done
  cases parsed : parse source with
  | error error => simp [parsed, Except.mapError, bind, Except.bind] at done
  | ok file =>
      simp only [parsed, Except.mapError, bind, Except.bind] at done
      refine ⟨file, rfl, ?_⟩
      cases code : file.hasCode with
      | false =>
          simp only [code, Bool.false_eq_true, if_false, pure, Except.pure,
            Except.ok.injEq] at done
          exact .inl ⟨rfl, done.symm⟩
      | true =>
          simp only [code, if_true] at done
          cases started : Edit.start file source with
          | error error => simp [started] at done
          | ok edit =>
              simp only [started] at done
              exact .inr ⟨edit, _, ⟨parsed, code, started, rfl⟩, done⟩

/-- A run that succeeds leaves its source as it is, or carries out a plan. -/
theorem fixImports_eq_ok {source : Text} {index : SymbolIndex} {config : Config}
    {outcome : Outcome} (done : fixImports source index config = .ok outcome)
    : outcome = .unchanged source []
      ∨ ∃ file edit plan,
          Run source index config file edit plan ∧ plan.outcome source = .ok outcome := by
  obtain ⟨file, _, ⟨_, same⟩ | ⟨edit, plan, run, carried⟩⟩ := fixImports_cases done
  · exact .inl same
  · exact .inr ⟨file, edit, plan, run, carried⟩

/-- What a run reports is what it planned. -/
theorem Plan.outcome_eq_ok {plan : Plan} {source : Text} {outcome : Outcome}
    (carried : plan.outcome source = .ok outcome)
    : outcome.added = plan.added
      ∧ outcome.removed = plan.removed
      ∧ outcome.diagnostics = plan.diagnostics := by
  unfold Plan.outcome at carried
  split at carried
  · rename_i idle
    cases carried
    simp only [Plan.isIdle, Bool.and_eq_true, List.isEmpty_iff] at idle
    exact ⟨idle.1.1.symm, idle.1.2.symm, rfl⟩
  · cases finished : plan.edit.sort.finish with
    | error error => simp [finished, bind, Except.bind] at carried
    | ok text =>
        simp only [finished, bind, Except.bind, pure, Except.pure, Except.ok.injEq] at carried
        subst carried
        exact ⟨rfl, rfl, rfl⟩

end ImportHeader
