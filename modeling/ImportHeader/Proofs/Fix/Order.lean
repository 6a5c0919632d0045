import ImportHeader.Proofs.Fix.Additions
import ImportHeader.Proofs.Header.Arrangement
import ImportHeader.Proofs.Reference.Faithful

/-! References come in the order of the source, and so do the imports that a run adds for them. Of
two references that need different imports under one local name, the first one gets its own.
-/

namespace ImportHeader

/-- References stand one behind the other. -/
abbrev InOrder (references : List Reference) : Prop :=
  references.Pairwise fun left right => left.position.Before right.position

/-- If closures capture nothing but variables, and no class has names that an import can serve both
before and among those that it extends and implements, the candidates come in the order of the
source.
-/
theorem SourceFile.inOrder_candidates {source : Text} {file : SourceFile}
    (parsed : parse source = .ok file)
    (captures : capturesVariables (tokensOfCode source) = true)
    (ordered : ∀ node ∈ file.nodes, node.isOrdered = true)
    : InOrder file.extract.candidates := by
  have lines := (parse_eq_ok parsed).2.2.1
  have names := (pairwise_namesOf (tokensOfCode_sublist source)).sublist
    ((among_of_parse parsed).order captures)
  have places : file.places.Pairwise fun left right => left.1.span.start < right.1.span.start := by
    rwa [Place.names, List.pairwise_map] at names
  rw [candidates_eq, file.meets_places.order ordered, lines, InOrder, List.pairwise_map]
  exact (places.filter _).imp fun less => LineIndex.positionAt_before source less

-----------------------------------------------------------------------------------------
-- References and their resolutions
-----------------------------------------------------------------------------------------

/-- Each name that references have is resolved once, for the first of them. -/
theorem exists_heads {references : List Reference} (inOrder : InOrder references)
    (seen : List Name)
    : ∃ heads : List Reference, heads.Sublist references
        ∧ heads.map Reference.name = firstSeen seen (references.map Reference.name)
        ∧ ∀ reference ∈ references, reference.name ∉ seen
          → ∃ head ∈ heads, head.name = reference.name
              ∧ (head = reference ∨ head.position.Before reference.position) := by
  induction references generalizing seen with
  | nil => exact ⟨[], .refl _, rfl, nofun⟩
  | cons first rest ih =>
      obtain ⟨before, later⟩ := List.pairwise_cons.mp inOrder
      rw [List.map_cons, firstSeen]
      by_cases known : first.name ∈ seen
      · obtain ⟨heads, inside, names, covers⟩ := ih later seen
        rw [if_pos known]
        refine ⟨heads, inside.cons _, names, fun reference listed new => ?_⟩
        rcases List.mem_cons.mp listed with rfl | among
        · exact absurd known new
        · exact covers reference among new
      · obtain ⟨heads, inside, names, covers⟩ := ih later (first.name :: seen)
        rw [if_neg known]
        refine ⟨first :: heads, inside.cons_cons _, by rw [List.map_cons, names], ?_⟩
        intro reference listed new
        rcases List.mem_cons.mp listed with rfl | among
        · exact ⟨reference, List.mem_cons_self, rfl, .inl rfl⟩
        · by_cases same : reference.name = first.name
          · exact ⟨first, List.mem_cons_self, same.symm, .inr (before reference among)⟩
          · obtain ⟨head, member, named, order⟩ := covers reference among
              (List.not_mem_cons_of_ne_of_not_mem same new)
            exact ⟨head, List.mem_cons_of_mem _ member, named, order⟩

/-- An added name was not imported before. -/
theorem Edit.not_isImported_of_mem_added {edit : Edit} {resolutions : List Resolution}
    {name : Name} (listed : name ∈ (edit.addResolved resolutions).added)
    : edit.isImported name = false := by
  fun_induction Edit.addResolved edit resolutions with
  | case1 edit => cases listed
  | case2 edit reference rest ih => exact ih listed
  | case3 edit reference rest found imported ih => exact ih listed
  | case4 edit reference rest found absent taken others ih => exact ih listed
  | case5 edit reference rest found absent free others ih =>
      rw [Bool.not_eq_true] at absent
      rcases List.mem_cons.mp listed with rfl | later
      · exact absent
      · refine Bool.eq_false_iff.mpr fun imported => ?_
        have still := (Edit.isImported_add_iff absent).mpr (.inr imported)
        rw [ih later] at still
        cases still

/-- References for which imports are added to an edit: they come in order, each resolves to a name
that is added, and an import that an earlier reference asks for under the same local name was there
before.
-/
structure Edit.Serves (edit : Edit) (resolve : Name → Option Name) (references : List Reference)
    (added : List Name) (firsts : List Reference)
    : Prop where
  sublist : firsts.Sublist references
  resolved : firsts.map (fun first => resolve first.name) = added.map some
  free
    : ∀ first ∈ firsts, ∀ name : Name, resolve first.name = some name
      → edit.isBound name.last = false
  earlier
    : ∀ first ∈ firsts, ∀ earlier ∈ references, earlier.position.Before first.position
      → ∀ name other : Name, resolve first.name = some name → resolve earlier.name = some other
      → Text.sameFolded other.last name.last = true → edit.isImported other = true

namespace Edit.Serves

variable {edit : Edit} {resolve : Name → Option Name} {head : Reference}
  {rest firsts : List Reference} {added : List Name}

/-- A reference that gets no import leaves the edit to those behind it. -/
theorem pass (serves : edit.Serves resolve rest added firsts)
    (known
      : ∀ other : Name, resolve head.name = some other
        → edit.isImported other = true ∨ edit.isBound other.last = true)
    : edit.Serves resolve (head :: rest) added firsts := by
  refine ⟨serves.sublist.cons _, serves.resolved, serves.free, ?_⟩
  intro first listed earlier among before name other found found' same
  rcases List.mem_cons.mp among with rfl | later
  · rcases known other found' with imported | bound
    · exact imported
    · rw [Edit.isBound_congr (eq_of_beq same), serves.free first listed name found] at bound
      cases bound
  · exact serves.earlier first listed earlier later before name other found found' same

/-- A reference that gets its import takes the local name. -/
theorem add {name : Name} (inOrder : InOrder (head :: rest))
    (absent : edit.isImported name = false) (unbound : edit.isBound name.last = false)
    (found : resolve head.name = some name)
    (serves : (edit.add name).Serves resolve rest added firsts)
    : edit.Serves resolve (head :: rest) (name :: added) (head :: firsts) := by
  have before := (List.pairwise_cons.mp inOrder).1
  have free {first : Reference} (listed : first ∈ firsts) {other : Name}
      (found' : resolve first.name = some other)
      : Text.sameFolded name.last other.last = false ∧ edit.isBound other.last = false := by
    have still := serves.free first listed other found'
    rwa [Edit.isBound_add absent, Bool.or_eq_false_iff] at still
  refine ⟨serves.sublist.cons_cons _, ?_, ?_, ?_⟩
  · rw [List.map_cons, found, serves.resolved, List.map_cons]
  · intro first listed other found'
    rcases List.mem_cons.mp listed with rfl | later
    · obtain rfl := Option.some.inj (found.symm.trans found')
      exact unbound
    · exact (free later found').2
  · intro first listed earlier among order other taken found' found'' same
    rcases List.mem_cons.mp listed with rfl | later
    · rcases List.mem_cons.mp among with rfl | behind
      · exact absurd order order.asymm
      · exact absurd order (before earlier behind).asymm
    · rcases List.mem_cons.mp among with rfl | behind
      · obtain rfl := Option.some.inj (found.symm.trans found'')
        rw [(free later found').1] at same
        cases same
      · have imported :=
          serves.earlier first later earlier behind order other taken found' found'' same
        rcases (Edit.isImported_add_iff absent).mp imported with equal | already
        · have last : taken.last = name.last := by rw [Name.last, Name.last, equal]
          rw [last, (free later found').1] at same
          cases same
        · exact already

end Edit.Serves

/-- The imports that are added serve references in their order, by induction over the references.
-/
theorem Edit.exists_serves {references : List Reference} (inOrder : InOrder references)
    (edit : Edit) (resolve : Name → Option Name)
    : ∃ firsts, edit.Serves resolve references
        (edit.addResolved (references.map fun reference =>
          ⟨reference.name, resolve reference.name⟩)).added firsts := by
  induction references generalizing edit with
  | nil => exact ⟨[], .refl _, rfl, nofun, nofun⟩
  | cons head rest ih =>
      have later := (List.pairwise_cons.mp inOrder).2
      obtain ⟨firsts, serves⟩ := ih later edit
      cases found : resolve head.name with
      | none =>
          refine ⟨firsts, ?_⟩
          rw [List.map_cons, found, addResolved]
          exact serves.pass fun other found' => by rw [found] at found'; cases found'
      | some name =>
          have only {other : Name} (found' : resolve head.name = some other) : name = other :=
            Option.some.inj (found.symm.trans found')
          rw [List.map_cons, found, addResolved]
          dsimp only
          split
          · rename_i imported
            exact ⟨firsts, serves.pass fun other found' => .inl (only found' ▸ imported)⟩
          split
          · rename_i bound
            exact ⟨firsts, serves.pass fun other found' => .inr (only found' ▸ bound)⟩
          · rename_i absent unbound
            rw [Bool.not_eq_true] at absent unbound
            obtain ⟨firsts, serves⟩ := ih later (edit.add name)
            exact ⟨head :: firsts, serves.add inOrder absent unbound found⟩

-----------------------------------------------------------------------------------------
-- A whole run
-----------------------------------------------------------------------------------------

/-- Of two references in order, one is the first. -/
theorem InOrder.before_or {references : List Reference} (inOrder : InOrder references)
    {left right : Reference} (listed : left ∈ references) (listed' : right ∈ references)
    (other : left ≠ right)
    : left.position.Before right.position ∨ right.position.Before left.position := by
  induction inOrder with
  | nil => cases listed
  | cons before _ ih =>
      rcases List.mem_cons.mp listed with rfl | later
      · exact .inl (before right ((List.mem_cons.mp listed').resolve_left (Ne.symm other)))
      · rcases List.mem_cons.mp listed' with rfl | later'
        · exact .inr (before left later)
        · exact ih later later'

/-- A run adds imports for references in their order. Each of these references is the first to ask
for its import, and what an earlier one asks for under the same local name was there before.
-/
theorem Run.exists_firsts {source : Text} {index : SymbolIndex} {config : Config}
    {file : SourceFile} {edit : Edit} {plan : Plan} {references : List Reference}
    (run : Run source index config file edit plan)
    (asks : references = file.extract.references (ignoreSet config file file.extract index))
    (inOrder : InOrder references)
    : ∃ firsts : List Reference, firsts.Sublist references
        ∧ firsts.map (fun first => index.resolve? first.name) = plan.added.map some
        ∧ ∀ first ∈ firsts, ∀ reference ∈ references,
            (index.resolve? reference.name = index.resolve? first.name
              → first = reference ∨ first.position.Before reference.position)
            ∧ ∀ name other : Name, reference.position.Before first.position
              → index.resolve? first.name = some name
              → index.resolve? reference.name = some other
              → Text.sameFolded other.last name.last = true
              → ∃ declaration ∈ file.imports, declaration.binds other .classLike = true := by
  obtain ⟨heads, inside, names, covers⟩ := exists_heads inOrder []
  obtain ⟨firsts, serves⟩ := Edit.exists_serves (inOrder.sublist inside)
    (edit.remove (file.extract.unusedImports.map ImportEntry.bound)) index.resolve?
  have added : plan.added = (Edit.addResolved
      (edit.remove (file.extract.unusedImports.map ImportEntry.bound))
      (heads.map fun head => ⟨head.name, index.resolve? head.name⟩)).added := by
    rw [run.planned, ← asks]
    have resolutions : heads.map (fun head => (⟨head.name, index.resolve? head.name⟩ : Resolution))
        = index.resolveAll (references.map Reference.name) := by
      rw [SymbolIndex.resolveAll, ← names, List.map_map]
      rfl
    rw [resolutions]
    rfl
  rw [← added] at serves
  -- An earlier reference has its import in the file, by the first one with its name.
  have conflict {first reference : Reference} (listed : first ∈ firsts)
      (among : reference ∈ references) (before : reference.position.Before first.position)
      {name other : Name} (found : index.resolve? first.name = some name)
      (found' : index.resolve? reference.name = some other)
      (same : Text.sameFolded other.last name.last = true)
      : (edit.remove (file.extract.unusedImports.map ImportEntry.bound)).isImported other
        = true := by
    obtain ⟨head, member, named, order⟩ := covers reference among List.not_mem_nil
    rw [← named] at found'
    refine serves.earlier first listed head member ?_ name other found found' same
    rcases order with rfl | earlier
    · exact before
    · exact earlier.trans before
  refine ⟨firsts, serves.sublist.trans inside, serves.resolved, ?_⟩
  intro first listed reference among
  refine ⟨fun same => ?_, fun name other before found found' folded => ?_⟩
  · by_contra neither
    obtain ⟨different, late⟩ := not_or.mp neither
    have before := (inOrder.before_or ((serves.sublist.trans inside).subset listed) among
      different).resolve_left late
    obtain ⟨name, isAdded, found⟩ : ∃ name ∈ plan.added, some name = index.resolve? first.name := by
      have member := List.mem_map_of_mem (f := fun first => index.resolve? first.name) listed
      rw [serves.resolved] at member
      exact List.mem_map.mp member
    have alike : Text.sameFolded name.last name.last = true := beq_self_eq_true _
    have imported := conflict listed among before found.symm (same.trans found.symm) alike
    rw [added] at isAdded
    rw [Edit.not_isImported_of_mem_added isAdded] at imported
    cases imported
  · have imported := conflict listed among before found found' folded
    obtain ⟨declaration, declared, binds⟩ := List.any_eq_true.mp imported
    refine ⟨declaration, ?_, binds⟩
    rw [← run.edit_file]
    exact (edit.imports_remove_sublist _).subset declared

/-- References come in the order of the source, so a run adds imports in the order in which
references first ask for them, and of two that ask for different imports under one local name the
first gets its own, unless it was there before. Closures capture nothing but variables, and no class
has names that an import can serve both before and among those that it extends and implements.
-/
theorem fixImports_adds_in_source_order {source : Text} {file : SourceFile}
    (parsed : parse source = .ok file)
    (captures : capturesVariables (tokensOfCode source) = true)
    (ordered : ∀ node ∈ file.nodes, node.isOrdered = true)
    : file.extract.candidates.Pairwise (fun left right => left.position.Before right.position)
      ∧ ∀ index config outcome,
          fixImports source index config = .ok outcome
          → ∃ firsts : List Reference,
              firsts.Sublist
                (file.extract.references (ignoreSet config file file.extract index))
              ∧ firsts.map (fun first => index.resolve? first.name) = outcome.added.map some
              ∧ ∀ first ∈ firsts,
                  ∀ reference
                    ∈ file.extract.references (ignoreSet config file file.extract index),
                  (index.resolve? reference.name = index.resolve? first.name
                    → first = reference ∨ first.position.Before reference.position)
                  ∧ ∀ name other : Name, reference.position.Before first.position
                    → index.resolve? first.name = some name
                    → index.resolve? reference.name = some other
                    → Text.sameFolded other.last name.last = true
                    → ∃ declaration ∈ file.imports, declaration.binds other .classLike = true := by
  have inOrder := SourceFile.inOrder_candidates parsed captures ordered
  refine ⟨inOrder, fun index config outcome done => ?_⟩
  obtain ⟨file', parsed', ⟨_, rfl⟩ | ⟨edit, plan, run, carried⟩⟩ := fixImports_cases done
  · exact ⟨[], List.nil_sublist _, rfl, nofun⟩
  · obtain rfl := Except.ok.inj (parsed.symm.trans parsed')
    rw [(Plan.outcome_eq_ok carried).1]
    exact run.exists_firsts rfl (inOrder.sublist List.filter_sublist)

/-- A closure that captures a variable, between two references that need the same import. -/
theorem fixImports_adds_in_source_order_around_closure
    : ∃ source entries file outcome,
        source = "<?php\nnew Foo(function () use ($x): Bar { new Foo; });\n".toList
        ∧ entries = [⟨⟨["Lib".toList, "Foo".toList], .qualified⟩, ⟨0⟩⟩]
        ∧ parse source = .ok file
        ∧ capturesVariables (tokensOfCode source) = true
        ∧ (∀ node ∈ file.nodes, node.isOrdered = true)
        ∧ fixImports source (.ofEntries entries) .default = .ok outcome
        ∧ outcome.added = [⟨["Lib".toList, "Foo".toList], .qualified⟩]
        ∧ file.extract.candidates.Pairwise (fun left right => left.position.Before right.position)
        ∧ ∃ firsts : List Reference,
            firsts.map (fun first => (SymbolIndex.ofEntries entries).resolve? first.name)
              = outcome.added.map some := by
  obtain ⟨source, written⟩ : ∃ source : Text, source
      = "<?php\nnew Foo(function () use ($x): Bar { new Foo; });\n".toList := ⟨_, rfl⟩
  obtain ⟨file, _, outcome, parsed, _, done, checked⟩ := exists_of_succeeds source
    [⟨⟨["Lib".toList, "Foo".toList], .qualified⟩, ⟨0⟩⟩] .default
    (fun file _ outcome => file.nodes.all Node.isOrdered
      && outcome.added == [⟨["Lib".toList, "Foo".toList], .qualified⟩])
    (by rw [written]; decide +kernel)
  rw [Bool.and_eq_true, beq_iff_eq, List.all_eq_true] at checked
  obtain ⟨ordered, added⟩ := checked
  have captures : capturesVariables (tokensOfCode source) = true := by
    rw [written]
    decide +kernel
  obtain ⟨inOrder, serves⟩ := fixImports_adds_in_source_order parsed captures ordered
  obtain ⟨firsts, _, resolved, _⟩ := serves _ _ _ done
  exact ⟨source, _, file, outcome, written, rfl, parsed, captures, ordered, done, added, inOrder,
    firsts, resolved⟩

/-- The attribute of a class comes behind the class that it extends, so it loses the local name that
both ask for.
-/
theorem attribute_comes_behind_parent
    : ∃ source entries file outcome,
        source = "<?php\n#[Foo\\A]\nclass B extends Foo\\C {}\n".toList
        ∧ entries
          = [⟨⟨["One".toList, "Foo".toList, "A".toList], .qualified⟩, ⟨0⟩⟩,
            ⟨⟨["Two".toList, "Foo".toList, "C".toList], .qualified⟩, ⟨0⟩⟩]
        ∧ parse source = .ok file
        ∧ file.extract.candidates.map (fun reference => (reference.name.joined, reference.position))
          = [("Foo\\C".toList, ⟨2, 16⟩), ("Foo\\A".toList, ⟨1, 2⟩)]
        ∧ fixImports source (.ofEntries entries) .default = .ok outcome
        ∧ outcome.added.map Name.joined = ["Two\\Foo".toList] := by
  obtain ⟨file, _, outcome, parsed, _, done, checked⟩ := exists_of_succeeds
    "<?php\n#[Foo\\A]\nclass B extends Foo\\C {}\n".toList
    [⟨⟨["One".toList, "Foo".toList, "A".toList], .qualified⟩, ⟨0⟩⟩,
      ⟨⟨["Two".toList, "Foo".toList, "C".toList], .qualified⟩, ⟨0⟩⟩] .default
    (fun file _ outcome =>
      file.extract.candidates.map (fun reference => (reference.name.joined, reference.position))
        == [("Foo\\C".toList, ⟨2, 16⟩), ("Foo\\A".toList, ⟨1, 2⟩)]
      && outcome.added.map Name.joined == ["Two\\Foo".toList])
    (by decide +kernel)
  rw [Bool.and_eq_true, beq_iff_eq, beq_iff_eq] at checked
  exact ⟨_, _, file, outcome, rfl, rfl, parsed, checked.1, done, checked.2⟩

end ImportHeader
