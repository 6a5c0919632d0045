import ImportHeader.Proofs.Fix.Additions

/-! Which names of a file an added import captures. An import binds the first segment of the
reference that asks for it, but a name is ignored as a whole. So an import for an unqualified
reference captures nothing that the file reaches by an unqualified name, and qualified
references can bring about more.
-/

namespace ImportHeader

theorem Name.joined_eq_first {name : Name} (plain : name.length = 1)
    : name.joined = name.first := by
  obtain ⟨segment, only⟩ := List.length_eq_one_iff.mp plain
  simp [Name.joined, Name.first, only]

/-- No name that is ignored spells an unqualified reference that needs an import. -/
theorem Extraction.sameFolded_of_ignored {config : Config} {file : SourceFile}
    {extraction : Extraction} {index : SymbolIndex} {reference : Reference} {text : Text}
    (listed : reference ∈ extraction.references (ignoreSet config file extraction index))
    (plain : reference.name.length = 1) (ignored : text ∈ ignoredTexts config file extraction index)
    : Text.sameFolded text reference.name.first = false := by
  have free := (Extraction.mem_references.mp listed).2.2.2
  rw [contains_ignoreSet, Name.joined_eq_first plain, List.any_eq_false] at free
  exact Bool.eq_false_iff.mpr (free text ignored)

/-- A run that succeeds adds an import for a reference that needs it. If the reference, or any
other that starts alike, is unqualified, then the import captures neither a class that the
file declares nor an unqualified name that the file reaches without an import.
-/
theorem fixImports_captures_nothing_unqualified {source : Text} {index : SymbolIndex}
    {config : Config} {outcome : Outcome} {file : SourceFile} {name : Name}
    (done : fixImports source index config = .ok outcome) (parsed : parse source = .ok file)
    (added : name ∈ outcome.added)
    : (∃ reference ∈ file.extract.references (ignoreSet config file file.extract index),
        index.resolve? reference.name = some name ∧ reference.name.first = name.last)
      ∧ ∀ reference ∈ file.extract.references (ignoreSet config file file.extract index),
          reference.name.length = 1
          → Text.sameFolded reference.name.first name.last = true
          → (∀ text ∈ file.extract.declared, Text.sameFolded text name.last = false)
            ∧ ∀ candidate ∈ file.extract.candidates,
                (ignoreSet config file file.extract index).contains candidate.name = true
                → candidate.name.length = 1
                → Text.sameFolded candidate.name.first name.last = false := by
  obtain ⟨file', parsed', ⟨_, unchanged⟩ | ⟨edit, plan, run, carried⟩⟩ := fixImports_cases done
  · rw [unchanged] at added
    cases added
  cases parsed.symm.trans parsed'
  rw [(Plan.outcome_eq_ok carried).1] at added
  obtain ⟨reference, member, resolved, importing⟩ := run.exists_reference_of_added added
  refine ⟨⟨reference, member, resolved, importing.last_eq.symm⟩, ?_⟩
  intro other listed plain same
  -- what is ignored differs from the reference, so also from the name that it starts with
  have differs : ∀ text ∈ ignoredTexts config file file.extract index,
      Text.sameFolded text name.last = false := by
    intro text ignored
    have different := Extraction.sameFolded_of_ignored listed plain ignored
    rw [← Bool.not_eq_true, Text.sameFolded_iff] at different ⊢
    rwa [← Text.sameFolded_iff.mp same]
  refine ⟨?_, ?_⟩
  · intro text declared
    exact differs text (by simp [ignoredTexts, declared])
  · intro candidate _ ignored plain'
    rw [contains_ignoreSet, Name.joined_eq_first plain', List.any_eq_true] at ignored
    obtain ⟨text, inside, spells⟩ := ignored
    have different := differs text inside
    rw [← Bool.not_eq_true, Text.sameFolded_iff] at different ⊢
    rwa [← Text.sameFolded_iff.mp spells]

/-- The import for an unqualified reference captures no class of a file that declares one. -/
theorem fixImports_captures_nothing_unqualified_beside_class
    : ∃ source entries file outcome name,
        source = "<?php\nclass Bar {}\nnew Foo;\n".toList
        ∧ entries = [⟨⟨["Lib".toList, "Foo".toList], .qualified⟩, ⟨0⟩⟩]
        ∧ parse source = .ok file
        ∧ fixImports source (.ofEntries entries) .default = .ok outcome
        ∧ name ∈ outcome.added
        ∧ file.extract.declared = ["Bar".toList]
        ∧ ∀ text ∈ file.extract.declared, Text.sameFolded text name.last = false := by
  obtain ⟨file, references, outcome, parsed, rfl, done, checked⟩ := exists_of_succeeds
    "<?php\nclass Bar {}\nnew Foo;\n".toList
    [⟨⟨["Lib".toList, "Foo".toList], .qualified⟩, ⟨0⟩⟩] .default
    (fun file references outcome =>
      file.extract.declared == ["Bar".toList]
      && references.all (fun reference => reference.name.length == 1)
      && outcome.added == [⟨["Lib".toList, "Foo".toList], .qualified⟩])
    (by decide +kernel)
  simp only [Bool.and_eq_true, beq_iff_eq, List.all_eq_true] at checked
  obtain ⟨⟨declared, plain⟩, added⟩ := checked
  have listed := added ▸ List.mem_singleton_self _
  obtain ⟨⟨reference, member, _, first⟩, nothing⟩ :=
    fixImports_captures_nothing_unqualified done parsed listed
  have same := Text.sameFolded_iff.mpr (congrArg Text.lower first)
  exact ⟨_, _, file, outcome, _, rfl, rfl, parsed, done, listed, declared,
    (nothing reference member (plain reference member) same).1⟩

/-- The import for a qualified reference captures a class that the file declares. -/
theorem qualified_reference_captures_declared_class
    : ∃ source entries file outcome name,
        source = "<?php\nclass Foo {}\nnew Foo\\Bar;\n".toList
        ∧ entries = [⟨⟨["Lib".toList, "Foo".toList, "Bar".toList], .qualified⟩, ⟨0⟩⟩]
        ∧ parse source = .ok file
        ∧ fixImports source (.ofEntries entries) .default = .ok outcome
        ∧ name ∈ outcome.added
        ∧ ∃ text ∈ file.extract.declared, Text.sameFolded text name.last = true := by
  obtain ⟨file, _, outcome, parsed, _, done, checked⟩ := exists_of_succeeds
    "<?php\nclass Foo {}\nnew Foo\\Bar;\n".toList
    [⟨⟨["Lib".toList, "Foo".toList, "Bar".toList], .qualified⟩, ⟨0⟩⟩] .default
    (fun file _ outcome =>
      outcome.added.any fun name => file.extract.declared.any (Text.sameFolded · name.last))
    (by decide +kernel)
  simp only [List.any_eq_true] at checked
  obtain ⟨name, listed, captured⟩ := checked
  exact ⟨_, _, file, outcome, name, rfl, rfl, parsed, done, listed, captured⟩

end ImportHeader
