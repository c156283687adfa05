import Recompile.Proofs.Diff.Invalidation
import Recompile.Proofs.FileTree.Names
import Recompile.Proofs.Survey.Lookups

/-!
# What a comparison looks at

A comparison asks the disk for the sources, up to the first that cannot be read, and then for what
its survey asks (`Compilation.lookups`). On another disk with the same answers to these questions it
comes to the same result (`compute_same`). So these are the questions that a surrounding build would
have to ask again before it takes a comparison for granted.
-/

namespace Recompile

namespace Compilation

/-- All that a comparison asks of the disk. -/
def lookups (disk : Disk) (limit : Nat) (survey : Survey) (sources : List Path) : List Lookup :=
  let names := (Table.setOf (sources.map Path.normalize)).keys
  (Survey.sourcesRead disk names).map .read ++
    match (survey.scan disk limit names ∅).value with
    | .ok (t, _) => t.lookups
    | .error _ => []

variable {disk disk' : Disk} {limit limit' : Nat} {previous : Snapshot} {survey : Survey}
  {sources : List Path}

theorem same_sourcesRead (h : ∀ l ∈ lookups disk limit survey sources, l.Same disk disk') :
    ∀ p ∈ Survey.sourcesRead disk (Table.setOf (sources.map Path.normalize)).keys,
      (Lookup.read p).Same disk disk' :=
  fun _ hp => h _ (List.mem_append_left _ (List.mem_map_of_mem hp))

theorem compute_eq_ok_iff {c : Compilation} :
    (compute disk limit previous survey sources).value = .ok c ↔
      ∃ t, (survey.scan disk limit (Table.setOf (sources.map Path.normalize)).keys ∅).value =
        .ok (t, c.state) ∧ c = between previous c.state := by
  refine ⟨compute_eq_ok, ?_⟩
  rintro ⟨t, hscan, hbetween⟩
  unfold compute
  simp only [Logged.value_bind, hscan, Logged.value_pure, ← hbetween]

theorem compute_eq_unreadable {p : Path} {e : FileError} :
    (compute disk limit previous survey sources).value = .error (.unreadable p e) ↔
      Survey.readSources disk survey.imports (Table.setOf (sources.map Path.normalize)).keys =
        .error (.unreadable p e) := by
  have hscan : (survey.scan disk limit (Table.setOf (sources.map Path.normalize)).keys ∅).value =
      .error (.unreadable p e) ↔ _ := Survey.scan_eq_unreadable
  refine Iff.trans ?_ hscan
  unfold compute
  simp only [Logged.value_bind]
  cases (survey.scan disk limit (Table.setOf (sources.map Path.normalize)).keys ∅).value with
  | error fault => simp only [Logged.value_pure, Except.error.injEq]
  | ok result => exact ⟨fun h => (by cases h), fun h => (by cases h)⟩

theorem compute_same_of_le (hlimit : limit ≤ limit') {c : Compilation}
    (hc : (compute disk limit previous survey sources).value = .ok c)
    (h : ∀ l ∈ lookups disk limit survey sources, l.Same disk disk') :
    (compute disk' limit' previous survey sources).value = .ok c := by
  obtain ⟨t, hscan, hbetween⟩ := compute_eq_ok hc
  have hsurvey : ∀ l ∈ t.lookups, l.Same disk disk' := by
    refine fun l hl => h l (List.mem_append_right _ ?_)
    rwa [hscan]
  exact compute_eq_ok_iff.2
    ⟨t, Survey.scan_same hlimit hscan (same_sourcesRead h) hsurvey, hbetween⟩

/-- A higher limit changes nothing. -/
theorem compute_mono (hlimit : limit ≤ limit') {c : Compilation}
    (hc : (compute disk limit previous survey sources).value = .ok c) :
    (compute disk limit' previous survey sources).value = .ok c :=
  compute_same_of_le hlimit hc fun l _ => by cases l <;> rfl

end Compilation

/-- **A comparison depends on nothing it did not look at.** Take a second disk with the same answers
to all that a comparison asked, and there a limit that is no lower or allows for the files of that
disk, as the one of a tree does (`FileTree.allows_nameCount`). If the comparison succeeded it has
the very same result on the second disk. If it failed for a source that cannot be read it fails for
the same source there; and for this it is enough that the one source cannot be read there either, if
all other sources can. -/
theorem compute_same {disk disk' : Disk} {limit limit' : Nat}
    (hlimit : limit ≤ limit' ∨ disk'.Allows limit') (previous : Snapshot) (roots : List Path)
    (imports : Bool) (sources : List Path) :
    let survey : Survey := .new imports (.ofRoots roots)
    (∀ c, (Compilation.compute disk limit previous survey sources).value = .ok c →
      (∀ l ∈ Compilation.lookups disk limit survey sources, l.Same disk disk') →
      (Compilation.compute disk' limit' previous survey sources).value = .ok c) ∧
    ∀ p e, (Compilation.compute disk limit previous survey sources).value =
        .error (.unreadable p e) →
      (∀ l ∈ Compilation.lookups disk limit survey sources, l.Same disk disk') ∨
        (Lookup.read p).Same disk disk' ∧
          (∀ s ∈ sources, s.normalize ≠ p → ∃ content, disk'.read s.normalize = .ok content) →
      ∃ e', disk'.read p = .error e' ∧
        (Compilation.compute disk' limit' previous survey sources).value =
          .error (.unreadable p e') := by
  intro survey
  refine ⟨fun c hc h => ?_, fun p e he h => ?_⟩
  · rcases hlimit with hle | ⟨names, hlength, hnames⟩
    · exact Compilation.compute_same_of_le hle hc h
    · -- With both limits together the result is the same, and the second alone gives some result.
      have hmost := Compilation.compute_same_of_le (Nat.le_add_right limit limit') hc h
      obtain ⟨c', hc'⟩ :=
        Compilation.compute_isOk (fun s hs => Compilation.compute_readable hmost hs) hnames hlength
      have heq := (Compilation.compute_mono (Nat.le_add_left limit' limit) hc').symm.trans hmost
      exact hc'.trans heq
  · have hfirst := Compilation.compute_eq_unreadable.1 he
    obtain ⟨hp, hread⟩ := Survey.mem_of_readSources_eq_error hfirst
    obtain ⟨e', hsecond⟩ : ∃ e', Survey.readSources disk' imports
        (Table.setOf (sources.map Path.normalize)).keys = .error (.unreadable p e') := by
      rcases h with h | ⟨hsame, hothers⟩
      · exact (Survey.readSources_same (Compilation.same_sourcesRead h)).2 p e hfirst
      · obtain ⟨content, hok, -⟩ | ⟨-, e', -, hread'⟩ := Except.toOption_eq_cases hsame.symm
        · cases hok.symm.trans hread
        · refine ⟨e', Survey.readSources_eq_error hp hread' fun q hq hne => ?_⟩
          obtain ⟨s, hs, rfl⟩ := Compilation.mem_keys_names.1 hq
          exact hothers s hs hne
    exact ⟨e', (Survey.mem_of_readSources_eq_error hsecond).2,
      Compilation.compute_eq_unreadable.2 hsecond⟩

/-- A second header of the same name further down the search path is not looked at. -/
theorem compute_same_shadowed :
    let shown : List (String × String) := [("a.c", "#include <b.h>\n"), ("r/b.h", "1")]
    let disk : Disk := .ofFiles shown
    let disk' : Disk := .ofFiles (("s/b.h", "2") :: shown)
    let survey : Survey := .new false (.ofRoots [.ofText "r", .ofText "s"])
    ∃ c, (Compilation.compute disk 2 ∅ survey [.ofText "a.c"]).value = .ok c ∧
      c.recompile.contains (.ofText "a.c") = true ∧
      (Compilation.compute disk' 2 ∅ survey [.ofText "a.c"]).value = .ok c := by
  intro shown disk disk' survey
  obtain ⟨c, hc, hrecompile⟩ := Except.exists_ok_of_any
    (x := (Compilation.compute disk 2 ∅ survey [.ofText "a.c"]).value)
    (P := fun c => c.recompile.contains (.ofText "a.c")) (by decide +kernel)
  have hlookups : ∀ l ∈ Compilation.lookups disk 2 survey [.ofText "a.c"], l.Same disk disk' := by
    decide +kernel
  obtain ⟨hok, -⟩ := @compute_same disk disk' 2 2 (.inl (Nat.le_refl 2)) ∅
    [.ofText "r", .ofText "s"] false [.ofText "a.c"]
  exact ⟨c, hc, hrecompile, hok c hc hlookups⟩

end Recompile
