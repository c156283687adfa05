import Recompile.Proofs.Diff.IncludeClosure

/-!
# Sources are decided alone

What a comparison finds of a source hangs on what the source reaches and on nothing else. Two
snapshots of one disk have the same graph and the same states below a source that both have, however
the sources beside it differ (`Snapshot.Describes.reaches_congr`, `Snapshot.Describes.file?_eq`), and
a seed is told by the state of a file and what the build before recorded of that file. So the
decision on a source is the same whatever it stands beside (`compute_isolated`).
-/

namespace Recompile

namespace Snapshot

/-- Whether a file has changed is a matter of what was recorded of that file. -/
theorem isChanged_congr {old old' : Snapshot} {f : FileState}
    (h : old.file? f.path = old'.file? f.path) : old.isChanged f = old'.isChanged f := by
  rw [isChanged, isChanged, h]

namespace Describes

variable {disk : Disk} {roots : List Path} {imports : Bool} {sources sources' : List Path}
  {s s' : Snapshot} (h : s.Describes disk roots imports sources)

include h in
/-- What is recorded of a file is what is on the disk. -/
theorem file?_eq {p : Path} (hp : p ∈ s.files.keys) : s.file? p = disk.fileState roots imports p := by
  obtain ⟨f, hf⟩ := Table.mem_keys_iff.1 hp
  rw [file?, s.files.find?_of_mem hf, ((h.mem_files p f).1 hf).2]

include h in
/-- Below a source that both have, two snapshots of one disk have one graph. -/
theorem reaches_congr (h' : s'.Describes disk roots imports sources') {p q : Path}
    (hp : p ∈ s.sources.keys) (hp' : p ∈ s'.sources.keys) :
    Reaches s.headersOf p q ↔ Reaches s'.headersOf p q :=
  (h.reaches_iff hp).symm.trans (h'.reaches_iff hp')

include h in
theorem file?_of_reaches {p q : Path} (hp : p ∈ s.sources.keys) (hq : Reaches s.headersOf p q) :
    s.file? q = disk.fileState roots imports q :=
  h.file?_eq (h.coherent.reaches (h.coherent.source p hp) hq)

end Describes

end Snapshot

namespace Compilation

variable {disk : Disk} {roots : List Path} {imports : Bool} {sources sources' : List Path}
  {old old' new new' : Snapshot}

/-- A source that is compiled again is so in every comparison on the same disk that has the source,
if the builds before recorded the same of it and of what it reaches. -/
theorem contains_recompile_of_isolated (hnew : new.Describes disk roots imports sources)
    (hnew' : new'.Describes disk roots imports sources') {s : Path} (hs : s ∈ new.sources.keys)
    (hs' : s ∈ new'.sources.keys) (hsource : old.isSource s = old'.isSource s)
    (hbelow : ∀ p, Reaches new.headersOf s p → old.file? p = old'.file? p)
    (h : (between old new).recompile.contains s = true) :
    (between old' new').recompile.contains s = true := by
  rw [contains_recompile hnew.coherent hs] at h
  rw [contains_recompile hnew'.coherent hs', ← hsource]
  refine h.imp_right ?_
  rintro ⟨p, f, hreach, hf, hseed⟩
  have hreach' := (hnew.reaches_congr hnew' hs hs').1 hreach
  have hkey' := hnew'.coherent.reaches (hnew'.coherent.source s hs') hreach'
  obtain ⟨g, hg⟩ := Table.mem_keys_iff.1 hkey'
  -- Both snapshots recorded the file as it is on the disk.
  obtain rfl : f = g :=
    Option.some.inj (((hnew.mem_files p f).1 hf).2.symm.trans ((hnew'.mem_files p g).1 hg).2)
  obtain rfl := hnew.coherent.keyed p f hf
  rw [Snapshot.isChanged_congr (hbelow _ hreach)] at hseed
  exact ⟨_, f, hreach', hg, hseed⟩

end Compilation

/-- **A source is decided alone.** Of two comparisons on one disk, whatever else is among the sources
of each, both find the same below a source that they share: it reaches the same files, and each has
the same state. If the builds before recorded the same of the source and of the files that it
reaches, and all the more if they are one and the same, the source is compiled again in both or in
none. -/
theorem compute_isolated {disk : Disk} {roots : List Path} {imports : Bool} {limit limit' : Nat}
    {previous previous' : Snapshot} {sources sources' : List Path} {a b : Compilation}
    (ha : (Compilation.compute disk limit previous (.new imports (.ofRoots roots))
      sources).value = .ok a)
    (hb : (Compilation.compute disk limit' previous' (.new imports (.ofRoots roots))
      sources').value = .ok b)
    {s : Path} (hs : s ∈ sources) (hs' : s ∈ sources') :
    (∀ p, Reaches a.state.headersOf s.normalize p ↔ Reaches b.state.headersOf s.normalize p) ∧
    (∀ p, Reaches a.state.headersOf s.normalize p →
      ∃ f, a.state.file? p = some f ∧ b.state.file? p = some f) ∧
    (previous.isSource s.normalize = previous'.isSource s.normalize →
      (∀ p, Reaches a.state.headersOf s.normalize p → previous.file? p = previous'.file? p) →
        a.recompile.contains s.normalize = b.recompile.contains s.normalize) := by
  have hnew := Compilation.compute_describes ha
  have hnew' := Compilation.compute_describes hb
  have hkey : s.normalize ∈ a.state.sources.keys := (hnew.mem_sources _).2 ⟨s, hs, rfl⟩
  have hkey' : s.normalize ∈ b.state.sources.keys := (hnew'.mem_sources _).2 ⟨s, hs', rfl⟩
  have hreach (p : Path) := hnew.reaches_congr hnew' (q := p) hkey hkey'
  refine ⟨hreach, fun p hp => ?_, fun hsource hbelow => ?_⟩
  · obtain ⟨f, hf⟩ := Table.mem_keys_iff.1
      (hnew.coherent.reaches (hnew.coherent.source _ hkey) hp)
    have hfile := a.state.files.find?_of_mem hf
    refine ⟨f, hfile, ?_⟩
    rw [hnew'.file?_of_reaches hkey' ((hreach p).1 hp), ← hnew.file?_of_reaches hkey hp]
    exact hfile
  · obtain ⟨-, -, hbetween⟩ := Compilation.compute_eq_ok ha
    obtain ⟨-, -, hbetween'⟩ := Compilation.compute_eq_ok hb
    rw [hbetween, hbetween', Bool.eq_iff_iff]
    constructor
    · exact Compilation.contains_recompile_of_isolated hnew hnew' hkey hkey' hsource hbelow
    · exact Compilation.contains_recompile_of_isolated hnew' hnew hkey' hkey hsource.symm
        fun p hp => (hbelow p ((hreach p).2 hp)).symm

/-- A source that nothing has happened to is left alone also when its header is a source itself and
another source has an include that cannot be known. -/
theorem compute_isolated_unknownInclude :
    let disk : Disk := .ofFiles [("a.c", "#include \"b.h\"\n"), ("b.h", "1"), ("d.c", "#include D\n")]
    let alone : List Path := [.ofText "a.c"]
    let together : List Path := [.ofText "d.c", .ofText "./b.h", .ofText "a.c"]
    ∃ first a b, (Compilation.compute disk 3 ∅ (.new false (.ofRoots [])) alone).value = .ok first ∧
      (Compilation.compute disk 3 first.state (.new false (.ofRoots [])) alone).value = .ok a ∧
      (Compilation.compute disk 3 first.state (.new false (.ofRoots [])) together).value = .ok b ∧
      b.recompile.contains (Path.ofText "d.c").normalize = true ∧
      b.recompile.contains (Path.ofText "a.c").normalize = false := by
  intro disk alone together
  let compare (previous : Snapshot) (sources : List Path) (P : Compilation → Bool) : Bool :=
    (Compilation.compute disk 3 previous (.new false (.ofRoots [])) sources).value.toOption.any P
  obtain ⟨first, hfirst, hrest⟩ := Except.exists_ok_of_any
    (x := (Compilation.compute disk 3 ∅ (.new false (.ofRoots [])) alone).value)
    (P := fun first =>
      compare first.state alone (fun a => !a.recompile.contains (Path.ofText "a.c").normalize) &&
      compare first.state together fun b => b.recompile.contains (Path.ofText "d.c").normalize)
    (by decide +kernel)
  obtain ⟨halone, htogether⟩ := (Bool.and_eq_true _ _).mp hrest
  obtain ⟨a, ha, hleft⟩ := Except.exists_ok_of_any halone
  obtain ⟨b, hb, hother⟩ := Except.exists_ok_of_any htogether
  have hmem : Path.ofText "a.c" ∈ together :=
    List.mem_cons_of_mem _ (List.mem_cons_of_mem _ List.mem_cons_self)
  obtain ⟨-, -, hsame⟩ := compute_isolated ha hb List.mem_cons_self hmem
  have hdecision := hsame rfl fun _ _ => rfl
  exact ⟨first, a, b, hfirst, ha, hb, hother, hdecision ▸ by simpa using hleft⟩

end Recompile
