import Mathlib.Data.Set.Function
import Recompile.Proofs.Diff.Invalidation

/-!
# Include closures on the disk

What an output is made from is the include closure of its source: every file that the source
reaches, with its content and the outcome of each of its directives (`Disk.closureOf`). A snapshot
that describes a disk has the graph of that disk below its sources, so when two snapshots are the
same from a source on, and no two contents have one digest, the closures of the source on both disks
are equal (`Snapshot.Describes.closureOf_eq`).
-/

namespace Recompile

/-- The files that a source reaches, each with its content and the outcomes of its directives. -/
abbrev IncludeClosure := Set (Path × Bytes × List Include)

namespace Disk

/-- The headers that a file on the disk includes itself, none if it cannot be read. -/
def headersOf (disk : Disk) (roots : List Path) (imports : Bool) (p : Path) : List Path :=
  (disk.fileState roots imports p).elim [] FileState.headers

/-- The include closure of a file on the disk. -/
def closureOf (disk : Disk) (roots : List Path) (imports : Bool) (p : Path) : IncludeClosure :=
  {(q, content, includes) | Reaches (disk.headersOf roots imports) p q ∧
    disk.read q = .ok content ∧
    includes = (Directives.read imports content).all.map (disk.includeOf roots q)}

/-- Whatever can be read on the disk is among the given contents. -/
def Within (contents : Set Bytes) (disk : Disk) : Prop :=
  ∀ p content, disk.read p = .ok content → content ∈ contents

/-- An include closure says what its own source holds. -/
theorem read_of_closureOf_eq {disk disk' : Disk} {roots roots' : List Path}
    {imports imports' : Bool} {p : Path}
    (h : disk.closureOf roots imports p = disk'.closureOf roots' imports' p)
    {content : Bytes} (hread : disk.read p = .ok content) : disk'.read p = .ok content := by
  have hmem : (p, content, (Directives.read imports content).all.map (disk.includeOf roots p)) ∈
      disk.closureOf roots imports p := ⟨.refl p, hread, rfl⟩
  rw [h] at hmem
  exact hmem.2.1

theorem within_ofFiles {contents : Set Bytes} {files : List (String × String)}
    (h : ∀ f ∈ files, Utf8.ofString f.2 ∈ contents) : (ofFiles files).Within contents := by
  intro p content hread
  unfold ofFiles at hread
  cases hlookup : files.lookup p.text with
  | none => simp [hlookup] at hread
  | some text =>
    obtain ⟨before, after, hfiles, -⟩ := List.lookup_eq_some_iff.1 hlookup
    have hmem : (p.text, text) ∈ files := by
      rw [hfiles]
      exact List.mem_append_right _ List.mem_cons_self
    have hcontent : Utf8.ofString text = content := by simpa [hlookup] using hread
    exact hcontent ▸ h _ hmem

end Disk

namespace Snapshot.Describes

variable {disk : Disk} {roots : List Path} {imports : Bool} {sources : List Path} {s : Snapshot}

theorem empty (disk : Disk) (roots : List Path) (imports : Bool) :
    (∅ : Snapshot).Describes disk roots imports [] := by
  have hnone : ∀ p, ¬ Tracked disk roots imports [] p := by
    intro p hp
    refine hp.of_closed (P := fun _ => False) ?_ ?_
    · exact fun q hq => absurd hq List.not_mem_nil
    · exact fun _ _ h => h.elim
  refine ⟨fun p => ⟨fun h => absurd h List.not_mem_nil, ?_⟩, fun p f => ⟨?_, ?_⟩, ?_⟩
  · rintro ⟨q, hq, -⟩
    exact absurd hq List.not_mem_nil
  · exact fun h => absurd h List.not_mem_nil
  · exact fun h => absurd h.1 (hnone p)
  · exact fun p hp => absurd hp (hnone p)

section Graph

variable (h : s.Describes disk roots imports sources)

include h in
theorem headersOf_eq {p : Path} (hp : p ∈ s.files.keys) :
    s.headersOf p = disk.headersOf roots imports p := by
  obtain ⟨f, hf⟩ := Table.mem_keys_iff.1 hp
  rw [Coherent.headersOf_eq hf, Disk.headersOf, ((h.mem_files p f).1 hf).2]
  rfl

include h in
/-- Below a source the snapshot has the graph of the disk. -/
theorem reaches_iff {p q : Path} (hp : p ∈ s.sources.keys) :
    Reaches (disk.headersOf roots imports) p q ↔ Reaches s.headersOf p q := by
  refine (Reaches.congr fun r hr => ?_).symm
  exact h.headersOf_eq (h.coherent.reaches (h.coherent.source p hp) hr)

include h in
/-- An include closure is what the snapshot recorded below the source. -/
theorem mem_closureOf {p q : Path} (hp : p ∈ s.sources.keys) {content : Bytes}
    {is : List Include} : (q, content, is) ∈ disk.closureOf roots imports p ↔
      Reaches s.headersOf p q ∧ disk.read q = .ok content ∧
        ∃ f, s.file? q = some f ∧ f.digest = .ofContent content ∧ f.includes = is := by
  change _ ∧ _ ∧ _ ↔ _
  rw [h.reaches_iff hp]
  refine and_congr_right fun hq => and_congr_right fun hread => ?_
  obtain ⟨f, hf⟩ := Table.mem_keys_iff.1 (h.coherent.reaches (h.coherent.source p hp) hq)
  have hstate := s.files.find?_of_mem hf
  obtain ⟨content', hread', rfl⟩ := Disk.fileState_eq_some.1 ((h.mem_files q f).1 hf).2
  obtain rfl := Except.ok.inj (hread'.symm.trans hread)
  constructor
  · intro his
    exact ⟨_, hstate, rfl, his.symm⟩
  · rintro ⟨g, hg, -, his⟩
    obtain rfl := Option.some.inj (hstate.symm.trans hg)
    exact his.symm

end Graph

/-! ## The same closure on two disks -/

section Same

variable {disk' : Disk} {roots' : List Path} {imports' : Bool} {sources' : List Path}
  {s' : Snapshot} (h : s.Describes disk roots imports sources)
  (h' : s'.Describes disk' roots' imports' sources') {contents : Set Bytes}
  (hcontents : Set.InjOn Digest.ofContent contents) (hdisk : disk.Within contents)
  (hdisk' : disk'.Within contents)

include h h' hcontents hdisk hdisk' in
theorem closureOf_subset {p : Path} (hp : p ∈ s.sources.keys) (hp' : p ∈ s'.sources.keys)
    (hsame : s.SameFrom s' p) :
    disk.closureOf roots imports p ⊆ disk'.closureOf roots' imports' p := by
  rintro ⟨q, content, is⟩ hmem
  obtain ⟨hreach, hread, f, hf, hdigest, rfl⟩ := (h.mem_closureOf hp).1 hmem
  have hreach' := (hsame.1 q).1 hreach
  obtain ⟨f', g, hf', hg, hdigests, hincludes⟩ := hsame.2 q hreach'
  obtain rfl := Option.some.inj (hf.symm.trans hf')
  have hnormal := h'.coherent.normal q (h'.coherent.reaches (h'.coherent.source p hp') hreach')
  have hentry := (h'.coherent.file?_eq_some hnormal).1 hg
  obtain ⟨content', hread', rfl⟩ := Disk.fileState_eq_some.1 ((h'.mem_files q g).1 hentry).2
  -- The digests agree, so the contents do.
  obtain rfl : content = content' := by
    refine hcontents (hdisk q content hread) (hdisk' q content' hread') ?_
    exact hdigest.symm.trans hdigests
  exact (h'.mem_closureOf hp').2 ⟨hreach', hread', _, hg, rfl, hincludes.symm⟩

include h h' hcontents hdisk hdisk' in
/-- A source from which two snapshots are the same has the same include closure on both disks. -/
theorem closureOf_eq {p : Path} (hp : p ∈ s.sources.keys) (hp' : p ∈ s'.sources.keys)
    (hsame : s.SameFrom s' p) :
    disk.closureOf roots imports p = disk'.closureOf roots' imports' p := by
  apply Set.Subset.antisymm
  · exact closureOf_subset h h' hcontents hdisk hdisk' hp hp' hsame
  · exact closureOf_subset h' h hcontents hdisk' hdisk hp' hp hsame.symm

end Same

end Snapshot.Describes

end Recompile
