import Recompile.Proofs.Diff.Invalidation

/-!
# Decisions against any snapshot

A comparison may be made with any snapshot, also one that no build has left: with sources that have
no state, with headers that are not tracked, with paths that are not normal. It takes each record
for what it says of one file, so what it decides can be said without asking where the snapshot comes
from (`compute_decides`): a source is compiled again when it is no source of the snapshot or reaches
a file whose headers cannot all be known or that differs from what the snapshot holds of it
(`Snapshot.Differs`), and what is gone is what the snapshot has as a source and the build has not.
-/

namespace Recompile

/-! ## Records that differ -/

/-- Outcomes that say the same, where headers go by their names and not by their spellings. -/
inductive Outcome.Same : Outcome → Outcome → Prop
  | resolved {p q : Path} (digest : Digest) (h : p.steps = q.steps) :
    Same (.resolved p digest) (.resolved q digest)
  | unresolved : Same .unresolved .unresolved
  | unknown : Same .unknown .unknown

theorem Outcome.beq_iff {o o' : Outcome} : (o == o') = true ↔ o.Same o' := by
  constructor
  · intro h
    cases o <;> cases o' <;> try cases h
    case resolved p digest q digest' =>
      change ((p == q) && (digest == digest')) = true at h
      obtain ⟨hsteps, hdigest⟩ := (Bool.and_eq_true _ _).mp h
      obtain rfl := LawfulBEq.eq_of_beq hdigest
      exact .resolved digest (Path.beq_iff.1 hsteps)
    · exact .unresolved
    · exact .unknown
  · rintro (⟨digest, h⟩ | _ | _)
    · change ((_ == _) && (digest == digest)) = true
      rw [Path.beq_iff.2 h, beq_self_eq_true]
      rfl
    · rfl
    · rfl

/-- The same directive with outcomes that say the same. -/
def Include.Same (i j : Include) : Prop := i.directive = j.directive ∧ i.outcome.Same j.outcome

theorem Include.beq_iff {i j : Include} : (i == j) = true ↔ i.Same j := by
  change ((i.directive == j.directive) && (i.outcome == j.outcome)) = true ↔ _
  rw [Bool.and_eq_true, beq_iff_eq, Outcome.beq_iff]
  rfl

theorem Include.all_beq_iff {is js : List Include} :
    (is == js) = true ↔ List.Forall₂ Include.Same is js := by
  induction is generalizing js with
  | nil =>
    cases js with
    | nil => exact ⟨fun _ => .nil, fun _ => rfl⟩
    | cons j js => exact ⟨fun h => (by cases h), fun h => (by cases h)⟩
  | cons i is ih =>
    cases js with
    | nil => exact ⟨fun h => (by cases h), fun h => (by cases h)⟩
    | cons j js =>
      change ((i == j) && (is == js)) = true ↔ _
      rw [Bool.and_eq_true, List.forall₂_cons, Include.beq_iff, ih]

namespace Snapshot

/-- A file is not as the snapshot holds it: the snapshot has no state under its name, or the state
has another content or another list of outcomes. -/
inductive Differs (previous : Snapshot) (p : Path) (f : FileState) : Prop
  | untracked (h : previous.file? p = none)
  | content {g : FileState} (hg : previous.file? p = some g) (h : g.digest ≠ f.digest)
  | outcomes {g : FileState} (hg : previous.file? p = some g)
    (h : ¬List.Forall₂ Include.Same g.includes f.includes)

theorem isChanged_iff {previous : Snapshot} {f : FileState} :
    previous.isChanged f = true ↔ previous.Differs f.path f := by
  unfold isChanged
  cases hg : previous.file? f.path with
  | none => exact ⟨fun _ => .untracked hg, fun _ => rfl⟩
  | some g =>
    dsimp only
    rw [Bool.or_eq_true, bne_iff_ne, bne, Bool.not_eq_true', ← Bool.not_eq_true,
      Include.all_beq_iff]
    constructor
    · rintro (h | h)
      · exact .content hg h
      · exact .outcomes hg h
    · rintro (h | ⟨hg', h⟩ | ⟨hg', h⟩)
      · cases h.symm.trans hg
      · obtain rfl := Option.some.inj (hg.symm.trans hg')
        exact .inl h
      · obtain rfl := Option.some.inj (hg.symm.trans hg')
        exact .inr h

end Snapshot

/-! ## What is decided -/

namespace Compilation

variable {old new : Snapshot}

/-- The sources that are compiled again. -/
theorem mem_recompile (hnew : new.Coherent) {s : Path} :
    s ∈ (between old new).recompile.keys ↔ s ∈ new.sources.keys ∧
      (old.isSource s = false ∨ ∃ p f, Reaches new.headersOf s p ∧ new.file? p = some f ∧
        (f.hasUnknown = true ∨ old.Differs p f)) := by
  rw [mem_keys_recompile hnew]
  refine and_congr_right fun hs => (contains_recompile hnew hs).trans (or_congr_right ?_)
  refine exists_congr fun p => exists_congr fun f => and_congr_right fun hreach => ?_
  rw [hnew.file?_eq_some (hnew.normal p (hnew.reaches (hnew.source s hs) hreach))]
  refine and_congr_right fun hf => or_congr_right ?_
  rw [Snapshot.isChanged_iff, hnew.keyed p f hf]

theorem mem_removed {p : Path} : p ∈ (between old new).removed.keys ↔
    p ∈ old.sources.keys ∧ new.isSource p = false :=
  Table.mem_keys_difference

/-- What is no source now is not compiled again. -/
theorem contains_recompile_of_not_source {p : Path} (h : new.isSource p = false) :
    (between old new).recompile.contains p = false := by
  rw [← Bool.not_eq_true]
  intro hcontains
  exact Bool.false_ne_true (h.symm.trans (isSource_of_contains_recompile hcontains))

end Compilation

namespace Snapshot.Describes

variable {disk : Disk} {roots : List Path} {imports : Bool} {sources : List Path} {s : Snapshot}
  (h : s.Describes disk roots imports sources)

include h in
theorem isSource_eq_false {p : Path} :
    s.isSource p = false ↔ ∀ q ∈ sources, (q.normalize == p) = false := by
  simp only [← Bool.not_eq_true, Path.beq_iff]
  constructor
  · intro hnone q hq heq
    have hkey := (h.mem_sources q.normalize).2 ⟨q, hq, rfl⟩
    exact hnone ((Table.contains_iff _).2 ⟨_, hkey, Path.compare_eq_iff.2 heq.symm⟩)
  · intro hnone hsource
    obtain ⟨q, hq, heq⟩ := h.exists_of_isSource hsource
    exact hnone q hq (Path.compare_eq_iff.1 heq).symm

include h in
/-- A file has a state, under whatever spelling it is asked for, when a source reaches it. -/
theorem exists_file?_iff {p : Path} : (∃ f, s.file? p = some f) ↔
    ∃ a ∈ s.sources.keys, ∃ q, Reaches s.headersOf a q ∧ (q == p) = true := by
  simp only [Path.beq_iff]
  constructor
  · rintro ⟨f, hf⟩
    obtain ⟨q, hq, heq⟩ := s.files.find?_eq_some_iff.1 hf
    obtain ⟨a, ha, hreach⟩ := h.tracked_iff.1 (h.mem_keys.1 (Table.mem_keys_of_mem hq))
    exact ⟨a, ha, q, hreach, (Path.compare_eq_iff.1 heq).symm⟩
  · rintro ⟨a, ha, q, hreach, heq⟩
    obtain ⟨f, hf⟩ := Table.mem_keys_iff.1 (h.coherent.reaches (h.coherent.source a ha) hreach)
    exact ⟨f, s.files.find?_eq_some_iff.2 ⟨q, hf, Path.compare_eq_iff.2 heq.symm⟩⟩

end Snapshot.Describes

/-- **What a comparison decides, whatever it compares with.** The sources that are compiled again
are those that the snapshot before has not as a source, and those that reach, in the new state, a
file with headers that cannot all be known or one that is not as the snapshot before holds it. The
removed paths are the sources of the snapshot before that are no sources now. None of these is
compiled again or a source of the new state, and one has a state there when a source reaches it. -/
theorem compute_decides {disk : Disk} {limit : Nat} {previous : Snapshot} {roots : List Path}
    {imports : Bool} {sources : List Path} {c : Compilation}
    (h : (Compilation.compute disk limit previous (.new imports (.ofRoots roots))
      sources).value = .ok c) :
    (∀ s, s ∈ c.recompile.keys ↔ (∃ q ∈ sources, q.normalize = s) ∧
      (previous.isSource s = false ∨
        ∃ p f, Reaches c.state.headersOf s p ∧ c.state.file? p = some f ∧
          (f.directives.unreadable = true ∨ (∃ i ∈ f.includes, i.outcome = .unknown) ∨
            previous.Differs p f))) ∧
    (∀ p, p ∈ c.removed.keys ↔
      p ∈ previous.sources.keys ∧ ∀ q ∈ sources, (q.normalize == p) = false) ∧
    ∀ p ∈ c.removed.keys, c.recompile.contains p = false ∧ c.state.isSource p = false ∧
      ((∃ f, c.state.file? p = some f) ↔
        ∃ s ∈ sources, ∃ q, Reaches c.state.headersOf s.normalize q ∧ (q == p) = true) := by
  have hnew := Compilation.compute_describes h
  obtain ⟨-, -, hbetween⟩ := Compilation.compute_eq_ok h
  have hremoved (p : Path) : p ∈ c.removed.keys ↔
      p ∈ previous.sources.keys ∧ c.state.isSource p = false := by
    rw [hbetween]
    exact Compilation.mem_removed
  refine ⟨fun s => ?_, fun p => ?_, fun p hp => ?_⟩
  · rw [hbetween, Compilation.mem_recompile hnew.coherent, hnew.mem_sources]
    simp only [FileState.hasUnknown_iff, or_assoc]
    rfl
  · rw [hremoved, hnew.isSource_eq_false]
  · have hsource := ((hremoved p).1 hp).2
    refine ⟨?_, hsource, ?_⟩
    · rw [hbetween]
      exact Compilation.contains_recompile_of_not_source hsource
    · rw [hnew.exists_file?_iff]
      constructor
      · rintro ⟨a, ha, hreach⟩
        obtain ⟨s, hs, rfl⟩ := (hnew.mem_sources a).1 ha
        exact ⟨s, hs, hreach⟩
      · rintro ⟨s, hs, hreach⟩
        exact ⟨s.normalize, (hnew.mem_sources _).2 ⟨s, hs, rfl⟩, hreach⟩

/-- A member of a list of paths is found by its spelling. -/
theorem Path.mem_of_any_text {ps : List Path} {text : String}
    (h : (ps.any fun p => p.text == text) = true) : ofText text ∈ ps := by
  obtain ⟨p, hp, htext⟩ := List.any_eq_true.1 h
  rwa [← eq_of_beq htext, ofText_text]

/-- A snapshot that no build leaves: its sources have the states that the disk gives them, but the
header that one of them includes has none, and a third source has neither a state nor a normal
path. -/
theorem compute_decides_unclosed :
    let disk : Disk := .ofFiles [("a.c", "#include \"b.h\"\n"), ("b.h", "1"), ("c.c", "int c;")]
    let sources : List Path := [.ofText "a.c", .ofText "c.c"]
    let gone : Path := .ofText "./x/../gone.c"
    let previous : Snapshot := {
      sources := .setOf (gone :: sources)
      files := .ofList (sources.filterMap fun p => (disk.fileState [] false p).map fun f => (p, f)) }
    ∃ c, (Compilation.compute disk 3 previous (.new false (.ofRoots [])) sources).value = .ok c ∧
      c.recompile.contains (.ofText "c.c") = false ∧
      (∃ p f, Reaches c.state.headersOf (.ofText "a.c") p ∧ c.state.file? p = some f ∧
        (f.directives.unreadable = true ∨ (∃ i ∈ f.includes, i.outcome = .unknown) ∨
          previous.Differs p f)) ∧
      gone ∈ c.removed.keys ∧ c.state.isSource gone = false := by
  intro disk sources gone previous
  obtain ⟨c, hc, hrest⟩ := Except.exists_ok_of_any
    (x := (Compilation.compute disk 3 previous (.new false (.ofRoots [])) sources).value)
    (P := fun c => !c.recompile.contains (.ofText "c.c") &&
      c.recompile.keys.any fun p => p.text == "a.c") (by decide +kernel)
  obtain ⟨hleft, hkey⟩ := (Bool.and_eq_true _ _).mp hrest
  obtain ⟨hrecompile, hremoved, hgone⟩ := compute_decides hc
  obtain ⟨-, hadded | hreach⟩ := (hrecompile _).1 (Path.mem_of_any_text hkey)
  · have hsource : previous.isSource (.ofText "a.c") = true := by decide +kernel
    cases hadded.symm.trans hsource
  · have hmem : gone ∈ c.removed.keys :=
      (hremoved gone).2 ⟨Path.mem_of_any_text (by decide +kernel), by decide +kernel⟩
    exact ⟨c, hc, by simpa using hleft, hreach, hmem, (hgone gone hmem).2.1⟩

end Recompile
