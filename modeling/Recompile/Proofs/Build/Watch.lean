import Recompile.Proofs.Build.World
import Recompile.Proofs.Diff.Missed
import Recompile.Proofs.FileTree.Names

/-!
# What is enough to watch

A build reports its inputs to the surrounding build: the headers, and every include root when some
header cannot be known. Let a second disk agree with the first on the sources, on the inputs and on
everything below the roots among them (`Disk.SameInputs`). Then a further build removes nothing and
compiles exactly those sources again that reach a file whose headers cannot all be known, or one
with a directive that missed a candidate at which a file, elsewhere, has appeared
(`execute_watched`).

The places where a lookup failed are not reported, so the inputs alone are not enough: a header that
appears beside the source, before the one that was found in a root, has the source compiled again
(`execute_unwatched`).
-/

namespace Recompile

theorem Table.keys_subset_addAll {κ : Type} [Ord κ] [Std.TransOrd κ] (s : KeySet κ) (ks : List κ) :
    s.keys ⊆ (s.addAll ks).keys := by
  induction ks generalizing s with
  | nil => exact List.Subset.refl _
  | cons k ks ih => exact List.Subset.trans (keys_subset_insert s k ()) (ih (s.add k))

theorem Snapshot.hasUnknown_of_file? {s : Snapshot} {p : Path} {f : FileState}
    (hf : s.file? p = some f) (h : f.hasUnknown = true) : s.hasUnknown = true := by
  obtain ⟨q, hq, -⟩ := s.files.find?_eq_some_iff.1 hf
  exact List.any_eq_true.2 ⟨f, Table.mem_values_iff.2 ⟨q, hq⟩, h⟩

/-- The path is the normal one of something below a directory. -/
def Path.Below (p dir : Path) : Prop :=
  p.IsNormal ∧ ∃ names : List String, names ≠ [] ∧
    p.steps = Step.normalize dir.steps ++ names.map .name

/-- Two disks agree on the sources, on the files among the inputs, and on everything below the
include roots among the inputs. -/
structure Disk.SameInputs (disk disk' : Disk) (spec : TaskSpec) (inputs : PathSet) : Prop where
  source : ∀ s ∈ spec.sources, disk.AgreeAt disk' s.normalize
  file : ∀ p ∈ inputs.keys, disk.isFile p = true → disk.AgreeAt disk' p
  below : ∀ root ∈ spec.roots, inputs.contains root = true → ∀ p : Path, p.Below root →
    disk.AgreeAt disk' p

/-! ## What a build reports and asks for -/

namespace Build

variable {σ : Type} [SnapshotStore σ] {disk : Disk} {limit : Nat} {store : σ} {spec : TaskSpec}
  {compile : Compiler} {watched : PathSet} {c : Compilation}

/-- A build that succeeds has saved what it compared. -/
theorem saved_of_outcome {r : BuildResult}
    (h : (execute disk limit store spec compile watched).value.outcome = .ok r) :
    comparison disk limit store spec = .ok r.compilation ∧
      (SnapshotStore.save store spec.task r.compilation.state).value =
        ((execute disk limit store spec compile watched).value.store, .ok ()) := by
  have hends := execute_ends disk limit store spec compile watched
  generalize (execute disk limit store spec compile watched).value = b at h hends
  cases hends with
  | unsurveyed _ _ => cases h
  | failed _ _ _ => cases h
  | unsaved _ _ _ _ => cases h
  | done _ hcompute _ hsave =>
    cases h
    exact ⟨hcompute, hsave⟩

theorem request_of_comparison (h : comparison disk limit store spec = .ok c) :
    (execute disk limit store spec compile watched).value.request =
      some (.ofCompilation spec.incremental c) := by
  have hends := execute_ends disk limit store spec compile watched
  generalize (execute disk limit store spec compile watched).value = b at hends
  cases hends with
  | unsurveyed _ hcompute => cases hcompute.symm.trans h
  | failed _ hcompute _ => rw [Except.ok.inj (hcompute.symm.trans h)]
  | unsaved _ hcompute _ _ => rw [Except.ok.inj (hcompute.symm.trans h)]
  | done _ hcompute _ _ => rw [Except.ok.inj (hcompute.symm.trans h)]

theorem inputs_finish (inputs : PathSet) :
    (finish store spec compile inputs c).value.inputs = inputs := by
  unfold finish
  cases hcompile : compile (.ofCompilation spec.incremental c) with
  | error reason => split <;> simp only [Logged.value_bind, Logged.value_pure, hcompile]
  | ok didWork =>
    rcases hsave : (SnapshotStore.save store spec.task c.state).value with ⟨store', e | ⟨⟩⟩ <;>
      split <;> simp only [Logged.value_bind, Logged.value_pure, hcompile, hsave]

theorem inputs_of_comparison (h : comparison disk limit store spec = .ok c) :
    (execute disk limit store spec compile watched).value.inputs =
      watched.addAll (c.inputs spec.roots).value.keys := by
  change (Compilation.compute disk limit ((SnapshotStore.load store spec.task).value.getD .empty)
    (.new spec.imports (.ofRoots spec.roots)) spec.sources).value = .ok c at h
  unfold execute
  simp only [Logged.value_bind, h]
  exact inputs_finish _

theorem headers_subset_inputs (h : comparison disk limit store spec = .ok c) :
    c.headers.keys ⊆ (execute disk limit store spec compile ∅).value.inputs.keys := by
  have hsubset : c.headers.keys ⊆ (c.inputs spec.roots).value.keys := by
    unfold Compilation.inputs
    split
    · exact Table.keys_subset_addAll c.headers spec.roots
    · exact List.Subset.refl _
  rw [inputs_of_comparison h]
  rwa [← Table.setOf_keys (c.inputs spec.roots).value] at hsubset

end Build

/-! ## A further build -/

namespace Disk.SameInputs

variable {disk disk' : Disk} {spec : TaskSpec} {inputs : PathSet} {c : Compilation}

/-- The files of the final state are the sources and the headers, so the disks agree on them. -/
theorem agreeAt (h : disk.SameInputs disk' spec inputs)
    (hexact : c.Exact disk spec.roots spec.imports spec.sources)
    (hheaders : c.headers.keys ⊆ inputs.keys) {p : Path} (hp : p ∈ c.state.files.keys) :
    disk.AgreeAt disk' p := by
  by_cases hsource : p ∈ c.state.sources.keys
  · obtain ⟨s, hs, rfl⟩ := (hexact.mem_sources p).1 hsource
    exact h.source s hs
  · rcases ((hexact.mem_files p).1 hp).source_or_isFile with ⟨s, hs, rfl⟩ | hfile
    · exact h.source s hs
    · exact h.file p (hheaders ((hexact.headers p).2 ⟨hp, hsource⟩)) hfile

/-- What was missed and has appeared is not below a root among the inputs. -/
theorem not_below (h : disk.SameInputs disk' spec inputs) {p x : Path} {d : Directive}
    (hx : x ∈ disk.missed spec.roots p d) (hfile : disk'.isFile x = true) :
    ∀ root ∈ spec.roots, inputs.contains root = true → ¬x.Below root := by
  intro root hroot hinput hbelow
  have htest : disk'.isFile x = disk.isFile x := (h.below root hroot hinput x hbelow).test
  rw [hfile, Disk.isFile_of_mem_missed hx] at htest
  cases htest

end Disk.SameInputs

/-- **What is enough to watch.** Let a build succeed, and let a second disk agree with the first on
the sources, on the files among the reported inputs, and on everything below the include roots among
them. A further build against the stored snapshot comes to a comparison there, which is what its
compiler is asked for and what it results in if it succeeds. It removes nothing, and it compiles
exactly those sources again that in the stored snapshot reach a file that cannot be parsed, or whose
headers cannot all be known, or with a directive of which some candidate that was missed is now a
file. Such a candidate is not below a root among the inputs. -/
theorem execute_watched {σ : Type} [SnapshotStore σ] {disk disk' : Disk} {limit limit' : Nat}
    {store store' : σ} {spec : TaskSpec} {compile : Compiler} {r : BuildResult}
    (hfirst : (Build.execute disk limit store spec compile ∅).value.outcome = .ok r)
    (hstored : (SnapshotStore.load store' spec.task).value = some r.compilation.state)
    (hsame : disk.SameInputs disk' spec
      (Build.execute disk limit store spec compile ∅).value.inputs)
    (hlimit : disk'.Allows limit') (compile' : Compiler) (watched : PathSet) :
    let inputs := (Build.execute disk limit store spec compile ∅).value.inputs
    let old := r.compilation.state
    let second := (Build.execute disk' limit' store' spec compile' watched).value
    ∃ c, second.request = some (.ofCompilation spec.incremental c) ∧
      (∀ r', second.outcome = .ok r' → r'.compilation = c) ∧ c.removed.keys = [] ∧
      ∀ p, p ∈ c.recompile.keys ↔ (∃ s ∈ spec.sources, s.normalize = p) ∧
        ∃ q f, Reaches old.headersOf p q ∧ old.file? q = some f ∧
          (f.directives.unreadable = true ∨ (∃ i ∈ f.includes, i.outcome = .unknown) ∨
            ∃ d ∈ f.directives.all, ∃ x ∈ disk.missed spec.roots q d, disk'.isFile x = true ∧
              ∀ root ∈ spec.roots, inputs.contains root = true → ¬x.Below root) := by
  intro inputs old second
  obtain ⟨hcompute, -⟩ := Build.saved_of_outcome hfirst
  have hold : old.Describes disk spec.roots spec.imports spec.sources :=
    Compilation.compute_describes hcompute
  have hagree : ∀ p ∈ old.files.keys, disk.AgreeAt disk' p := by
    obtain ⟨-, -, hbetween⟩ := Compilation.compute_eq_ok hcompute
    refine fun p => hsame.agreeAt ?_ (Build.headers_subset_inputs hcompute)
    exact hbetween ▸ Compilation.exact_of_describes hold
  -- The sources can be read on the second disk, too.
  have hread : ∀ s ∈ spec.sources, ∃ content, disk'.read s.normalize = .ok content := by
    intro s hs
    obtain ⟨content, hcontent⟩ := Compilation.compute_readable hcompute hs
    exact ⟨content, (hsame.source s hs).read_eq_ok hcontent⟩
  obtain ⟨names, hlength, hnames⟩ := hlimit
  obtain ⟨c, hcompute'⟩ : ∃ c, Build.comparison disk' limit' store' spec = .ok c :=
    Compilation.compute_isOk hread hnames hlength
  have hnew : c.state.Describes disk' spec.roots spec.imports spec.sources :=
    Compilation.compute_describes hcompute'
  have hbetween : c = .between old c.state := by
    obtain ⟨-, -, hbetween⟩ := Compilation.compute_eq_ok hcompute'
    rwa [SnapshotStore.recalled, hstored, Option.getD_some] at hbetween
  refine ⟨c, Build.request_of_comparison hcompute', fun r' hr' => ?_, ?_, fun p => ?_⟩
  · exact Except.ok.inj ((Build.saved_of_outcome hr').1.symm.trans hcompute')
  · rw [hbetween]
    exact hold.removed_eq_nil hnew
  · rw [hbetween, hold.mem_recompile hnew hagree]
    simp only [FileState.hasUnknown_iff, or_assoc]
    refine and_congr_right fun _ => ?_
    refine exists_congr fun q => exists_congr fun f => and_congr_right fun _ =>
      and_congr_right fun _ => or_congr_right (or_congr_right ?_)
    refine exists_congr fun d => and_congr_right fun _ => exists_congr fun x =>
      and_congr_right fun hx => ?_
    exact (and_iff_left_of_imp (hsame.not_below hx)).symm

namespace Shadowing

/-! A header is found in a root, once for the directory of the source and once for the roots alone;
then one of the same name appears beside the sources. -/

def files : List (String × String) :=
  [("a.c", "#include \"b.h\"\n"), ("d.c", "#include <b.h>\n"), ("r/b.h", "1")]

def before : Disk := .ofFiles files

def after : Disk := .ofFiles (("b.h", "2") :: files)

def spec : TaskSpec := ⟨":app", [.ofText "a.c", .ofText "d.c"], [.ofText "r"], true, false⟩

def first : Build MemoryStore := (Build.execute before 3 .empty spec Build.recording ∅).value

def second : Build MemoryStore := (Build.execute after 4 first.store spec Build.recording ∅).value

theorem sameInputs : before.SameInputs after spec first.inputs where
  source := by decide +kernel
  file := by decide +kernel
  below := by
    intro root hroot hinput
    obtain rfl := List.mem_singleton.1 hroot
    have hnone : first.inputs.contains (.ofText "r") = false := by decide +kernel
    cases hnone.symm.trans hinput

theorem allows : after.Allows 4 :=
  ⟨(("b.h", "2") :: files).map fun f => .ofText f.1, Nat.le_refl 4,
    fun _ _ hfile => Disk.isFile_ofFiles hfile⟩

theorem load_first {r : BuildResult} (h : first.outcome = .ok r) :
    (SnapshotStore.load first.store spec.task).value = some r.compilation.state :=
  MemoryStore.returns spec.task _ _ _ (Build.saved_of_outcome h).2

end Shadowing

open Shadowing in
/-- The source that looks in the roots alone is left alone. -/
theorem execute_watched_shadowed :
    ∃ r c, first.outcome = .ok r ∧ second.request = some (.ofCompilation true c) ∧
      c.removed.keys = [] ∧ Path.ofText "d.c" ∉ c.recompile.keys ∧
      Path.ofText "a.c" ∈ c.recompile.keys ∧
      ∃ q f, Reaches r.compilation.state.headersOf (.ofText "a.c") q ∧
        r.compilation.state.file? q = some f ∧ ∃ d ∈ f.directives.all,
          ∃ x ∈ before.missed spec.roots q d, after.isFile x = true := by
  obtain ⟨r, hfirst, hknown⟩ := Except.exists_ok_of_any (x := first.outcome)
    (P := fun r => !r.compilation.state.hasUnknown) (by decide +kernel)
  obtain ⟨r', hsecond, hrest⟩ := Except.exists_ok_of_any (x := second.outcome)
    (P := fun r => r.compilation.recompile.keys.any (·.text == "a.c") &&
      !r.compilation.recompile.contains (.ofText "d.c")) (by decide +kernel)
  obtain ⟨hagain, hleft⟩ := (Bool.and_eq_true _ _).mp hrest
  have hstored := load_first hfirst
  obtain ⟨c, hrequest, hresult, hremoved, hrecompile⟩ :=
    execute_watched hfirst hstored sameInputs allows Build.recording ∅
  obtain rfl := hresult r' hsecond
  obtain ⟨p, hp, htext⟩ := List.any_eq_true.1 hagain
  obtain rfl : p = .ofText "a.c" := Path.ext (eq_of_beq htext)
  refine ⟨r, _, hfirst, hrequest, hremoved, fun hmem => ?_, hp, ?_⟩
  · have hcontains := Table.contains_of_mem_keys hmem
    rw [hcontains] at hleft
    cases hleft
  · obtain ⟨-, q, f, hreach, hf, hreason⟩ := (hrecompile _).1 hp
    rcases or_assoc.2 hreason with hunknown | ⟨d, hd, x, hx, hfile, -⟩
    · rw [Snapshot.hasUnknown_of_file? hf (FileState.hasUnknown_iff.2 hunknown)] at hknown
      cases hknown
    · exact ⟨q, f, hreach, hf, d, hd, x, hx, hfile⟩

open Shadowing in
/-- The disks agree on all that is to be watched and every header is known, and still the source
that looks beside itself first is compiled again. -/
theorem execute_unwatched :
    ∃ r r', first.outcome = .ok r ∧
      (SnapshotStore.load first.store spec.task).value = some r.compilation.state ∧
      before.SameInputs after spec first.inputs ∧
      second.outcome = .ok r' ∧ r'.compilation.recompile.contains (.ofText "a.c") = true ∧
      r.compilation.state.hasUnknown = false ∧ r'.compilation.state.hasUnknown = false := by
  obtain ⟨r, hfirst, hknown⟩ := Except.exists_ok_of_any (x := first.outcome)
    (P := fun r => !r.compilation.state.hasUnknown) (by decide +kernel)
  obtain ⟨r', hsecond, hrest⟩ := Except.exists_ok_of_any (x := second.outcome)
    (P := fun r => r.compilation.recompile.contains (.ofText "a.c") &&
      !r.compilation.state.hasUnknown) (by decide +kernel)
  obtain ⟨hagain, hknown'⟩ := (Bool.and_eq_true _ _).mp hrest
  exact ⟨r, r', hfirst, load_first hfirst, sameInputs,
    hsecond, hagain, by simpa using hknown, by simpa using hknown'⟩

end Recompile
