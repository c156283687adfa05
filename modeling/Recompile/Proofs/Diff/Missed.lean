import Mathlib.Data.List.TakeWhile
import Recompile.Proofs.Diff.Isolation
import Recompile.Proofs.Survey.Lookups

/-!
# Lookups that failed

A directive leads to the first candidate that is a file, so the candidates before it were missed:
there was no file (`Disk.missed`). A snapshot does not name them. Take a second disk that agrees
with the first on every file of a snapshot (`Disk.AgreeAt`). There a directive whose header is known
comes to the same unless a file has appeared at a candidate that was missed
(`Disk.includeOf_eq_iff`), and so a source is left alone exactly when it reaches only files with
known headers and nothing has appeared at what their directives missed
(`Snapshot.Describes.leavesAlone_iff`, `Snapshot.Describes.mem_recompile`).
-/

namespace Recompile

namespace Disk

/-- Two disks agree at a path: on whether there is a file, and on what it holds. -/
structure AgreeAt (disk disk' : Disk) (p : Path) : Prop where
  test : (Lookup.test p).Same disk disk'
  read : (Lookup.read p).Same disk disk'

instance (disk disk' : Disk) (p : Path) : Decidable (disk.AgreeAt disk' p) :=
  decidable_of_iff ((Lookup.test p).Same disk disk' ∧ (Lookup.read p).Same disk disk')
    ⟨fun h => ⟨h.1, h.2⟩, fun h => ⟨h.test, h.read⟩⟩

theorem AgreeAt.read_eq_ok {disk disk' : Disk} {p : Path} (h : disk.AgreeAt disk' p)
    {content : Bytes} (hread : disk.read p = .ok content) : disk'.read p = .ok content := by
  obtain ⟨content', hread', heq⟩ | ⟨-, e, -, herror⟩ := Except.toOption_eq_cases h.read
  · rwa [Except.ok.inj (hread.symm.trans heq)]
  · cases hread.symm.trans herror

/-- The candidates of a directive before the one it leads to; all if it leads nowhere. -/
def missed (disk : Disk) (roots : List Path) (includer : Path) (d : Directive) : List Path :=
  (SearchPath.candidates roots d includer).takeWhile fun c => !disk.isFile c

variable {disk disk' : Disk} {roots : List Path} {imports : Bool} {includer p : Path}
  {d : Directive}

theorem isFile_of_mem_missed {c : Path} (h : c ∈ disk.missed roots includer d) :
    disk.isFile c = false := by
  simpa using List.mem_takeWhile_imp h

/-! ## Directives -/

theorem locate_eq_found_iff_missed {q : Path} : disk.locate roots includer d = .found q ↔
    disk.isFile q = true ∧ ∃ after,
      SearchPath.candidates roots d includer = disk.missed roots includer d ++ q :: after := by
  rw [locate_eq_found, SearchPath.firstFile?, List.find?_eq_some_iff_append]
  refine and_congr_right fun hq => ?_
  constructor
  · rintro ⟨before, after, hcandidates, hbefore⟩
    have hmissed : disk.missed roots includer d = before := by
      rw [missed, hcandidates, List.takeWhile_append_of_pos hbefore,
        List.takeWhile_cons_of_neg (by simp [hq]), List.append_nil]
    exact ⟨after, hmissed ▸ hcandidates⟩
  · rintro ⟨after, hcandidates⟩
    exact ⟨_, after, hcandidates, fun c hc => by simp [isFile_of_mem_missed hc]⟩

/-- A directive leads to the same place when nothing has appeared at what it missed and the file it
led to is still there. -/
theorem locate_eq_of_missed
    (hmissed : ∀ c ∈ disk.missed roots includer d, disk'.isFile c = false)
    (hfound : ∀ q, disk.locate roots includer d = .found q → disk'.isFile q = true) :
    disk'.locate roots includer d = disk.locate roots includer d := by
  cases hlocate : disk.locate roots includer d with
  | notStatic => exact locate_notStatic.2 (locate_notStatic.1 hlocate)
  | notFound =>
    obtain ⟨hform, hnone⟩ := locate_notFound.1 hlocate
    have hall : disk.missed roots includer d = SearchPath.candidates roots d includer :=
      List.takeWhile_eq_self_iff.2 fun c hc => by simp [hnone c hc]
    exact locate_notFound.2 ⟨hform, fun c hc => hmissed c (hall ▸ hc)⟩
  | found q =>
    obtain ⟨-, after, hcandidates⟩ := locate_eq_found_iff_missed.1 hlocate
    rw [locate_eq_found, SearchPath.firstFile?, List.find?_eq_some_iff_append]
    exact ⟨hfound q hlocate, _, after, hcandidates, fun c hc => by simp [hmissed c hc]⟩

/-- A file at a candidate that was missed takes the directive to itself or to another such one. -/
theorem exists_found_of_missed {c : Path} (hc : c ∈ disk.missed roots includer d)
    (hfile : disk'.isFile c = true) :
    ∃ q ∈ disk.missed roots includer d, disk'.locate roots includer d = .found q := by
  have hcandidates : SearchPath.candidates roots d includer = disk.missed roots includer d ++
      (SearchPath.candidates roots d includer).dropWhile fun c => !disk.isFile c :=
    List.takeWhile_append_dropWhile.symm
  obtain ⟨q, hq⟩ : ∃ q, (disk.missed roots includer d).find? disk'.isFile = some q :=
    Option.isSome_iff_exists.1 (List.find?_isSome.2 ⟨c, hc, hfile⟩)
  refine ⟨q, List.mem_of_find?_eq_some hq, locate_eq_found.2 ?_⟩
  rw [SearchPath.firstFile?, hcandidates, List.find?_append, hq, Option.some_or]

/-- A directive whose header is known carries the path of the file it leads to. -/
theorem path?_of_found (hknown : (disk.includeOf roots includer d).outcome ≠ .unknown) {q : Path}
    (hlocate : disk.locate roots includer d = .found q) :
    (disk.includeOf roots includer d).path? = some q := by
  refine includeOf_path?.2 ⟨hlocate, ?_⟩
  cases hread : disk.read q with
  | error e => exact absurd (includeOf_unknown.2 (.inr ⟨q, e, hlocate, hread⟩)) hknown
  | ok content => exact ⟨content, rfl⟩

/-- What becomes of a directive whose header is known is the same on a disk that agrees on the
header, unless a file has appeared at what the directive missed. -/
theorem includeOf_eq_iff (hknown : (disk.includeOf roots includer d).outcome ≠ .unknown)
    (hheader : ∀ q, (disk.includeOf roots includer d).path? = some q → disk.AgreeAt disk' q) :
    disk'.includeOf roots includer d = disk.includeOf roots includer d ↔
      ∀ c ∈ disk.missed roots includer d, disk'.isFile c = false := by
  constructor
  · intro heq c hc
    by_contra hfile
    obtain ⟨q, hq, hlocate⟩ := exists_found_of_missed hc (Bool.not_eq_false _ ▸ hfile)
    have hpath := path?_of_found (heq ▸ hknown) hlocate
    rw [heq] at hpath
    have hpresent := (locate_found (includeOf_path?.1 hpath).1).2
    exact Bool.false_ne_true ((isFile_of_mem_missed hq).symm.trans hpresent)
  · intro hmissed
    have hagree (q : Path) (hq : disk.locate roots includer d = .found q) : disk.AgreeAt disk' q :=
      hheader q (path?_of_found hknown hq)
    have hlocate : disk'.locate roots includer d = disk.locate roots includer d :=
      locate_eq_of_missed hmissed fun q hq => (hagree q hq).test.trans (locate_found hq).2
    rw [includeOf, includeOf, hlocate]
    cases hfound : disk.locate roots includer d with
    | notFound => rfl
    | notStatic => rfl
    | found q =>
      have hread : (disk'.read q).toOption = (disk.read q).toOption := (hagree q hfound).read
      simp only [Location.outcome, digest?, hread]

/-! ## Files -/

/-- A file that holds the same has the same directives. -/
theorem fileState_of_agreeAt {f : FileState} (hf : disk.fileState roots imports p = some f)
    (hagree : disk.AgreeAt disk' p) : disk'.fileState roots imports p =
      some { f with includes := f.directives.all.map (disk'.includeOf roots p) } := by
  obtain ⟨content, hread, rfl⟩ := fileState_eq_some.1 hf
  exact fileState_eq_some.2 ⟨content, hagree.read_eq_ok hread, rfl⟩

/-- What is to be recorded of a file with known headers is the same on a disk that agrees on the
file and its headers, unless a file has appeared at what its directives missed. -/
theorem fileState_eq_iff {f : FileState} (hf : disk.fileState roots imports p = some f)
    (hknown : f.hasUnknown = false) (hagree : disk.AgreeAt disk' p)
    (hheaders : ∀ q ∈ f.headers, disk.AgreeAt disk' q) :
    disk'.fileState roots imports p = some f ↔
      ∀ d ∈ f.directives.all, ∀ c ∈ disk.missed roots p d, disk'.isFile c = false := by
  rw [fileState_of_agreeAt hf hagree]
  obtain ⟨content, -, rfl⟩ := fileState_eq_some.1 hf
  rw [← Bool.not_eq_true, FileState.hasUnknown_iff] at hknown
  simp only [Option.some.injEq, FileState.mk.injEq, true_and, List.map_inj_left]
  refine forall₂_congr fun d hd => ?_
  refine includeOf_eq_iff (fun hunknown => ?_) fun q hq => ?_
  · exact hknown (.inr ⟨_, List.mem_map_of_mem hd, hunknown⟩)
  · exact hheaders q ((mem_headers_fileState hf).2 ⟨d, hd, hq⟩)

end Disk

/-! ## Sources -/

namespace Snapshot.Describes

variable {disk disk' : Disk} {roots : List Path} {imports : Bool} {sources sources' : List Path}
  {old new : Snapshot} (h : old.Describes disk roots imports sources)
  (h' : new.Describes disk' roots imports sources')
  (hagree : ∀ p ∈ old.files.keys, disk.AgreeAt disk' p) {s : Path} (hs : s ∈ old.sources.keys)
  (hs' : s ∈ new.sources.keys)

include h h' hagree hs hs' in
/-- A source is left alone when all that it reached is known and to be recorded as before. -/
theorem leavesAlone_iff_fileState : old.LeavesAlone new s ↔
    ∀ p f, Reaches old.headersOf s p → old.file? p = some f →
      f.hasUnknown = false ∧ disk'.fileState roots imports p = some f := by
  have hkey {p : Path} (hreach : Reaches old.headersOf s p) : p ∈ old.files.keys :=
    h.coherent.reaches (h.coherent.source s hs) hreach
  constructor
  · rintro ⟨-, hknown, hsame⟩ p f hreach hf
    have hreach' := (hsame.1 p).1 hreach
    obtain ⟨f', g, hf', hg, -, hincludes⟩ := hsame.2 p hreach'
    obtain rfl := Option.some.inj (hf.symm.trans hf')
    obtain ⟨g', hg', hunknown⟩ := hknown p hreach'
    obtain rfl := Option.some.inj (hg.symm.trans hg')
    have hdisk := (h.file?_of_reaches hs hreach).symm.trans hf
    have hdisk' := (h'.file?_of_reaches hs' hreach').symm.trans hg
    have hstate := hdisk'.symm.trans (Disk.fileState_of_agreeAt hdisk (hagree p (hkey hreach)))
    -- The two records can differ in the outcomes only, and there they do not.
    obtain rfl : g = f := by
      rw [Option.some.inj hstate]
      have houtcomes : f.includes = f.directives.all.map (disk'.includeOf roots p) := by
        rwa [Option.some.inj hstate] at hincludes
      rw [← houtcomes]
    exact ⟨hunknown, hdisk'⟩
  · intro hall
    have hrecorded (p : Path) (hreach : Reaches old.headersOf s p) : ∃ f, old.file? p = some f ∧
        f.hasUnknown = false ∧ disk'.fileState roots imports p = some f := by
      obtain ⟨f, hf⟩ := Table.mem_keys_iff.1 (hkey hreach)
      have hfile : old.file? p = some f := old.files.find?_of_mem hf
      exact ⟨f, hfile, hall p f hreach hfile⟩
    have hedges (p : Path) (hreach : Reaches old.headersOf s p) :
        old.headersOf p = disk'.headersOf roots imports p := by
      obtain ⟨f, hf, -, hf'⟩ := hrecorded p hreach
      rw [Snapshot.headersOf, Disk.headersOf, hf, hf']
    have hreaches (p : Path) : Reaches old.headersOf s p ↔ Reaches new.headersOf s p :=
      (Reaches.congr hedges).trans (h'.reaches_iff hs')
    have hfound (p : Path) (hreach : Reaches new.headersOf s p) : ∃ f, old.file? p = some f ∧
        new.file? p = some f ∧ f.hasUnknown = false := by
      obtain ⟨f, hf, hknown, hf'⟩ := hrecorded p ((hreaches p).2 hreach)
      exact ⟨f, hf, (h'.file?_of_reaches hs' hreach).trans hf', hknown⟩
    refine ⟨Table.contains_of_mem_keys hs, fun p hreach => ?_, hreaches, fun p hreach => ?_⟩
    · obtain ⟨f, -, hf, hknown⟩ := hfound p hreach
      exact ⟨f, hf, hknown⟩
    · obtain ⟨f, hf, hf', -⟩ := hfound p hreach
      exact ⟨f, f, hf, hf', rfl, rfl⟩

include h h' hagree hs hs' in
/-- A source is left alone exactly when it reached only files with known headers, and no file has
appeared at what their directives missed. -/
theorem leavesAlone_iff : old.LeavesAlone new s ↔
    ∀ p f, Reaches old.headersOf s p → old.file? p = some f → f.hasUnknown = false ∧
      ∀ d ∈ f.directives.all, ∀ c ∈ disk.missed roots p d, disk'.isFile c = false := by
  rw [leavesAlone_iff_fileState h h' hagree hs hs']
  refine forall₄_congr fun p f hreach hf => and_congr_right fun hknown => ?_
  have hkey := h.coherent.reaches (h.coherent.source s hs) hreach
  have hentry := (h.coherent.file?_eq_some (h.coherent.normal p hkey)).1 hf
  exact Disk.fileState_eq_iff ((h.mem_files p f).1 hentry).2 hknown (hagree p hkey)
    fun q hq => hagree q (h.coherent.closed p f hentry q hq)

/-- With the same sources nothing is gone. -/
theorem removed_eq_nil (h : old.Describes disk roots imports sources)
    (h' : new.Describes disk' roots imports sources) :
    (Compilation.between old new).removed.keys = [] := by
  refine List.eq_nil_iff_forall_not_mem.2 fun p hp => ?_
  obtain ⟨hsource, hgone⟩ := Table.mem_keys_difference.1 hp
  have hkept := (h'.mem_sources p).2 ((h.mem_sources p).1 hsource)
  exact Bool.false_ne_true (hgone.symm.trans (Table.contains_of_mem_keys hkept))

/-- With the same sources, compiled again is what reached a file whose headers cannot all be known
or one with a directive that missed a candidate which is a file now. -/
theorem mem_recompile (h : old.Describes disk roots imports sources)
    (h' : new.Describes disk' roots imports sources)
    (hagree : ∀ p ∈ old.files.keys, disk.AgreeAt disk' p) {s : Path} :
    s ∈ (Compilation.between old new).recompile.keys ↔ (∃ q ∈ sources, q.normalize = s) ∧
      ∃ p f, Reaches old.headersOf s p ∧ old.file? p = some f ∧ (f.hasUnknown = true ∨
        ∃ d ∈ f.directives.all, ∃ c ∈ disk.missed roots p d, disk'.isFile c = true) := by
  rw [Compilation.mem_keys_recompile h'.coherent, h'.mem_sources]
  refine and_congr_right fun hsource => ?_
  have hs := (h.mem_sources s).2 hsource
  have hs' := (h'.mem_sources s).2 hsource
  rw [← Bool.not_eq_false, Compilation.contains_recompile_eq_false h.coherent h'.coherent hs',
    leavesAlone_iff h h' hagree hs hs']
  simp only [not_forall, exists_prop, not_and_or, Bool.not_eq_false]

end Snapshot.Describes

end Recompile
