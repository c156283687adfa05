import Recompile.Proofs.Path.Normal
import Recompile.Proofs.Table
import Recompile.Survey

/-!
# What is on the disk, and what a survey remembers of it

`Disk.locate`, `Disk.includeOf` and `Disk.fileState` say, without any memory, where a directive
leads, what becomes of it, and what a build is to record of a file. A survey that agrees with the
disk (`Survey.Agrees`: every test and every reading it remembers is so on the disk) gives these very
answers and still agrees with the disk afterwards (`Survey.Agrees.resolveAll`). A search path that
remembers nothing gives them too (`Disk.resolve_ofRoots`).

A survey remembers a reading under a name, in whatever spelling, so it can only agree with the disk
for names that are read alike in all their spellings (`Disk.Unambiguous`).
-/

namespace Recompile

/-! ## Answers without a memory -/

/-- A directive is resolved when it leads to a file that has a digest, and then with that. -/
theorem Location.outcome_eq_resolved {digest? : Path → Option Digest} {location : Location}
    {q : Path} {digest : Digest} :
    location.outcome digest? = .resolved q digest ↔
      location = .found q ∧ digest? q = some digest := by
  cases location with
  | notFound => simp [outcome]
  | notStatic => simp [outcome]
  | found p =>
    simp only [outcome, found.injEq]
    cases hdigest : digest? p with
    | none =>
      refine ⟨fun h => (by cases h), ?_⟩
      rintro ⟨rfl, h⟩
      cases hdigest.symm.trans h
    | some digest' =>
      simp only [Outcome.resolved.injEq]
      refine and_congr_right ?_
      rintro rfl
      rw [hdigest, Option.some.injEq]

namespace Disk

/-- The digest of the file at a path, if it can be read. -/
def digest? (disk : Disk) (p : Path) : Option Digest := (disk.read p).toOption.map Digest.ofContent

/-- What is read of the file at a path, if it can be read. -/
def scan? (disk : Disk) (imports : Bool) (p : Path) : Option FileScan :=
  (disk.read p).toOption.map (FileScan.ofContent imports)

/-- Where a directive in the file `includer` leads: to the first of its candidates that is a
file. -/
def locate (disk : Disk) (roots : List Path) (includer : Path) (d : Directive) : Location :=
  match d.form with
  | .expression => .notStatic
  | _ => (SearchPath.firstFile? disk (SearchPath.candidates roots d includer)).elim .notFound .found

/-- A directive in the file `includer` with what becomes of it. -/
def includeOf (disk : Disk) (roots : List Path) (includer : Path) (d : Directive) : Include :=
  ⟨d, (disk.locate roots includer d).outcome disk.digest?⟩

/-- What a build is to record of a file, if the file can be read. -/
def fileState (disk : Disk) (roots : List Path) (imports : Bool) (p : Path) : Option FileState :=
  (disk.scan? imports p).map fun scan =>
    ⟨p, scan.digest, scan.directives, scan.directives.all.map (disk.includeOf roots p)⟩

variable {disk : Disk} {roots : List Path} {imports : Bool}

theorem scan?_eq_some {p : Path} {scan : FileScan} :
    disk.scan? imports p = some scan ↔
      ∃ content, disk.read p = .ok content ∧ scan = .ofContent imports content := by
  unfold scan?
  cases disk.read p with
  | error e => simp [Except.toOption]
  | ok content => simp [Except.toOption, eq_comm]

theorem fileState_eq_some {p : Path} {f : FileState} :
    disk.fileState roots imports p = some f ↔
      ∃ content, disk.read p = .ok content ∧
        f = ⟨p, .ofContent content, .read imports content,
          (Directives.read imports content).all.map (disk.includeOf roots p)⟩ := by
  unfold fileState
  constructor
  · intro h
    obtain ⟨scan, hscan, rfl⟩ := Option.map_eq_some_iff.1 h
    obtain ⟨content, hread, rfl⟩ := scan?_eq_some.1 hscan
    exact ⟨content, hread, rfl⟩
  · rintro ⟨content, hread, rfl⟩
    rw [scan?_eq_some.2 ⟨content, hread, rfl⟩]
    rfl

theorem candidates_normal {d : Directive} {includer c : Path}
    (h : c ∈ SearchPath.candidates roots d includer) : c.IsNormal := by
  obtain ⟨dir, -, rfl⟩ := List.mem_map.1 h
  exact Path.isNormal_normalize _

/-- A directive leads to the first candidate that is a file. -/
theorem locate_eq_found {includer q : Path} {d : Directive} :
    disk.locate roots includer d = .found q ↔
      SearchPath.firstFile? disk (SearchPath.candidates roots d includer) = some q := by
  unfold locate
  split
  · next hform =>
    simp [SearchPath.candidates, SearchPath.directories, SearchPath.firstFile?, hform]
  · cases SearchPath.firstFile? disk (SearchPath.candidates roots d includer) <;> simp

/-- What a directive leads to is a file under its normal name. -/
theorem locate_found {includer q : Path} {d : Directive}
    (h : disk.locate roots includer d = .found q) : q.IsNormal ∧ disk.isFile q = true := by
  have hfirst := locate_eq_found.1 h
  exact ⟨candidates_normal (List.mem_of_find?_eq_some hfirst), List.find?_some hfirst⟩

theorem digest?_of_ok {p : Path} {content : Bytes} (h : disk.read p = .ok content) :
    disk.digest? p = some (.ofContent content) := by
  rw [digest?, h]
  rfl

theorem digest?_of_error {p : Path} {e : FileError} (h : disk.read p = .error e) :
    disk.digest? p = none := by
  rw [digest?, h]
  rfl

theorem locate_notStatic {includer : Path} {d : Directive} :
    disk.locate roots includer d = .notStatic ↔ d.form = .expression := by
  unfold locate
  split
  · next hform => simp [hform]
  · next hform =>
    refine ⟨fun h => ?_, fun h => absurd h hform⟩
    cases hfirst : SearchPath.firstFile? disk (SearchPath.candidates roots d includer) with
    | none => rw [hfirst] at h; cases h
    | some q => rw [hfirst] at h; cases h

theorem locate_notFound {includer : Path} {d : Directive} :
    disk.locate roots includer d = .notFound ↔ d.form ≠ .expression ∧
      ∀ c ∈ SearchPath.candidates roots d includer, disk.isFile c = false := by
  have hnone : SearchPath.firstFile? disk (SearchPath.candidates roots d includer) = none ↔
      ∀ c ∈ SearchPath.candidates roots d includer, disk.isFile c = false := by
    simp [SearchPath.firstFile?, List.find?_eq_none]
  unfold locate
  rw [← hnone]
  split
  · next hform => simp [hform]
  · next hform =>
    cases SearchPath.firstFile? disk (SearchPath.candidates roots d includer) with
    | none => exact ⟨fun _ => ⟨hform, rfl⟩, fun _ => rfl⟩
    | some q => exact ⟨fun h => (by cases h), fun h => (by cases h.2)⟩

/-- What becomes of a directive cannot be known when its argument is no header name, and when it
leads to a file that cannot be read. -/
theorem includeOf_unknown {includer : Path} {d : Directive} :
    (disk.includeOf roots includer d).outcome = .unknown ↔ d.form = .expression ∨
      ∃ q e, disk.locate roots includer d = .found q ∧ disk.read q = .error e := by
  have hstatic : disk.locate roots includer d = .notStatic ↔ d.form = .expression :=
    locate_notStatic
  rw [← hstatic, includeOf]
  cases disk.locate roots includer d with
  | notFound => simp [Location.outcome]
  | notStatic => simp [Location.outcome]
  | found p =>
    cases hread : disk.read p with
    | error e =>
      have houtcome : (Location.found p).outcome disk.digest? = .unknown := by
        simp only [Location.outcome, digest?_of_error hread]
      exact ⟨fun _ => .inr ⟨p, e, rfl, hread⟩, fun _ => houtcome⟩
    | ok content => simp [Location.outcome, digest?_of_ok hread, hread]

/-- A directive is unresolved when it names a header and no candidate is a file. -/
theorem includeOf_unresolved {includer : Path} {d : Directive} :
    (disk.includeOf roots includer d).outcome = .unresolved ↔ d.form ≠ .expression ∧
      ∀ c ∈ SearchPath.candidates roots d includer, disk.isFile c = false := by
  rw [← locate_notFound, includeOf]
  cases disk.locate roots includer d with
  | notFound => simp [Location.outcome]
  | notStatic => simp [Location.outcome]
  | found p =>
    simp only [Location.outcome]
    cases disk.digest? p <;> simp

/-- The header of a directive that is resolved is where the directive leads, and can be read. -/
theorem includeOf_path? {includer q : Path} {d : Directive} :
    (disk.includeOf roots includer d).path? = some q ↔
      disk.locate roots includer d = .found q ∧ ∃ content, disk.read q = .ok content := by
  constructor
  · intro h
    unfold Include.path? at h
    split at h
    · next p digest houtcome =>
      obtain rfl := Option.some.inj h
      obtain ⟨hlocate, hdigest⟩ := Location.outcome_eq_resolved.1 houtcome
      refine ⟨hlocate, ?_⟩
      cases hread : disk.read p with
      | error e => cases hdigest.symm.trans (digest?_of_error hread)
      | ok content => exact ⟨content, rfl⟩
    · cases h
  · rintro ⟨hlocate, content, hread⟩
    have houtcome : (disk.includeOf roots includer d).outcome = .resolved q (.ofContent content) :=
      Location.outcome_eq_resolved.2 ⟨hlocate, digest?_of_ok hread⟩
    rw [Include.path?, houtcome]

/-! ## Names and spellings -/

/-- Names that are read alike whenever they differ in spelling only. The normal names are among
them: none of them has a second normal spelling. -/
structure Unambiguous (disk : Disk) (names : Path → Prop) : Prop where
  normal : ∀ p, p.IsNormal → names p
  same : ∀ p q, names p → names q → p.steps = q.steps →
    (disk.read p).toOption = (disk.read q).toOption

theorem unambiguous_isNormal (disk : Disk) : disk.Unambiguous Path.IsNormal where
  normal _ h := h
  same p q hp hq h := by rw [hp.eq_of_steps hq h]

theorem Unambiguous.scan?_eq {names : Path → Prop} (h : disk.Unambiguous names) {p q : Path}
    (hp : names p) (hq : names q) (hsteps : p.steps = q.steps) :
    disk.scan? imports p = disk.scan? imports q := by
  rw [scan?, scan?, h.same p q hp hq hsteps]

/-! ## Disks of a few files -/

/-- The disk that has these files, each with the bytes of its text. -/
def ofFiles (files : List (String × String)) : Disk where
  isFile p := (files.lookup p.text).isSome
  read p := ((files.lookup p.text).map fun text => .ok (Utf8.ofString text)).getD (.error .notFound)

theorem isFile_ofFiles {files : List (String × String)} {p : Path}
    (h : (ofFiles files).isFile p = true) : p ∈ files.map fun f => .ofText f.1 := by
  obtain ⟨text, hlookup⟩ := Option.isSome_iff_exists.1 h
  obtain ⟨before, after, hfiles, -⟩ := List.lookup_eq_some_iff.1 hlookup
  refine List.mem_map.2 ⟨(p.text, text), ?_, Path.ext (Path.text_ofText p.text)⟩
  rw [hfiles]
  exact List.mem_append_right _ List.mem_cons_self

theorem isFile_of_read_ofFiles {files : List (String × String)} {p : Path} {content : Bytes}
    (h : (ofFiles files).read p = .ok content) : (ofFiles files).isFile p = true := by
  unfold ofFiles at h ⊢
  dsimp only at h ⊢
  cases hlookup : files.lookup p.text with
  | some text => rfl
  | none =>
    rw [hlookup] at h
    cases h

end Disk

/-! ## Memory of tests -/

namespace SearchPath

/-- Every test that is remembered comes out the same on the disk. -/
def Recalls (disk : Disk) (s : SearchPath) : Prop :=
  ∀ p is, p.IsNormal → s.known.find? p = some is → is = disk.isFile p

theorem recalls_ofRoots (disk : Disk) (roots : List Path) : (ofRoots roots).Recalls disk := by
  intro p is _ h
  cases h

variable {disk : Disk} {s : SearchPath}

theorem Recalls.test (h : s.Recalls disk) {p : Path} (hp : p.IsNormal) :
    (s.test disk p).1 = disk.isFile p ∧ (s.test disk p).2.Recalls disk ∧
      (s.test disk p).2.roots = s.roots := by
  unfold SearchPath.test
  split
  · next is hknown => exact ⟨h p is hp hknown, h, rfl⟩
  · refine ⟨rfl, ?_, rfl⟩
    intro q is hq hfind
    rw [Table.find?_insert] at hfind
    split at hfind
    · next heq =>
      obtain rfl := hq.eq_of_compare hp heq
      exact (Option.some.inj hfind).symm
    · exact h q is hq hfind

theorem Recalls.firstOf (h : s.Recalls disk) {cs : List Path} (hcs : ∀ c ∈ cs, c.IsNormal) :
    (s.firstOf disk cs).1 = firstFile? disk cs ∧ (s.firstOf disk cs).2.Recalls disk ∧
      (s.firstOf disk cs).2.roots = s.roots := by
  induction cs generalizing s with
  | nil => exact ⟨rfl, h, rfl⟩
  | cons c cs ih =>
    obtain ⟨htest, hrecalls, hroots⟩ := h.test (hcs c List.mem_cons_self)
    rw [SearchPath.firstOf, firstFile?, List.find?_cons]
    rcases ht : s.test disk c with ⟨is, s'⟩
    rw [ht] at htest hrecalls hroots
    subst htest
    cases hfile : disk.isFile c with
    | true => exact ⟨rfl, hrecalls, hroots⟩
    | false =>
      obtain ⟨hfirst, hrecalls', hroots'⟩ :=
        ih hrecalls fun c hc => hcs c (List.mem_cons_of_mem _ hc)
      exact ⟨hfirst, hrecalls', hroots'.trans hroots⟩

/-- What is remembered does not change where a directive leads. -/
theorem Recalls.locate (h : s.Recalls disk) (d : Directive) (includer : Path) :
    (s.locate disk d includer).1 = disk.locate s.roots includer d ∧
      (s.locate disk d includer).2.Recalls disk ∧ (s.locate disk d includer).2.roots = s.roots := by
  have hnormal : ∀ c ∈ candidates s.roots d includer, c.IsNormal :=
    fun c hc => Disk.candidates_normal hc
  obtain ⟨hfirst, hrecalls, hroots⟩ := h.firstOf hnormal
  unfold SearchPath.locate Disk.locate
  rw [← hfirst]
  rcases hf : s.firstOf disk (candidates s.roots d includer) with ⟨found, s'⟩
  rw [hf] at hrecalls hroots
  cases hform : d.form with
  | expression => exact ⟨rfl, h, rfl⟩
  | quoted => cases found <;> exact ⟨rfl, hrecalls, hroots⟩
  | system => cases found <;> exact ⟨rfl, hrecalls, hroots⟩

/-- Resolving a directive finds its header and reads that for the digest. -/
theorem value_resolve (disk : Disk) (s : SearchPath) (d : Directive) (includer : Path) :
    (s.resolve disk d includer).value =
      (⟨d, (s.locate disk d includer).1.outcome disk.digest?⟩, (s.locate disk d includer).2) := by
  unfold resolve Location.outcome Disk.digest?
  rcases s.locate disk d includer with ⟨_ | _ | _, s'⟩
  · next p =>
    dsimp only
    cases disk.read p <;> rfl
  · rfl
  · rfl

end SearchPath

/-- A search path that remembers nothing resolves a directive to what becomes of it on the disk. -/
theorem Disk.resolve_ofRoots (disk : Disk) (roots : List Path) (includer : Path) (d : Directive) :
    ((SearchPath.ofRoots roots).resolve disk d includer).value.1 =
      disk.includeOf roots includer d := by
  rw [SearchPath.value_resolve, ((SearchPath.recalls_ofRoots disk roots).locate d includer).1]
  rfl

/-! ## Memory of readings -/

namespace Survey

/-- What the survey remembers under these names is so on the disk, and it is made for these roots and
this meaning of `#import`. -/
structure Agrees (disk : Disk) (names : Path → Prop) (roots : List Path) (imports : Bool)
    (s : Survey) : Prop where
  imports_eq : s.imports = imports
  roots_eq : s.search.roots = roots
  recalls : s.search.Recalls disk
  scans : ∀ p scan, names p → s.scans.find? p = some scan → scan = disk.scan? imports p

/-- Whatever was read stays. -/
def Keeps (s t : Survey) : Prop := ∀ p, s.scans.contains p = true → t.scans.contains p = true

theorem agrees_new (disk : Disk) (names : Path → Prop) (roots : List Path) (imports : Bool) :
    (new imports (.ofRoots roots)).Agrees disk names roots imports where
  imports_eq := rfl
  roots_eq := rfl
  recalls := SearchPath.recalls_ofRoots disk roots
  scans := by
    intro p scan _ h
    cases h

variable {disk : Disk} {names : Path → Prop} {roots : List Path} {imports : Bool} {s : Survey}

theorem Agrees.scan?_eq (h : s.Agrees disk names roots imports) {p : Path} (hp : names p)
    (hread : s.scans.contains p = true) : s.scan? p = disk.scan? imports p := by
  obtain ⟨scan, hscan⟩ := s.scans.contains_iff_find?.1 hread
  rw [scan?, hscan, h.scans p scan hp hscan]
  rfl

/-- A reading that is so on the disk can be remembered. -/
theorem Agrees.insert (h : s.Agrees disk names roots imports) (hone : disk.Unambiguous names)
    {p : Path} (hp : names p) {scan : Option FileScan} (hscan : scan = disk.scan? imports p) :
    { s with scans := s.scans.insert p scan }.Agrees disk names roots imports where
  imports_eq := h.imports_eq
  roots_eq := h.roots_eq
  recalls := h.recalls
  scans := by
    intro q scan' hq hfind
    rw [Table.find?_insert] at hfind
    split at hfind
    · next heq =>
      rw [← Option.some.inj hfind, hscan, hone.scan?_eq hp hq (Path.compare_eq_iff.1 heq).symm]
    · exact h.scans q scan' hq hfind

theorem keeps_insert (s : Survey) (p : Path) (scan : Option FileScan) :
    s.Keeps { s with scans := s.scans.insert p scan } := by
  intro q hq
  rw [Table.contains_insert, hq, Bool.or_true]

theorem Agrees.readHeader (h : s.Agrees disk names roots imports) (hone : disk.Unambiguous names)
    {p : Path} (hp : p.IsNormal) :
    (s.readHeader disk p).value.Agrees disk names roots imports ∧
      s.Keeps (s.readHeader disk p).value ∧
      (s.readHeader disk p).value.scans.contains p = true := by
  have hinsert (scan : Option FileScan) (hscan : scan = disk.scan? imports p) :
      Agrees disk names roots imports { s with scans := s.scans.insert p scan } ∧
        s.Keeps { s with scans := s.scans.insert p scan } ∧
        (s.scans.insert p scan).contains p = true :=
    ⟨h.insert hone (hone.normal p hp) hscan, keeps_insert s p scan,
      s.scans.contains_insert_self p scan⟩
  unfold Survey.readHeader
  split
  · next hread => exact ⟨h, fun q hq => hq, hread⟩
  · split
    · next content hread =>
      have hscan : some (FileScan.ofContent s.imports content) = disk.scan? imports p := by
        rw [Disk.scan?_eq_some.2 ⟨content, hread, rfl⟩, h.imports_eq]
      exact hinsert _ hscan
    · next e hread =>
      have hscan : none = disk.scan? imports p := by
        rw [Disk.scan?, hread]
        rfl
      exact hinsert none hscan

/-- A directive is resolved as on the disk, and its header has been read afterwards. -/
theorem Agrees.resolve (h : s.Agrees disk names roots imports) (hone : disk.Unambiguous names)
    (includer : Path) (d : Directive) :
    (s.resolve disk includer d).value.1 = disk.includeOf roots includer d ∧
      (s.resolve disk includer d).value.2.Agrees disk names roots imports ∧
      s.Keeps (s.resolve disk includer d).value.2 ∧
      ∀ q, (disk.includeOf roots includer d).path? = some q →
        (s.resolve disk includer d).value.2.scans.contains q = true := by
  obtain ⟨hlocate, hrecalls, hroots⟩ := h.recalls.locate d includer
  rw [h.roots_eq] at hlocate hroots
  unfold Survey.resolve Disk.includeOf
  rcases hl : s.search.locate disk d includer with ⟨location, search⟩
  rw [hl] at hlocate hrecalls hroots
  have hagree : ({ s with search } : Survey).Agrees disk names roots imports :=
    ⟨h.imports_eq, hroots, hrecalls, h.scans⟩
  simp only at hlocate
  subst hlocate
  cases hloc : disk.locate roots includer d with
  | notFound => exact ⟨rfl, hagree, fun q hq => hq, fun q hq => by cases hq⟩
  | notStatic => exact ⟨rfl, hagree, fun q hq => hq, fun q hq => by cases hq⟩
  | found p =>
    have hp : p.IsNormal := (Disk.locate_found hloc).1
    obtain ⟨hread, hkeeps, hcontains⟩ := hagree.readHeader hone hp
    simp only [Logged.value_bind, Logged.value_pure]
    have hdigest :
        (Survey.readHeader disk { s with search } p).value.digest? p = disk.digest? p := by
      rw [Survey.digest?, hread.scan?_eq (hone.normal p hp) hcontains, Disk.scan?, Disk.digest?,
        Option.map_map]
      rfl
    refine ⟨?_, hread, hkeeps, ?_⟩
    · simp only [Location.outcome, hdigest]
    · intro q hq
      rw [← hloc] at hq
      cases hloc.symm.trans (Disk.includeOf_path?.1 hq).1
      exact hcontains

/-- The directives of a file are resolved as on the disk, whatever was asked before. -/
theorem Agrees.resolveAll (h : s.Agrees disk names roots imports) (hone : disk.Unambiguous names)
    (includer : Path) (ds : List Directive) :
    (s.resolveAll disk includer ds).value.1 = ds.map (disk.includeOf roots includer) ∧
      (s.resolveAll disk includer ds).value.2.Agrees disk names roots imports ∧
      s.Keeps (s.resolveAll disk includer ds).value.2 ∧
      ∀ d ∈ ds, ∀ q, (disk.includeOf roots includer d).path? = some q →
        (s.resolveAll disk includer ds).value.2.scans.contains q = true := by
  induction ds generalizing s with
  | nil => exact ⟨rfl, h, fun q hq => hq, fun d hd => absurd hd List.not_mem_nil⟩
  | cons d ds ih =>
    obtain ⟨hinclude, hagree, hkeeps, hheader⟩ := h.resolve hone includer d
    obtain ⟨hincludes, hagree', hkeeps', hheaders⟩ := ih hagree
    simp only [Survey.resolveAll, Logged.value_bind, Logged.value_pure]
    refine ⟨?_, hagree', fun q hq => hkeeps' q (hkeeps q hq), ?_⟩
    · rw [hinclude, hincludes, List.map_cons]
    · intro d' hd' q hq
      rcases List.mem_cons.1 hd' with rfl | hd'
      · exact hkeeps' q (hheader q hq)
      · exact hheaders d' hd' q hq

end Survey

end Recompile
