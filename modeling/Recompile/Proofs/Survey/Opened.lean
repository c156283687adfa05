import Recompile.Proofs.FileTree.Normal
import Recompile.Proofs.Survey.Fresh

/-!
# The header that a compiler opens

A compiler joins the value of a directive to a search directory and opens what the system finds by
the joined path as it is written. Candidates are tested under their normal names instead, so a
directory offers a header when the joined path names a file, or when it misleads: the system cannot
follow it, but its normal form names a file (`FileTree.Misleads`). What is found is what the first
directory that offers a header offers (`locate_first`); and if that is by a path that misleads, a
compiler opens another file or none (`locate_misled`).
-/

namespace Recompile

namespace FileTree

/-- The path has a piece before a slash that stands for no directory, or the system does not take
it, but its normal form names a file. -/
def Misleads (t : FileTree) (p : Path) : Prop := ¬t.Passable p ∧ t.isFile p.normalize = true

/-- A header is found by the path: the one that it names, or the one that it misleads to. -/
def Offers (t : FileTree) (p : Path) : Prop := t.isFile p = true ∨ t.Misleads p

variable {t : FileTree} {p : Path}

theorem isFile_normalize_iff : t.isFile p.normalize = true ↔ t.Offers p := by
  have hfile : t.isFile p = true ↔ t.Passable p ∧ t.isFile p.normalize = true := isFile_iff
  rw [Offers, Misleads, hfile, ← or_and_right]
  exact (and_iff_right (Classical.em _)).symm

theorem isFile_normalize_eq_false_iff : t.isFile p.normalize = false ↔ ¬t.Offers p := by
  rw [← isFile_normalize_iff, Bool.not_eq_true]

end FileTree

/-- A directive leads to the candidate in the first directory whose candidate is a file. -/
theorem Disk.locate_eq_found_iff {disk : Disk} {roots : List Path} {includer q : Path}
    {d : Directive} : disk.locate roots includer d = .found q ↔ ∃ before dir after,
      SearchPath.directories roots d includer = before ++ dir :: after ∧
        disk.isFile (dir.joinText d.value).normalize = true ∧
          (∀ dir' ∈ before, disk.isFile (dir'.joinText d.value).normalize = false) ∧
            q = (dir.joinText d.value).normalize := by
  rw [locate_eq_found, SearchPath.firstFile?, SearchPath.candidates, List.find?_map,
    Option.map_eq_some_iff]
  constructor
  · rintro ⟨dir, hfind, rfl⟩
    obtain ⟨hfile, before, after, hdirs, hbefore⟩ := List.find?_eq_some_iff_append.1 hfind
    exact ⟨before, dir, after, hdirs, hfile, fun dir' h => by simpa using hbefore dir' h, rfl⟩
  · rintro ⟨before, dir, after, hdirs, hfile, hbefore, rfl⟩
    exact ⟨dir, List.find?_eq_some_iff_append.2
      ⟨hfile, before, after, hdirs, fun dir' h => by simpa using hbefore dir' h⟩, rfl⟩

/-- **The first directory decides.** A directive leads to a header when some search directory,
joined with its value, offers one, and then to the one that the first such directory offers, under
its normal name. That is the very file that the joined path names, if it names one. -/
theorem locate_first (t : FileTree) (roots : List Path) (d : Directive) (includer : Path) :
    let location := ((SearchPath.ofRoots roots).locate t.disk d includer).1
    let directories := SearchPath.directories roots d includer
    (∀ q, location = .found q ↔ ∃ before dir after, directories = before ++ dir :: after ∧
      t.Offers (dir.joinText d.value) ∧ (∀ dir' ∈ before, ¬t.Offers (dir'.joinText d.value)) ∧
        q = (dir.joinText d.value).normalize) ∧
    (location = .notFound ↔ d.form ≠ .expression ∧
      ∀ dir ∈ directories, ¬t.Offers (dir.joinText d.value)) ∧
    ∀ dir ∈ directories, t.isFile (dir.joinText d.value) = true →
      t.locate (dir.joinText d.value).normalize = t.locate (dir.joinText d.value) := by
  intro location directories
  have hlocation : location = t.disk.locate roots includer d :=
    ((SearchPath.recalls_ofRoots t.disk roots).locate d includer).1
  rw [hlocation]
  refine ⟨fun q => ?_, ?_, fun dir _ hfile => ?_⟩
  · simp only [Disk.locate_eq_found_iff, FileTree.disk, FileTree.isFile_normalize_iff,
      FileTree.isFile_normalize_eq_false_iff]
    rfl
  · simp only [Disk.locate_notFound, SearchPath.candidates, List.forall_mem_map, FileTree.disk,
      FileTree.isFile_normalize_eq_false_iff]
    rfl
  · exact FileTree.locate_normalize (FileTree.isFile_iff.1 hfile).1

/-- A source, and two directories with a header `x.h` each. Only the second one has a directory
`sub`. -/
def twoHeaders : FileTree :=
  let t := (FileTree.within []).putFile [] "a.c" []
  let t := (t.putDirectory [] "r").putFile ["r"] "x.h" (Utf8.ofString "1")
  let t := (t.putDirectory [] "s").putFile ["s"] "x.h" (Utf8.ofString "2")
  t.putDirectory ["s"] "sub"

theorem locate_first_inSecond :
    let d : Directive := ⟨"sub/../x.h", .system, .includes⟩
    let path : Path := (Path.ofText "s").joinText d.value
    ((SearchPath.ofRoots [.ofText "s"]).locate twoHeaders.disk d (.ofText "a.c")).1 =
        .found path.normalize ∧
      twoHeaders.locate path.normalize = twoHeaders.locate path := by
  intro d path
  obtain ⟨hfound, -, hsame⟩ := locate_first twoHeaders [.ofText "s"] d (.ofText "a.c")
  have hfile : twoHeaders.isFile path = true := by decide +kernel
  refine ⟨(hfound _).2 ⟨[], .ofText "s", [], rfl, .inl hfile, ?_, rfl⟩,
    hsame _ List.mem_cons_self hfile⟩
  exact fun dir h => absurd h List.not_mem_nil

/-- A compiler finds `sub/../x.h` in the second directory alone, and what is found for it is the
header in the first. -/
theorem locate_misled :
    let d : Directive := ⟨"sub/../x.h", .system, .includes⟩
    let roots : List Path := [.ofText "r", .ofText "s"]
    twoHeaders.isFile (.ofText "a.c") = true ∧
      twoHeaders.isFile ((Path.ofText "r").joinText d.value) = false ∧
      twoHeaders.read ((Path.ofText "s").joinText d.value) = .ok (Utf8.ofString "2") ∧
      ((SearchPath.ofRoots roots).locate twoHeaders.disk d (.ofText "a.c")).1 =
        .found (.ofText "r/x.h") ∧
      twoHeaders.read (.ofText "r/x.h") = .ok (Utf8.ofString "1") := by
  exact ⟨by decide +kernel, by decide +kernel, by decide +kernel, rfl, by decide +kernel⟩

end Recompile
