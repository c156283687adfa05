import Recompile.Snapshot.Wire
import Recompile.Proofs.Table
import Recompile.Proofs.Wire

/-!
# Snapshots are read back

The reader of a snapshot takes exactly the bytes that were written for it, gives the same snapshot,
and claims `Wire.snapshotClaim` of its budget on the way (`Reader.takes_snapshot`). The claim is
counted from the snapshot: eight for each length, four for each case, and one for each byte of a
text or a digest.
-/

namespace Recompile.Wire

/-! ## What reading claims -/

def textClaim (s : String) : Nat := Reader.lengthWidth + (Utf8.ofString s).length

def digestClaim : Nat := 16

def caseClaim : Nat := Reader.shortWidth

def listClaim {α : Type} (claim : α → Nat) (xs : List α) : Nat :=
  Reader.lengthWidth + (xs.map claim).sum

def directiveClaim (d : Directive) : Nat := textClaim d.value + (caseClaim + caseClaim)

def directivesClaim (ds : Directives) : Nat := listClaim directiveClaim ds.all + 1

def outcomeClaim : Outcome → Nat
  | .resolved p _ => caseClaim + (textClaim p.text + digestClaim)
  | .unresolved | .unknown => caseClaim

def inclusionClaim (i : Include) : Nat := directiveClaim i.directive + outcomeClaim i.outcome

def fileStateClaim (f : FileState) : Nat :=
  textClaim f.path.text +
    (digestClaim + (directivesClaim f.directives + listClaim inclusionClaim f.includes))

def entryClaim (e : Path × FileState) : Nat := textClaim e.1.text + fileStateClaim e.2

/-- How much of its budget the reader of a snapshot claims. -/
def snapshotClaim (s : Snapshot) : Nat :=
  listClaim (fun p => textClaim p.text) s.sources.keys + listClaim entryClaim s.files.entries

/-! ## Each part of a snapshot -/

namespace Reader

theorem takes_path {p : Path} (h : (Wire.path p).length < 2 ^ 64) :
    path.Takes (Wire.path p) (textClaim p.text) p := by
  have hread := (takes_text h).map Path.ofText
  rwa [Path.ofText_text] at hread

theorem takes_digest (d : Digest) : digest.Takes (Wire.digest d) digestClaim d := by
  have hbytes := takes_bytes d.toBytes
  rw [Digest.length_toBytes] at hbytes
  refine hbytes.last ?_
  rw [dif_pos d.length_toBytes]
  rfl

/-- The number of a case, which there are never many of. -/
theorem takes_case (n : Nat) (h : n < 251) :
    (number shortWidth).Takes (Wire.number n) caseClaim n :=
  takes_number_byte h shortWidth

theorem takes_form (f : Form) : form.Takes (Wire.form f) caseClaim f := by
  cases f with
  | quoted => exact (takes_case 0 (by decide)).last rfl
  | system => exact (takes_case 1 (by decide)).last rfl
  | expression => exact (takes_case 2 (by decide)).last rfl

theorem takes_keyword (k : Keyword) : keyword.Takes (Wire.keyword k) caseClaim k := by
  cases k with
  | includes => exact (takes_case 0 (by decide)).last rfl
  | imports => exact (takes_case 1 (by decide)).last rfl

theorem takes_directive {d : Directive} (h : (Wire.directive d).length < 2 ^ 64) :
    directive.Takes (Wire.directive d) (directiveClaim d) d := by
  simp only [Wire.directive, List.length_append] at h
  have hvalue := takes_text (s := d.value) (by omega)
  rw [Wire.directive, List.append_assoc]
  exact hvalue.bind ((takes_form d.form).bind ((takes_keyword d.keyword).last rfl))

theorem length_directive_pos (d : Directive) : 0 < (Wire.directive d).length := by
  have hpos := length_number_pos (Utf8.ofString d.value).length
  simp only [Wire.directive, Wire.text, List.length_append]
  omega

theorem takes_directives {ds : Directives} (h : (Wire.directives ds).length < 2 ^ 64) :
    directives.Takes (Wire.directives ds) (directivesClaim ds) ds := by
  simp only [Wire.directives, List.length_append] at h
  have hall := takes_list directive ds.all (by omega)
    (fun d _ => length_directive_pos d) fun d _ => takes_directive
  exact hall.bind ((takes_bool ds.unreadable).last rfl)

theorem takes_outcome {o : Outcome} (h : (Wire.outcome o).length < 2 ^ 64) :
    outcome.Takes (Wire.outcome o) (outcomeClaim o) o := by
  cases o with
  | resolved p d =>
    simp only [Wire.outcome, List.length_append] at h
    have hpath := takes_path (p := p) (by omega)
    rw [Wire.outcome, List.append_assoc]
    exact (takes_case 0 (by decide)).bind (hpath.bind ((takes_digest d).last rfl))
  | unresolved => exact (takes_case 1 (by decide)).last rfl
  | unknown => exact (takes_case 2 (by decide)).last rfl

theorem takes_inclusion {i : Include} (h : (Wire.inclusion i).length < 2 ^ 64) :
    inclusion.Takes (Wire.inclusion i) (inclusionClaim i) i := by
  simp only [Wire.inclusion, List.length_append] at h
  have hdirective := takes_directive (d := i.directive) (by omega)
  have houtcome := takes_outcome (o := i.outcome) (by omega)
  exact hdirective.bind (houtcome.last rfl)

theorem length_inclusion_pos (i : Include) : 0 < (Wire.inclusion i).length := by
  have hpos := length_directive_pos i.directive
  simp only [Wire.inclusion, List.length_append]
  omega

theorem takes_fileState {f : FileState} (h : (Wire.fileState f).length < 2 ^ 64) :
    fileState.Takes (Wire.fileState f) (fileStateClaim f) f := by
  simp only [Wire.fileState, List.length_append] at h
  have hpath := takes_path (p := f.path) (by omega)
  have hdirectives : directives.Takes _ _ f.directives := takes_directives (by omega)
  have hincludes := takes_list inclusion f.includes (by omega)
    (fun i _ => length_inclusion_pos i) fun i _ => takes_inclusion
  rw [Wire.fileState, List.append_assoc, List.append_assoc]
  exact hpath.bind ((takes_digest f.digest).bind (hdirectives.bind (hincludes.last rfl)))

theorem takes_entry {e : Path × FileState} (h : (Wire.entry e).length < 2 ^ 64) :
    entry.Takes (Wire.entry e) (entryClaim e) e := by
  simp only [Wire.entry, List.length_append] at h
  have hpath := takes_path (p := e.1) (by omega)
  have hfile := takes_fileState (f := e.2) (by omega)
  exact hpath.bind (hfile.last rfl)

theorem length_path_pos (p : Path) : 0 < (Wire.path p).length := by
  have hpos := length_number_pos (Utf8.ofString p.text).length
  simp only [Wire.path, Wire.text, List.length_append]
  omega

theorem length_entry_pos (e : Path × FileState) : 0 < (Wire.entry e).length := by
  have hpos := length_path_pos e.1
  simp only [Wire.entry, List.length_append]
  omega

/-! ## Snapshots -/

/-- A snapshot is read back: its tables are made again from their entries, in order. -/
theorem takes_snapshot {s : Snapshot} (h : (Wire.snapshot s).length < 2 ^ 64) :
    snapshot.Takes (Wire.snapshot s) (snapshotClaim s) s := by
  simp only [Wire.snapshot, List.length_append] at h
  have hsources := takes_list path s.sources.keys (by omega)
    (fun p _ => length_path_pos p) fun p _ => takes_path
  have hfiles := takes_list entry s.files.entries (by omega)
    (fun e _ => length_entry_pos e) fun e _ => takes_entry
  refine hsources.bind (hfiles.last ?_)
  rw [Table.setOf_keys, Table.ofList_entries]

end Reader

end Recompile.Wire
