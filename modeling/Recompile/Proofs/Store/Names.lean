import Mathlib.Data.List.Basic
import Mathlib.Data.List.TakeWhile
import Recompile.Store.Directory
import Recompile.Proofs.FileTree.Entry
import Recompile.Proofs.Text.Decode

/-!
# Names of snapshot files

Tasks with different digests have different file names, and the name of a temporary file is that of
no snapshot. Both are names that a directory can hold.

A collection reads the names of a directory as bytes. Those that it takes are texts with the
extension of snapshots behind a stem that is no live key (`DirectoryStore.stale?_eq_some_iff`).
-/

namespace Recompile

/-! ## Hexadecimal text -/

namespace Bytes

theorem hexDigit_inj : ∀ m < 16, ∀ n < 16, hexDigit m = hexDigit n → m = n := by decide

theorem hexDigit_plain :
    ∀ n < 16, hexDigit n ≠ '/' ∧ hexDigit n ≠ '.' ∧ (hexDigit n).utf8Size = 1 := by
  decide

theorem hexDigits_injective : Function.Injective hexDigits := by
  intro as bs h
  induction as generalizing bs with
  | nil =>
    cases bs with
    | nil => rfl
    | cons b bs => cases h
  | cons a as ih =>
    cases bs with
    | nil => cases h
    | cons b bs =>
      have ha := a.toNat_lt
      have hb := b.toNat_lt
      simp only [hexDigits, List.cons.injEq] at h
      obtain ⟨hhigh, hlow, hrest⟩ := h
      have hhigh := hexDigit_inj _ (by omega) _ (by omega) hhigh
      have hlow := hexDigit_inj _ (by omega) _ (by omega) hlow
      have hbyte : a = b := UInt8.toNat_inj.1 (by omega)
      rw [hbyte, ih hrest]

theorem mem_hexDigits {c : Char} {bs : Bytes} (h : c ∈ hexDigits bs) :
    ∃ n < 16, c = hexDigit n := by
  induction bs with
  | nil => cases h
  | cons b bs ih =>
    have hb := b.toNat_lt
    simp only [hexDigits, List.mem_cons] at h
    rcases h with rfl | rfl | h
    · exact ⟨_, by omega, rfl⟩
    · exact ⟨_, by omega, rfl⟩
    · exact ih h

theorem utf8ByteSize_hex (bs : Bytes) : (hex bs).utf8ByteSize = 2 * bs.length := by
  unfold hex
  induction bs with
  | nil => rfl
  | cons b bs ih =>
    have hb := b.toNat_lt
    have hhigh := (hexDigit_plain (b.toNat / 16) (by omega)).2.2
    have hlow := (hexDigit_plain (b.toNat % 16) (by omega)).2.2
    simp only [hexDigits, String.ofList_cons, String.utf8ByteSize_append,
      String.utf8ByteSize_singleton, ih, hhigh, hlow, List.length_cons]
    omega

end Bytes

theorem Digest.hex_injective : Function.Injective Digest.hex := by
  intro a b h
  have hdigits := Bytes.hexDigits_injective (String.ofList_inj.1 h)
  have hbytes : a.bytes = b.bytes := Vector.toList_inj.1 (List.reverse_injective hdigits)
  cases a
  cases b
  cases hbytes
  rfl

/-! ## Stems and extensions -/

theorem Path.splitExtension_append {stem ext : Bytes} (hstem : stem ≠ []) (hext : dot ∉ ext) :
    splitExtension (stem ++ dot :: ext) = (stem, some ext) := by
  obtain ⟨b, bs, hbs⟩ := List.exists_cons_of_ne_nil (mt List.reverse_eq_nil_iff.1 hstem)
  have hstem : stem = (b :: bs).reverse := by rw [← hbs, List.reverse_reverse]
  have hreversed : (stem ++ dot :: ext).reverse = ext.reverse ++ dot :: b :: bs := by
    simp [hbs]
  have hdots : ∀ a ∈ ext.reverse, (a != dot) = true := by
    intro a ha
    rw [bne_iff_ne]
    rintro rfl
    exact hext (List.mem_reverse.1 ha)
  unfold splitExtension
  simp only [hreversed, List.dropWhile_append_of_pos hdots, List.takeWhile_append_of_pos hdots,
    List.dropWhile_cons_of_neg, List.takeWhile_cons_of_neg, bne_self_eq_false, Bool.false_eq_true,
    not_false_eq_true, List.append_nil, List.reverse_reverse]
  rw [← hstem]

/-- A name has the extension behind its last dot, if something stands before that dot. -/
theorem Path.splitExtension_eq_some_iff {name stem ext : Bytes} :
    splitExtension name = (stem, some ext) ↔ stem ≠ [] ∧ dot ∉ ext ∧ name = stem ++ dot :: ext := by
  refine ⟨fun h => ?_, fun ⟨hstem, hext, hname⟩ => hname ▸ splitExtension_append hstem hext⟩
  have hsplit := List.takeWhile_append_dropWhile (p := (· != dot)) (l := name.reverse)
  have hdots : ∀ b ∈ name.reverse.takeWhile (· != dot), b ≠ dot := fun b hb =>
    bne_iff_ne.1 (List.mem_takeWhile_imp (p := (· != dot)) hb)
  have hhead := List.head?_dropWhile_not (· != dot) name.reverse
  unfold splitExtension at h
  dsimp only at h
  generalize name.reverse.takeWhile (· != dot) = after at h hsplit hdots
  generalize name.reverse.dropWhile (· != dot) = before at h hsplit hhead
  split at h
  · next first b bs =>
    obtain rfl : first = dot := by simpa using hhead
    obtain ⟨rfl, hsome⟩ := Prod.mk.inj h
    obtain rfl := Option.some.inj hsome
    refine ⟨by simp, fun hmem => hdots dot (List.mem_reverse.1 hmem) rfl, ?_⟩
    rw [← List.reverse_inj, ← hsplit]
    simp
  · cases (Prod.mk.inj h).2

namespace DirectoryStore

/-- The name of the file with the snapshot of a task. -/
def snapshotName (task : String) : String := key task ++ "." ++ extension

/-- The name of the file that a new snapshot of a task is written to. -/
def stagingName (task : String) : String := key task ++ "." ++ extension ++ ".tmp"

theorem snapshotPath_eq (s : DirectoryStore) (task : String) :
    s.snapshotPath task = s.dir.joinText (snapshotName task) := rfl

theorem stagingPath_eq (s : DirectoryStore) (task : String) :
    s.stagingPath task = s.dir.joinText (stagingName task) := rfl

variable (task task' : String)

theorem utf8ByteSize_key : (key task).utf8ByteSize = 32 := by
  rw [key, Digest.hex, Bytes.utf8ByteSize_hex, List.length_reverse, Digest.length_toBytes]

theorem key_ne_empty : key task ≠ "" := by
  intro h
  have hsize := utf8ByteSize_key task
  rw [h] at hsize
  cases hsize

theorem snapshotName_ne_stagingName : snapshotName task ≠ stagingName task' := by
  intro h
  have hsize := congrArg String.utf8ByteSize h
  simp only [snapshotName, stagingName, String.utf8ByteSize_append, utf8ByteSize_key] at hsize
  revert hsize
  decide

theorem snapshotName_inj : snapshotName task = snapshotName task' ↔ key task = key task' := by
  rw [snapshotName, snapshotName, String.append_left_inj, String.append_left_inj]

theorem stagingName_inj : stagingName task = stagingName task' ↔ key task = key task' := by
  rw [stagingName, stagingName, String.append_left_inj]
  exact snapshotName_inj task task'

theorem key_inj : key task = key task' ↔ Digest.ofText task = Digest.ofText task' :=
  Digest.hex_injective.eq_iff

/-! ## Names of entries -/

theorem slash_notMem_key : '/' ∉ (key task).toList := by
  intro h
  rw [key, Digest.hex, Bytes.hex, String.toList_ofList] at h
  obtain ⟨n, hn, hc⟩ := Bytes.mem_hexDigits h
  exact (Bytes.hexDigit_plain n hn).1 hc.symm

theorem isName_key_append {rest : String} (h : '/' ∉ rest.toList) :
    Step.IsName (key task ++ rest) := by
  have hsize := utf8ByteSize_key task
  have hne {name : String} (hname : name.utf8ByteSize < 32) : key task ++ rest ≠ name := by
    intro heq
    rw [← heq, String.utf8ByteSize_append, hsize] at hname
    omega
  refine ⟨hne (by decide), hne (by decide), hne (by decide), ?_⟩
  rw [String.toList_append, List.mem_append, not_or]
  exact ⟨slash_notMem_key task, h⟩

theorem isName_snapshotName : Step.IsName (snapshotName task) := by
  rw [snapshotName, String.append_assoc]
  exact isName_key_append task (by decide)

theorem isName_stagingName : Step.IsName (stagingName task) := by
  rw [stagingName, String.append_assoc, String.append_assoc]
  exact isName_key_append task (by decide)

theorem utf8ByteSize_snapshotName : (snapshotName task).utf8ByteSize ≤ nameLimit := by
  rw [snapshotName, String.utf8ByteSize_append, String.utf8ByteSize_append, utf8ByteSize_key]
  decide

theorem utf8ByteSize_stagingName : (stagingName task).utf8ByteSize ≤ nameLimit := by
  rw [stagingName, String.utf8ByteSize_append, String.utf8ByteSize_append,
    String.utf8ByteSize_append, utf8ByteSize_key]
  decide

/-! ## What is collected -/

/-- The name is that of a snapshot whose key is not among those given. -/
def IsStale (liveKeys : List String) (name : String) : Prop :=
  ∃ stem, stem ≠ "" ∧ name = stem ++ "." ++ extension ∧ stem ∉ liveKeys

section Stale

variable {liveKeys : List String} {name : String}

theorem stale?_eq_some_iff {bytes : Bytes} :
    stale? liveKeys bytes = some name ↔ bytes = Utf8.ofString name ∧ IsStale liveKeys name := by
  have hjoin (stem : String) : Utf8.ofString (stem ++ "." ++ extension) =
      Utf8.ofString stem ++ Path.dot :: Utf8.ofString extension := by
    simp only [Utf8.ofString, String.toList_append, Utf8.encode_append, List.append_assoc]
    rfl
  have hplain : Path.dot ∉ Utf8.ofString extension := by decide
  unfold stale?
  simp only [Option.bind_eq_bind, Option.bind_eq_some_iff, Utf8.text?_eq_some_iff,
    Option.ite_none_right_eq_some, Option.some.injEq]
  constructor
  · rintro ⟨_, ⟨_, hext, rfl⟩, stem, hstem, ⟨rfl, hlive⟩, rfl⟩
    have hsplit : Path.splitExtension bytes =
        (Utf8.ofString stem, some (Utf8.ofString extension)) := Prod.ext hstem hext
    obtain ⟨hne, -, rfl⟩ := Path.splitExtension_eq_some_iff.1 hsplit
    refine ⟨(hjoin stem).symm, stem, ?_, rfl, hlive⟩
    rintro rfl
    exact hne rfl
  · rintro ⟨rfl, stem, hstem, rfl, hlive⟩
    have hne : Utf8.ofString stem ≠ [] := fun h => hstem (Utf8.ofString_injective h)
    rw [hjoin, Path.splitExtension_append hne hplain]
    exact ⟨extension, ⟨_, rfl, rfl⟩, stem, rfl, ⟨rfl, hlive⟩, rfl⟩

/-- A name that is no text is that of no snapshot. -/
theorem stale?_of_not_valid {bytes : Bytes} (h : ¬ Utf8.Valid bytes) :
    stale? liveKeys bytes = none := by
  refine Option.eq_none_iff_forall_ne_some.2 fun text htext => h ?_
  rw [(stale?_eq_some_iff.1 htext).1]
  exact Utf8.valid_ofString text

theorem mem_filterMap_stale? {names : List Bytes} :
    name ∈ names.filterMap (stale? liveKeys) ↔
      Utf8.ofString name ∈ names ∧ IsStale liveKeys name := by
  rw [List.mem_filterMap]
  constructor
  · rintro ⟨bytes, hmem, hstale⟩
    obtain ⟨rfl, hname⟩ := stale?_eq_some_iff.1 hstale
    exact ⟨hmem, hname⟩
  · exact fun ⟨hmem, hstale⟩ => ⟨_, hmem, stale?_eq_some_iff.2 ⟨rfl, hstale⟩⟩

theorem nodup_filterMap_stale? {names : List Bytes} (h : names.Nodup) :
    (names.filterMap (stale? liveKeys)).Nodup :=
  h.filterMap fun _ _ _ ha hb =>
    (stale?_eq_some_iff.1 ha).1.trans (stale?_eq_some_iff.1 hb).1.symm

theorem isStale_snapshotName : IsStale liveKeys (snapshotName task) ↔ key task ∉ liveKeys := by
  constructor
  · rintro ⟨stem, -, hname, hlive⟩
    rw [snapshotName, String.append_left_inj, String.append_left_inj] at hname
    rwa [hname]
  · exact fun hlive => ⟨key task, key_ne_empty task, rfl, hlive⟩

/-- A temporary file is never collected. -/
theorem not_isStale_stagingName : ¬ IsStale liveKeys (stagingName task) := by
  rintro ⟨stem, -, hname, -⟩
  have hlast := congrArg (fun name => name.toList.getLast?) hname
  simp [stagingName, extension] at hlast

theorem isName_of_isStale (h : IsStale liveKeys name) (hslash : '/' ∉ name.toList) :
    Step.IsName name := by
  obtain ⟨stem, -, hname, -⟩ := h
  have hlast : name.toList.getLast? = some 'e' := by
    rw [hname]
    simp [extension]
  have hne {other : String} (hother : other.toList.getLast? ≠ some 'e') : name ≠ other := by
    rintro rfl
    exact hother hlast
  exact ⟨hne (by decide), hne (by decide), hne (by decide), hslash⟩

end Stale

end DirectoryStore

end Recompile
