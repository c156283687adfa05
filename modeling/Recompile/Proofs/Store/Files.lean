import Recompile.Proofs.Snapshot.File
import Recompile.Proofs.Store.Names

/-!
# What the operations of a store do to its files

Each operation is described once by the place of the directory that the path of the store leads to:
what has to stand there for it to work, and which entries are put and dropped. A store whose
directory is there already (`FileTree.DirectoryAt`) changes nothing else.
-/

namespace Recompile

/-- A snapshot that is far enough from the limits of the format to be written and read back. -/
structure SnapshotFile.Fits (producer task : String) (snapshot : Snapshot) : Prop where
  encodes : ∃ raw, encode producer task snapshot = .ok raw
  header : headerClaim producer task ≤ maxHeader
  payload : Wire.snapshotClaim snapshot ≤ maxPayload

instance (producer task : String) (snapshot : Snapshot) :
    Decidable (SnapshotFile.Fits producer task snapshot) :=
  decidable_of_iff ((SnapshotFile.encode producer task snapshot).isOk = true ∧
      SnapshotFile.headerClaim producer task ≤ SnapshotFile.maxHeader ∧
      Wire.snapshotClaim snapshot ≤ SnapshotFile.maxPayload) <| by
    have hok : (SnapshotFile.encode producer task snapshot).isOk = true ↔
        ∃ raw, SnapshotFile.encode producer task snapshot = .ok raw := by
      cases SnapshotFile.encode producer task snapshot <;> simp [Except.isOk, Except.toBool]
    rw [hok]
    exact ⟨fun h => ⟨h.1, h.2.1, h.2.2⟩, fun h => ⟨h.encodes, h.header, h.payload⟩⟩

theorem SnapshotFile.Fits.decode {producer task : String} {snapshot : Snapshot} {raw : Bytes}
    (h : Fits producer task snapshot) (hraw : encode producer task snapshot = .ok raw)
    (reader : String) (path : Path) : (decode reader path task raw).toOption =
      if producer = reader then some snapshot else none := by
  rw [decode_of_encode hraw, if_neg (Nat.not_lt.2 h.header)]
  by_cases hproducer : producer = reader
  · rw [if_neg (not_not.2 hproducer), if_neg (not_not.2 rfl), if_neg (Nat.not_lt.2 h.payload),
      if_pos hproducer]
    rfl
  · rw [if_pos hproducer, if_neg hproducer]
    rfl

namespace DirectoryStore

open FileTree

variable {s : DirectoryStore} {t t' : FileTree} {place : Place} {task : String} {content : Bytes}

/-! ## Loading -/

theorem value_load (s : DirectoryStore) (t : FileTree) (task : String) :
    (s.load t task).value = (s.readSnapshot t task).toOption := by
  unfold load
  split
  · next h => rw [h]; rfl
  · next h => rw [h]; rfl
  · next h => rw [h]; rfl

theorem value_load_eq (s : DirectoryStore) (t : FileTree) (task : String) :
    (s.load t task).value = (t.read (s.snapshotPath task)).toOption.bind fun raw =>
      (SnapshotFile.decode s.producer (s.snapshotPath task) task raw).toOption := by
  rw [value_load]
  unfold readSnapshot
  generalize s.snapshotPath task = path
  dsimp only
  cases t.read path <;> rfl

/-- The same is loaded when the same is read. -/
theorem load_congr (h : (t'.read (s.snapshotPath task)).toOption =
    (t.read (s.snapshotPath task)).toOption) :
    (s.load t' task).value = (s.load t task).value := by
  rw [value_load_eq, value_load_eq, h]

theorem toOption_read (hfault : (s.snapshotPath task).fault? = none)
    (henter : t.enter s.dir = .ok place) :
    (t.read (s.snapshotPath task)).toOption = t.fileAt? (snapshotName task :: place) := by
  rw [snapshotPath_eq, read_joinText (isName_snapshotName task) hfault, henter, Except.ok_bind,
    entry?_eq_ok.2 ⟨utf8ByteSize_snapshotName task, rfl⟩, Except.ok_bind, fileAt?]
  cases t.node? (snapshotName task :: place) with
  | none => rfl
  | some node => cases node <;> rfl

theorem fault?_joinText_ne_notFound {p : Path} {name : String} (h : Step.IsName name) :
    (p.joinText name).fault? ≠ some .notFound := by
  have hne : (p.joinText name).text ≠ "" := by
    obtain ⟨front, htext, -⟩ := p.text_joinText h
    intro hempty
    rw [hempty] at htext
    exact h.toList_ne_nil (List.append_eq_nil_iff.1 htext.symm).2
  unfold Path.fault?
  rw [if_neg hne]
  split_ifs <;> nofun

theorem fault?_snapshotPath_ne (s : DirectoryStore) (task : String) :
    (s.snapshotPath task).fault? ≠ some .notFound :=
  fault?_joinText_ne_notFound (isName_snapshotName task)

theorem readSnapshot_of_fault {e : FileError} (h : (s.snapshotPath task).fault? = some e) :
    s.readSnapshot t task = .error (.inaccessible (s.snapshotPath task) e) := by
  unfold readSnapshot
  dsimp only
  rw [read_of_fault h]

/-! ## Saving -/

theorem grows_prepare (s : DirectoryStore) (t : FileTree) : t.Grows (s.prepare t).1 :=
  grows_makeDirectories t s.dir

theorem prepare_of_directoryAt (h : t.DirectoryAt s.dir place) : s.prepare t = (t, .ok ()) := by
  rw [prepare, h.makeDirectories]
  rfl

/-- Nothing is made when the path leads to a directory. It may still be no path that can be made:
an empty one need not be, and others cannot. -/
theorem prepare_of_enter (s : DirectoryStore) : ∃ result, ∀ {t : FileTree} {place : Place},
    t.enter s.dir = .ok place → s.prepare t = (t, result) := by
  by_cases hempty : s.dir.text = ""
  · refine ⟨.ok (), fun {t _} _ => ?_⟩
    rw [prepare, makeDirectories, makeDirectoriesUpTo, if_pos hempty]
    rfl
  · cases hfault : s.dir.fault? with
    | none =>
      exact ⟨.ok (), fun henter => prepare_of_directoryAt (directoryAt_of_enter henter hfault)⟩
    | some e =>
      refine ⟨.error (.inaccessible s.dir e), fun {t _} _ => ?_⟩
      rw [prepare, makeDirectories_of_fault hempty hfault]
      rfl

theorem stage_eq_ok : s.stage t task content = .ok t' ↔
    (s.stagingPath task).fault? = none ∧ ∃ place, t.enter s.dir = .ok place ∧
      t.node? (stagingName task :: place) ≠ some .directory ∧
      t' = t.putFile place (stagingName task) content := by
  rw [stage, Except.mapError_eq_ok, stagingPath_eq, write_joinText_eq_ok (isName_stagingName task)]
  simp only [utf8ByteSize_stagingName, true_and]

theorem fileAt?_stage (henter : t.enter s.dir = .ok place)
    (h : s.stage t task content = .ok t') :
    (s.stagingPath task).fault? = none ∧
      t'.fileAt? (stagingName task :: place) = some content := by
  obtain ⟨hfault, place', henter', hnode, rfl⟩ := stage_eq_ok.1 h
  obtain rfl : place' = place := Except.ok.inj (henter'.symm.trans henter)
  exact ⟨hfault, by rw [fileAt?_putFile (directory_of_enter henter) hnode, if_pos rfl]⟩

theorem commit_eq_ok : s.commit t task = (t', .ok ()) ↔
    (s.stagingPath task).fault? = none ∧ (s.snapshotPath task).fault? = none ∧
      ∃ place content, t.enter s.dir = .ok place ∧
        t.fileAt? (stagingName task :: place) = some content ∧
        t.node? (snapshotName task :: place) ≠ some .directory ∧
        t' = (t.putFile place (snapshotName task) content).dropFile place (stagingName task) := by
  have hcommit : s.commit t task = (t', .ok ()) ↔
      t.rename (s.stagingPath task) (s.snapshotPath task) = .ok t' := by
    unfold commit
    generalize s.stagingPath task = source
    generalize s.snapshotPath task = target
    cases t.rename source target <;> simp
  rw [hcommit, stagingPath_eq, snapshotPath_eq, rename_joinText_eq_ok (isName_stagingName task)
    (isName_snapshotName task) (snapshotName_ne_stagingName task task).symm]
  simp only [utf8ByteSize_stagingName, utf8ByteSize_snapshotName, true_and]

/-- Whatever fails, the temporary file is all that may go. -/
theorem commit_eq_error {e : StoreError} (h : s.commit t task = (t', .error e)) :
    t' = t ∨ ∃ place, t.enter s.dir = .ok place ∧ t' = t.dropFile place (stagingName task) := by
  have hremoved : t' = (t.remove (s.stagingPath task)).toOption.getD t := by
    unfold commit at h
    generalize s.stagingPath task = source at h ⊢
    generalize s.snapshotPath task = target at h
    split at h
    · cases h
    · exact (congrArg Prod.fst h).symm
  cases hremove : t.remove (s.stagingPath task) with
  | error _ =>
    rw [hremove] at hremoved
    exact .inl hremoved
  | ok t₁ =>
    obtain ⟨-, -, place, henter, -, ht₁⟩ :=
      (remove_joinText_eq_ok (isName_stagingName task)).1 hremove
    rw [hremove] at hremoved
    exact .inr ⟨place, henter, hremoved.trans ht₁⟩

/-- What is staged takes the place of the snapshot as far as that can be written; the temporary file
goes in any case. -/
theorem commit_of_staged (hfault : (s.stagingPath task).fault? = none)
    (henter : t.enter s.dir = .ok place)
    (hstaged : t.fileAt? (stagingName task :: place) = some content) :
    s.commit t task = match t.write (s.snapshotPath task) content with
      | .ok moved => (moved.dropFile place (stagingName task), .ok ())
      | .error e =>
        (t.dropFile place (stagingName task), .error (.inaccessible (s.snapshotPath task) e)) := by
  have hrename := rename_joinText (isName_stagingName task) (isName_snapshotName task)
    (snapshotName_ne_stagingName task task).symm hfault (utf8ByteSize_stagingName task) henter hstaged
  have hremove : t.remove (s.dir.joinText (stagingName task)) =
      .ok (t.dropFile place (stagingName task)) :=
    (remove_joinText_eq_ok (isName_stagingName task)).2
      ⟨hfault, utf8ByteSize_stagingName task, place, henter, by rw [hstaged]; rfl, rfl⟩
  unfold commit
  rw [stagingPath_eq, snapshotPath_eq, hrename, hremove]
  cases t.write (s.dir.joinText (snapshotName task)) content <;> rfl

/-- Saving when no directory is missing: what can be encoded is staged, and what is staged is put in
place. -/
theorem value_save (hprepare : s.prepare t = (t, .ok ())) (task : String) (snapshot : Snapshot) :
    (s.save t task snapshot).value = match SnapshotFile.encode s.producer task snapshot with
      | .error fault => (t, .error (.coding fault))
      | .ok content =>
        match s.stage t task content with
        | .error e => (t, .error e)
        | .ok t => s.commit t task := by
  unfold save
  rw [hprepare]
  dsimp only
  cases SnapshotFile.encode s.producer task snapshot with
  | error fault => rfl
  | ok content =>
    dsimp only
    cases s.stage t task content with
    | error e => rfl
    | ok t₁ =>
      dsimp only
      split
      · next h => rw [h]; rfl
      · next h => rw [h]; rfl

/-- After a snapshot has been saved its file holds what was encoded, the temporary file is gone and
nothing else has changed. -/
theorem node?_save (hdirectory : t.DirectoryAt s.dir place) {snapshot : Snapshot}
    (hencode : SnapshotFile.encode s.producer task snapshot = .ok content)
    (h : (s.save t task snapshot).value = (t', .ok ())) (q : Place) :
    t'.node? q =
      if q = stagingName task :: place then none
      else if q = snapshotName task :: place then some (.file content)
      else t.node? q := by
  rw [value_save (prepare_of_directoryAt hdirectory), hencode] at h
  dsimp only at h
  cases hstage : s.stage t task content with
  | error e => rw [hstage] at h; cases h
  | ok t₁ =>
    rw [hstage] at h
    obtain ⟨-, place₁, henter, hstaging, rfl⟩ := stage_eq_ok.1 hstage
    obtain rfl : place₁ = place := Except.ok.inj (henter.symm.trans hdirectory.enter)
    obtain ⟨-, -, place₂, content', henter₂, hcontent, hsnapshot, rfl⟩ := commit_eq_ok.1 h
    obtain rfl : place₂ = place₁ :=
      Except.ok.inj (henter₂.symm.trans (enter_keeps (keeps_putFile ..) henter))
    rw [fileAt?_putFile hdirectory.2 hstaging, if_pos rfl] at hcontent
    cases hcontent
    have hkeeps := t.keeps_putFile place₂ (stagingName task) content
    have hne : stagingName task :: place₂ ≠ snapshotName task :: place₂ :=
      fun h => snapshotName_ne_stagingName task task (List.cons.inj h).1.symm
    have hplace := hkeeps.directory place₂ hdirectory.2
    rw [node?_dropFile, node?_putFile hplace hsnapshot, node?_putFile hdirectory.2 hstaging]
    · split_ifs <;> rfl
    · rw [node?_putFile hplace hsnapshot, if_neg hne, node?_putFile hdirectory.2 hstaging,
        if_pos rfl]
      nofun

theorem inaccessible_of_stage {e : StoreError} (h : s.stage t task content = .error e) :
    ∃ path cause, e = .inaccessible path cause := by
  unfold stage at h
  cases hwrite : t.write (s.stagingPath task) content with
  | ok _ => rw [hwrite] at h; cases h
  | error cause =>
    rw [hwrite] at h
    exact ⟨_, cause, (Except.error.inj h).symm⟩

theorem inaccessible_of_commit {e : StoreError} (h : s.commit t task = (t', .error e)) :
    ∃ path cause, e = .inaccessible path cause := by
  unfold commit at h
  cases hrename : t.rename (s.stagingPath task) (s.snapshotPath task) with
  | ok _ => rw [hrename] at h; cases h
  | error cause =>
    rw [hrename] at h
    exact ⟨_, cause, (Except.error.inj (congrArg Prod.snd h)).symm⟩

/-- What can be encoded is saved unless the file system fails. -/
theorem inaccessible_of_save (hdirectory : t.DirectoryAt s.dir place) {snapshot : Snapshot}
    (hencode : SnapshotFile.encode s.producer task snapshot = .ok content) {e : StoreError}
    (h : (s.save t task snapshot).value = (t', .error e)) :
    ∃ path cause, e = .inaccessible path cause := by
  rw [value_save (prepare_of_directoryAt hdirectory), hencode] at h
  dsimp only at h
  cases hstage : s.stage t task content with
  | error e' =>
    rw [hstage] at h
    cases h
    exact inaccessible_of_stage hstage
  | ok t₁ =>
    rw [hstage] at h
    exact inaccessible_of_commit h

/-! ## Removing -/

theorem remove_of_fault {e : FileError} (h : (s.snapshotPath task).fault? = some e) :
    s.remove t task = .error (.inaccessible (s.snapshotPath task) e) := by
  have hne : e ≠ .notFound := by
    rintro rfl
    exact s.fault?_snapshotPath_ne task h
  unfold remove
  dsimp only
  rw [FileTree.remove_of_fault h]
  cases e with
  | notFound => exact absurd rfl hne
  | _ => rfl

theorem remove_of_enter (hfault : (s.snapshotPath task).fault? = none)
    (henter : t.enter s.dir = .ok place) :
    s.remove t task = match t.node? (snapshotName task :: place) with
      | none => .ok (false, t)
      | some .directory => .error (.inaccessible (s.snapshotPath task) .isDirectory)
      | some (.file _) => .ok (true, t.dropFile place (snapshotName task)) := by
  have hremove := remove_joinText (t := t) (isName_snapshotName task) hfault
  rw [henter, Except.ok_bind, entry?_eq_ok.2 ⟨utf8ByteSize_snapshotName task, rfl⟩,
    Except.ok_bind] at hremove
  unfold remove
  dsimp only
  rw [snapshotPath_eq, hremove]
  cases t.node? (snapshotName task :: place) with
  | none => rfl
  | some node => cases node <;> rfl

/-! ## Collecting -/

/-- What is collected of a directory are its stale names. -/
theorem mem_stale_iff {names : List Bytes} (h : t.Lists place names) {liveKeys : List String}
    {name : String} : name ∈ names.filterMap (stale? liveKeys) ↔
      t.node? (name :: place) ≠ none ∧ IsStale liveKeys name := by
  rw [mem_filterMap_stale?, h.mem_iff, entryAt?_ofString]

/-- A collection goes through all names, and takes those of dead snapshots in their order. -/
theorem value_collect (hdirectory : t.DirectoryAt s.dir place) (live : List String) :
    ∃ names, t.Lists place names ∧
      ((names.filterMap (stale? (live.map key))).Pairwise fun a b => compare a b = .lt) ∧
      (s.collect t live).value = s.collectNamed t live names := by
  obtain ⟨texts, hnames, hsorted, hmem⟩ := hdirectory.entryNames
  refine ⟨_, lists_append (Table.nodup_of_ordered hsorted) hmem, ?_, ?_⟩
  · have hstray : (t.strayNames place).filterMap (stale? (live.map key)) = [] :=
      List.filterMap_eq_nil_iff.2 fun name hname =>
        stale?_of_not_valid (not_valid_of_mem_strayNames hname)
    rw [List.filterMap_append, hstray, List.append_nil, List.filterMap_map, List.pairwise_filterMap]
    refine hsorted.imp fun hlt a' ha b' hb => ?_
    rwa [← Utf8.ofString_injective (stale?_eq_some_iff.1 ha).1,
      ← Utf8.ofString_injective (stale?_eq_some_iff.1 hb).1]
  · have hexists : t.exists? s.dir = true := by
      rw [exists?, lookup, hdirectory.1, Except.ok_bind, hdirectory.2]
      rfl
    unfold collect
    rw [hexists, hnames]
    simp only [Bool.not_true, Bool.false_eq_true, if_false]
    split
    · next h => rw [h]; rfl
    · next h => rw [h]; rfl

theorem inaccessible_of_removeEntries {names : List String} {e : StoreError}
    (h : s.removeEntries t names = (t', .error e)) : ∃ path cause, e = .inaccessible path cause := by
  induction names generalizing t with
  | nil => cases h
  | cons name names ih =>
    simp only [removeEntries] at h
    split at h
    · exact ih h
    · cases h
      exact ⟨_, _, rfl⟩

/-- The named entries are gone after they have been removed, and nothing else is. -/
theorem node?_removeEntries {names : List String} (hnames : ∀ name ∈ names, Step.IsName name)
    (henter : t.enter s.dir = .ok place) (h : s.removeEntries t names = (t', .ok ())) (q : Place) :
    t'.node? q = if ∃ name ∈ names, q = name :: place then none else t.node? q := by
  induction names generalizing t with
  | nil =>
    cases h
    simp
  | cons name names ih =>
    simp only [removeEntries] at h
    split at h
    · next t₁ hremove =>
      obtain ⟨-, -, place', henter', hfile, rfl⟩ :=
        (remove_joinText_eq_ok (hnames name List.mem_cons_self)).1 hremove
      obtain rfl : place' = place := Except.ok.inj (henter'.symm.trans henter)
      have hrest := ih (fun n hn => hnames n (List.mem_cons_of_mem name hn))
        (enter_keeps (keeps_dropFile ..) henter) h
      rw [hrest, node?_dropFile (node?_ne_directory hfile)]
      simp only [List.mem_cons, exists_eq_or_imp]
      by_cases hq : q = name :: place'
      · simp only [hq, true_or, if_true, ite_self]
      · simp only [hq, false_or, if_false]
    · cases h

/-! ## Directories stay -/

theorem keeps_stage (h : s.stage t task content = .ok t') : t.Keeps t' :=
  keeps_write (Except.mapError_eq_ok.1 h)

theorem keeps_commit (s : DirectoryStore) (t : FileTree) (task : String) :
    t.Keeps (s.commit t task).1 := by
  unfold commit
  generalize s.stagingPath task = source
  generalize s.snapshotPath task = target
  split
  · next hrename => exact keeps_rename hrename
  · cases hremove : t.remove source with
    | error _ => exact .refl t
    | ok _ => exact FileTree.keeps_remove hremove

theorem keeps_save (s : DirectoryStore) (t : FileTree) (task : String) (snapshot : Snapshot) :
    t.Keeps (s.save t task snapshot).value.1 := by
  have hprepare := (s.grows_prepare t).toKeeps
  unfold save
  split
  · next h => rwa [h] at hprepare
  · next t₁ h =>
    rw [h] at hprepare
    cases SnapshotFile.encode s.producer task snapshot with
    | error fault => exact hprepare
    | ok content =>
      dsimp only
      cases hstage : s.stage t₁ task content with
      | error e => exact hprepare
      | ok t₂ =>
        have hcommit := s.keeps_commit t₂ task
        dsimp only
        split <;> next h =>
          rw [h] at hcommit
          exact (hprepare.trans (keeps_stage hstage)).trans hcommit

theorem keeps_remove {found : Bool} (h : s.remove t task = .ok (found, t')) : t.Keeps t' := by
  unfold remove at h
  dsimp only at h
  split at h
  · next hremove =>
    cases h
    exact FileTree.keeps_remove hremove
  · cases h
    exact .refl t
  · cases h

theorem keeps_removeEntries (s : DirectoryStore) (t : FileTree) (names : List String) :
    t.Keeps (s.removeEntries t names).1 := by
  induction names generalizing t with
  | nil => exact .refl t
  | cons name names ih =>
    simp only [removeEntries]
    split
    · next t₁ hremove => exact (FileTree.keeps_remove hremove).trans (ih t₁)
    · exact .refl t

theorem keeps_collectNamed (s : DirectoryStore) (t : FileTree) (live : List String)
    (names : List Bytes) : t.Keeps (s.collectNamed t live names).1 := by
  have hremove := s.keeps_removeEntries t (names.filterMap (stale? (live.map key)))
  unfold collectNamed
  dsimp only
  split <;> next h => rwa [h] at hremove

theorem keeps_collect (s : DirectoryStore) (t : FileTree) (live : List String) :
    t.Keeps (s.collect t live).value.1 := by
  unfold collect
  split
  · exact .refl t
  · split
    · exact .refl t
    · next names _ =>
      have hcollect := s.keeps_collectNamed t live names
      split <;> next h => rwa [h] at hcollect

end DirectoryStore

end Recompile
