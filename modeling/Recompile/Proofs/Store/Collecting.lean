import Recompile.Proofs.Store.Files

/-!
# Collecting dead snapshots

A file is collected when its name is that of a snapshot and its stem is the key of no live task
(`DirectoryStore.IsDead`). `DirectoryStore.collect_exact` says that nothing else goes, that all such
files go and are counted, and that nothing is left for a second collection.

The names of a directory are bytes, and they may be listed in any order (`FileTree.Lists`). A dead
name is a text, so a file with the extension of snapshots stays when its stem is none. Dropping
files is a filter on the nodes of the tree (`DirectoryStore.removeEntries_eq_ok`), so neither the
result nor the count depends on the order.
-/

namespace Recompile

namespace FileTree

variable {t t' : FileTree} {place : Place} {name : String}

theorem ext (hnodes : t.nodes = t'.nodes) (hstrays : t.strays = t'.strays) (hcwd : t.cwd = t'.cwd) :
    t = t' := by
  cases t
  cases t'
  cases hnodes
  cases hstrays
  cases hcwd
  rfl

theorem nodes_dropFile (h : t.node? (name :: place) ≠ some .directory) :
    (t.dropFile place name).nodes = t.nodes.filter fun q _ => q ≠ name :: place := by
  unfold dropFile
  rw [dif_pos h]
  refine Table.ext (List.filter_congr fun e _ => ?_)
  dsimp only
  rw [Bool.eq_iff_iff, bne_iff_ne, decide_eq_true_eq]
  exact not_congr (compare_place_eq.trans eq_comm)

theorem cwd_dropFile (t : FileTree) (place : Place) (name : String) :
    (t.dropFile place name).cwd = t.cwd :=
  (t.keeps_dropFile place name).cwd

theorem strays_dropFile (t : FileTree) (place : Place) (name : String) :
    (t.dropFile place name).strays = t.strays := by
  unfold dropFile
  split <;> rfl

/-- Trees with the same strays differ only in what the texts name. -/
theorem entryAt?_congr (hstrays : t'.strays = t.strays) {name : Bytes}
    (hnode : ∀ text, name = Utf8.ofString text →
      t'.node? (text :: place) = t.node? (text :: place)) :
    t'.entryAt? place name = t.entryAt? place name := by
  rw [entryAt?, entryAt?, hstrays]
  cases htext : Utf8.text? name with
  | none => rfl
  | some text => exact hnode text (Utf8.text?_eq_some_iff.1 htext)

end FileTree

namespace DirectoryStore

open FileTree

variable {s : DirectoryStore} {t t' : FileTree} {place : Place} {task : String}
  {live : List String}

/-! ## Dead names -/

/-- The name is that of a snapshot, but of none of the live tasks: its extension is that of
snapshots, and its stem is a text that is the key of no live task. -/
def IsDead (live : List String) (name : Bytes) : Prop :=
  ∃ stem, stem ≠ "" ∧ name = Utf8.ofString (stem ++ "." ++ extension) ∧
    ∀ task ∈ live, stem ≠ key task

theorem notMem_map_key {stem : String} : stem ∉ live.map key ↔ ∀ task ∈ live, stem ≠ key task := by
  rw [List.mem_map]
  exact ⟨fun h task htask heq => h ⟨task, htask, heq.symm⟩,
    fun h ⟨task, htask, heq⟩ => h task htask heq.symm⟩

theorem isDead_iff {name : Bytes} :
    IsDead live name ↔ ∃ text, name = Utf8.ofString text ∧ IsStale (live.map key) text := by
  unfold IsDead IsStale
  simp only [notMem_map_key]
  constructor
  · exact fun ⟨stem, hstem, hname, hdead⟩ => ⟨_, hname, stem, hstem, rfl, hdead⟩
  · rintro ⟨_, hname, stem, hstem, rfl, hdead⟩
    exact ⟨stem, hstem, hname, hdead⟩

@[simp] theorem isDead_ofString {text : String} :
    IsDead live (Utf8.ofString text) ↔ IsStale (live.map key) text := by
  rw [isDead_iff]
  exact ⟨fun ⟨_, htext, hstale⟩ => Utf8.ofString_injective htext ▸ hstale, fun h => ⟨text, rfl, h⟩⟩

theorem isSome_stale?_iff {name : Bytes} :
    (stale? (live.map key) name).isSome = true ↔ IsDead live name := by
  rw [Option.isSome_iff_exists, isDead_iff]
  exact exists_congr fun text => stale?_eq_some_iff

instance (live : List String) : DecidablePred (IsDead live) := fun _ =>
  decidable_of_iff _ isSome_stale?_iff

/-- The snapshot of a live task is not dead. -/
theorem not_isDead_snapshotName (h : task ∈ live) :
    ¬ IsDead live (Utf8.ofString (snapshotName task)) := by
  rw [isDead_ofString, isStale_snapshotName, not_not]
  exact List.mem_map_of_mem h

/-! ## Removing entries -/

section Remove

variable {names : List String}

/-- Entries that can each be removed are all removed, in whatever order. -/
theorem removeEntries_eq_ok (hnodup : names.Nodup) (hnames : ∀ name ∈ names, Step.IsName name)
    (henter : t.enter s.dir = .ok place)
    (hremovable : ∀ name ∈ names, ∃ t', t.remove (s.dir.joinText name) = .ok t') :
    ∃ t', s.removeEntries t names = (t', .ok ()) ∧ t'.cwd = t.cwd ∧ t'.strays = t.strays ∧
      t'.nodes = t.nodes.filter fun q _ => ∀ name ∈ names, q ≠ name :: place := by
  induction names generalizing t with
  | nil => exact ⟨t, rfl, rfl, rfl, (Table.ext (List.filter_eq_self.2 (by simp))).symm⟩
  | cons name names ih =>
    obtain ⟨hfresh, hnodup⟩ := List.nodup_cons.1 hnodup
    obtain ⟨hname, hnames⟩ := List.forall_mem_cons.1 hnames
    obtain ⟨⟨t₁, hremove⟩, hremovable⟩ := List.forall_mem_cons.1 hremovable
    obtain ⟨-, -, place', henter', hfile, rfl⟩ := (remove_joinText_eq_ok hname).1 hremove
    obtain rfl : place' = place := Except.ok.inj (henter'.symm.trans henter)
    have henter₁ := enter_keeps (t.keeps_dropFile place' name) henter
    -- The removal of one entry is no obstacle for another one.
    have hremovable₁ : ∀ n ∈ names, ∃ t',
        (t.dropFile place' name).remove (s.dir.joinText n) = .ok t' := by
      intro n hn
      obtain ⟨t₂, hremove₂⟩ := hremovable n hn
      obtain ⟨hfault, hsize, q, hq, hfile₂, -⟩ := (remove_joinText_eq_ok (hnames n hn)).1 hremove₂
      obtain rfl : q = place' := Except.ok.inj (hq.symm.trans henter)
      have hne : n :: q ≠ name :: q := fun heq => hfresh ((List.cons.inj heq).1 ▸ hn)
      exact ⟨_, (remove_joinText_eq_ok (hnames n hn)).2
        ⟨hfault, hsize, q, henter₁, by rwa [fileAt?_dropFile, if_neg hne], rfl⟩⟩
    obtain ⟨t', hrest, hcwd, hstrays, hnodes⟩ := ih hnodup hnames henter₁ hremovable₁
    refine ⟨t', ?_, hcwd.trans (t.cwd_dropFile place' name),
      hstrays.trans (t.strays_dropFile place' name), ?_⟩
    · simp only [removeEntries, hremove, hrest]
    · rw [hnodes, nodes_dropFile (node?_ne_directory hfile)]
      refine Table.ext ?_
      simp only [Table.filter, List.filter_filter, List.forall_mem_cons]
      exact List.filter_congr fun e _ => by simp [Bool.and_comm]

/-- Neither what is left nor whether it works depends on the order. -/
theorem removeEntries_perm {names' : List String} (hperm : names.Perm names') (hnodup : names.Nodup)
    (hnames : ∀ name ∈ names, Step.IsName name) (henter : t.enter s.dir = .ok place)
    (hremovable : ∀ name ∈ names, ∃ t', t.remove (s.dir.joinText name) = .ok t') :
    s.removeEntries t names = s.removeEntries t names' := by
  obtain ⟨t₁, h₁, hcwd₁, hstrays₁, hnodes₁⟩ := removeEntries_eq_ok hnodup hnames henter hremovable
  obtain ⟨t₂, h₂, hcwd₂, hstrays₂, hnodes₂⟩ := removeEntries_eq_ok (hperm.nodup_iff.1 hnodup)
    (fun name hname => hnames name (hperm.mem_iff.2 hname)) henter
    fun name hname => hremovable name (hperm.mem_iff.2 hname)
  have hnodes : t₁.nodes = t₂.nodes := by
    rw [hnodes₁, hnodes₂]
    simp only [hperm.mem_iff]
  rw [h₁, h₂, FileTree.ext hnodes (hstrays₁.trans hstrays₂.symm) (hcwd₁.trans hcwd₂.symm)]

end Remove

/-! ## Collecting -/

/-- Every dead snapshot in the directory at the place can be removed. -/
def Removable (s : DirectoryStore) (t : FileTree) (place : Place) (live : List String) : Prop :=
  ∀ name, t.node? (name :: place) ≠ none → IsDead live (Utf8.ofString name) →
    ∃ t', t.remove (s.dir.joinText name) = .ok t'

/-- The second tree is the first one without the dead snapshots of the directory at the place. -/
structure Collected (live : List String) (place : Place) (t t' : FileTree) : Prop where
  cwd : t'.cwd = t.cwd
  dead : ∀ name, IsDead live name → t'.entryAt? place name = none
  kept : ∀ q name, (q = place → ¬ IsDead live name) → t'.entryAt? q name = t.entryAt? q name

section Collect

variable (hdirectory : t.DirectoryAt s.dir place)
  (hslash : ∀ name, t.node? (name :: place) ≠ none → '/' ∉ name.toList)
  (hremovable : s.Removable t place live) {names : List Bytes}

include hslash in
theorem isName_of_mem_stale (h : t.Lists place names) :
    ∀ name ∈ names.filterMap (stale? (live.map key)), Step.IsName name := fun name hname =>
  isName_of_isStale ((mem_stale_iff h).1 hname).2 (hslash name ((mem_stale_iff h).1 hname).1)

include hremovable in
theorem remove_of_mem_stale (h : t.Lists place names) :
    ∀ name ∈ names.filterMap (stale? (live.map key)),
      ∃ t', t.remove (s.dir.joinText name) = .ok t' := fun name hname =>
  hremovable name ((mem_stale_iff h).1 hname).1 (isDead_ofString.2 ((mem_stale_iff h).1 hname).2)

include hdirectory hslash hremovable in
theorem collectNamed_eq_ok (h : t.Lists place names) : ∃ t',
    s.collectNamed t live names = (t', .ok (names.filterMap (stale? (live.map key))).length) ∧
      Collected live place t t' := by
  have hnames : ∀ name ∈ names.filterMap (stale? (live.map key)), Step.IsName name :=
    isName_of_mem_stale hslash h
  obtain ⟨t', hremove, hcwd, hstrays, -⟩ := removeEntries_eq_ok (nodup_filterMap_stale? h.nodup)
    hnames hdirectory.enter (remove_of_mem_stale hremovable h)
  have hnode := node?_removeEntries hnames hdirectory.enter hremove
  refine ⟨t', ?_, hcwd, fun name hdead => ?_, fun q name hq => entryAt?_congr hstrays ?_⟩
  · unfold collectNamed
    dsimp only
    rw [hremove]
  · obtain ⟨text, rfl, hstale⟩ := isDead_iff.1 hdead
    rw [entryAt?_ofString, hnode]
    refine ite_eq_left_iff.2 fun hkept => ?_
    exact Classical.not_not.1 fun hthere => hkept ⟨text, (mem_stale_iff h).2 ⟨hthere, hstale⟩, rfl⟩
  · rintro text rfl
    rw [hnode, if_neg]
    rintro ⟨text', hmem, heq⟩
    obtain ⟨rfl, rfl⟩ := List.cons.inj heq
    exact hq rfl (isDead_ofString.2 ((mem_stale_iff h).1 hmem).2)

include hdirectory hslash hremovable in
theorem collectNamed_perm {names' : List Bytes} (h : t.Lists place names)
    (h' : t.Lists place names') : s.collectNamed t live names = s.collectNamed t live names' := by
  have hperm := (h.perm h').filterMap (stale? (live.map key))
  have hremove := removeEntries_perm hperm (nodup_filterMap_stale? h.nodup)
    (isName_of_mem_stale hslash h) hdirectory.enter (remove_of_mem_stale hremovable h)
  unfold collectNamed
  dsimp only
  rw [hremove, hperm.length_eq]

end Collect

/-- The same is loaded, and reported, while the file of the task and the directory stay. -/
theorem load_eq_of_node? (hdirectory : t.DirectoryAt s.dir place) (hkeeps : t.Keeps t')
    (hnode : t'.node? (snapshotName task :: place) = t.node? (snapshotName task :: place)) :
    s.load t' task = s.load t task := by
  have hread : t'.read (s.snapshotPath task) = t.read (s.snapshotPath task) := by
    rw [snapshotPath_eq]
    cases hfault : (s.dir.joinText (snapshotName task)).fault? with
    | some e => rw [read_of_fault hfault, read_of_fault hfault]
    | none =>
      have hname := isName_snapshotName task
      rw [read_joinText hname hfault, read_joinText hname hfault, hdirectory.enter,
        enter_keeps hkeeps hdirectory.enter, Except.ok_bind, Except.ok_bind, entry?, entry?, hnode]
  unfold load readSnapshot
  generalize s.snapshotPath task = path at hread ⊢
  dsimp only
  rw [hread]

namespace Collected

variable {names : List Bytes} (h : Collected live place t t')

include h

/-- What a directory held and no longer holds are its dead names. -/
theorem entryAt?_eq_none_iff {name : Bytes} (hthere : t.entryAt? place name ≠ none) :
    t'.entryAt? place name = none ↔ IsDead live name := by
  refine ⟨fun hgone => by_contra fun hlive => hthere ?_, h.dead name⟩
  rw [← h.kept place name fun _ => hlive, hgone]

theorem node?_snapshotName (hlive : task ∈ live) :
    t'.node? (snapshotName task :: place) = t.node? (snapshotName task :: place) := by
  rw [← entryAt?_ofString, ← entryAt?_ofString]
  exact h.kept place _ fun _ => not_isDead_snapshotName hlive

/-- As many files are collected as there are names that the directory no longer holds. -/
theorem length_stale (hnames : t.Lists place names) :
    (names.filterMap (stale? (live.map key))).length =
      names.countP fun name => (t'.entryAt? place name).isNone := by
  rw [List.length_filterMap_eq_countP]
  refine List.countP_congr fun name hname => ?_
  rw [isSome_stale?_iff, Option.isNone_iff_eq_none]
  exact (h.entryAt?_eq_none_iff ((hnames.mem_iff name).1 hname)).symm

/-- There is nothing left to collect. -/
theorem collectNamed_eq (hnames : t'.Lists place names) (s : DirectoryStore) :
    s.collectNamed t' live names = (t', .ok 0) := by
  have hnone : names.filterMap (stale? (live.map key)) = [] := by
    refine List.eq_nil_iff_forall_not_mem.2 fun name hname => ?_
    obtain ⟨hthere, hstale⟩ := (mem_stale_iff hnames).1 hname
    rw [← entryAt?_ofString] at hthere
    exact hthere (h.dead _ (isDead_ofString.2 hstale))
  unfold collectNamed
  dsimp only
  rw [hnone]
  rfl

end Collected

/-- **Collecting removes exactly the dead snapshots.** In whatever order the directory is listed,
and whatever else is in it, the files that go are those with the extension of snapshots and a stem
that is a text and the key of no live task. Every other file, there or elsewhere and with a name in
any bytes, stays with its content, the files that are gone are counted, stores of any version load
the same for a live task as before, and a second collection finds nothing. The entries have names
without a slash, as those of a directory do, and no removal fails. -/
theorem collect_exact (hdirectory : t.DirectoryAt s.dir place)
    (hslash : ∀ name, t.node? (name :: place) ≠ none → '/' ∉ name.toList)
    (hremovable : s.Removable t place live) :
    ∃ t' removed, (s.collect t live).value = (t', .ok removed) ∧ Collected live place t t' ∧
      (∀ names, t.Lists place names → s.collectNamed t live names = (t', .ok removed) ∧
        removed = names.countP fun name => (t'.entryAt? place name).isNone) ∧
      (∀ reader : DirectoryStore, t.DirectoryAt reader.dir place → ∀ task ∈ live,
        reader.load t' task = reader.load t task) ∧
      (s.collect t' live).value = (t', .ok 0) ∧
      ∀ names, t'.Lists place names → s.collectNamed t' live names = (t', .ok 0) := by
  obtain ⟨listed, hlisted, -, hcollect⟩ := value_collect hdirectory live
  obtain ⟨t', hcollected, h⟩ := collectNamed_eq_ok hdirectory hslash hremovable hlisted
  have hkeeps : t.Keeps t' := by
    have hkeeps := s.keeps_collectNamed t live listed
    rwa [hcollected] at hkeeps
  obtain ⟨listed', hlisted', -, hcollect'⟩ := value_collect (hdirectory.keeps hkeeps) live
  refine ⟨t', _, hcollect.trans hcollected, h, fun names hnames => ⟨?_, ?_⟩,
    fun reader hreader task htask => ?_, ?_, fun names hnames => h.collectNamed_eq hnames s⟩
  · rw [collectNamed_perm hdirectory hslash hremovable hnames hlisted, hcollected]
  · rw [((hlisted.perm hnames).filterMap _).length_eq, h.length_stale hnames]
  · exact load_eq_of_node? hreader hkeeps (h.node?_snapshotName htask)
  · rw [hcollect', h.collectNamed_eq hlisted' s]

/-- A file with the extension of snapshots whose stem is no text. -/
def strayFile : Stray where
  place := ["c"]
  name := 0xFF :: Utf8.ofString ("." ++ extension)
  content := [10]
  notText := by decide

/-- A directory with the snapshots of two tasks, of which the second one was cut off, with what is
left of a save that broke off, and with files of others: names with several dots, with nothing
before the extension, with nothing but the extension and with a stem that is no text. -/
def mixedDirectory : FileTree :=
  ([(snapshotName "a", ((SnapshotFile.encode "1" "a" ∅).toOption.getD [])), (snapshotName "b", [7]),
    (stagingName "b", [8]), ("x.y.state", []), (".state", []), ("state", [9]),
    ("a.state.old", [])].foldl (fun t (name, content) => t.putFile ["c"] name content)
      (FileTree.within ["c"])).putStray strayFile

theorem collect_exact_mixed :
    let s : DirectoryStore := ⟨.ofText "/c/", "1"⟩
    let live := ["a", "a", "d"]
    ∃ t', (s.collect mixedDirectory live).value = (t', .ok 2) ∧
      (t'.entryNames s.dir).toOption =
        some ([".state", stagingName "b", "a.state.old", snapshotName "a", "state"].map
          Utf8.ofString ++ [strayFile.name]) ∧
      (s.load t' "a").value.isSome = true ∧ (s.collect t' live).value = (t', .ok 0) := by
  intro s live
  have hdirectory : mixedDirectory.DirectoryAt s.dir ["c"] := by decide +kernel
  obtain ⟨names, hlist, -, hmem⟩ := hdirectory.list
  have hnames : ∀ name ∈ (mixedDirectory.list s.dir).toOption.getD [], '/' ∉ name.toList ∧
      (IsDead live (Utf8.ofString name) →
        (mixedDirectory.remove (s.dir.joinText name)).isOk = true) := by
    decide +kernel
  rw [hlist] at hnames
  obtain ⟨t', removed, hcollect, -, -, hload, hagain, -⟩ := @collect_exact s mixedDirectory ["c"]
    live hdirectory (fun name hname => (hnames name ((hmem name).2 hname)).1)
    fun name hname hdead => by
      have hok := (hnames name ((hmem name).2 hname)).2 hdead
      cases hremove : mixedDirectory.remove (s.dir.joinText name) with
      | error e => rw [hremove] at hok; cases hok
      | ok t' => exact ⟨t', rfl⟩
  have hremoved : (s.collect mixedDirectory live).value.2.toOption = some 2 := by decide +kernel
  have hleft : ((s.collect mixedDirectory live).value.1.entryNames s.dir).toOption =
      some ([".state", stagingName "b", "a.state.old", snapshotName "a", "state"].map
        Utf8.ofString ++ [strayFile.name]) := by
    decide +kernel
  rw [hcollect] at hremoved hleft
  obtain rfl : removed = 2 := Option.some.inj hremoved
  refine ⟨t', hcollect, hleft, ?_, hagain⟩
  rw [hload s hdirectory "a" List.mem_cons_self]
  decide +kernel

/-- Two files that are left, although their extension is that of snapshots and their stem is the key
of no live task. The stem of one is no text. The other is the snapshot of a task in a store with an
empty path: it was saved and is loaded, and it could be removed, but an empty path is that of no
directory, so nothing is collected. -/
theorem collect_leaves :
    (let s : DirectoryStore := ⟨.ofText "/c/", "1"⟩
      let t := (FileTree.within ["c"]).putStray strayFile
      let collected := (s.collect t []).value
      t.DirectoryAt s.dir ["c"] ∧
        t.entryAt? ["c"] strayFile.name = some (.file strayFile.content) ∧
        Path.splitExtension strayFile.name = ([0xFF], some (Utf8.ofString extension)) ∧
        (∀ task, [0xFF] ≠ Utf8.ofString (key task)) ∧
        collected.2.toOption = some 0 ∧
        collected.1.entryAt? ["c"] strayFile.name = some (.file strayFile.content)) ∧
    (let s : DirectoryStore := ⟨.ofText "", "1"⟩
      let saved := (s.save (FileTree.within ["c"]) "a" ∅).value
      let collected := (s.collect saved.1 []).value
      saved.2.toOption = some () ∧
        IsDead [] (Utf8.ofString (snapshotName "a")) ∧
        (s.load saved.1 "a").value.isSome = true ∧
        (saved.1.remove (s.snapshotPath "a")).isOk = true ∧
        collected.2.toOption = some 0 ∧ (s.load collected.1 "a").value.isSome = true) := by
  constructor
  · have hstem : ¬ Utf8.Valid [0xFF] := by decide
    refine ⟨by decide +kernel, by decide +kernel, by decide +kernel, fun task heq => hstem ?_,
      by decide +kernel, by decide +kernel⟩
    rw [heq]
    exact Utf8.valid_ofString (key task)
  · decide +kernel

end DirectoryStore

end Recompile
