import Mathlib.Data.List.Dedup
import Recompile.Proofs.Store.Calls

/-!
# Stores of one directory are a map

Stores that share a directory, each with its own version, answer as one map from tasks to the
snapshot saved last and the version that saved it (`StoreCall.answers_eq_expected`). The map is not
kept anywhere: `StoreCall.held` reads it off the history.

The invariant is that the files of the directory mirror the map (`Mirrors`): a task that is held has
the file with its snapshot, and there is no other entry. Each call gives the answer of the map and
keeps the mirror (`Mirrors.save` and so on), and a history does so call by call.
-/

namespace Recompile

namespace StoreCall

/-! ## The map -/

/-- The snapshot of a task that is held after some calls, the last call first, and the version that
saved it: the one saved last, unless it was removed or collected since. -/
def held (task : String) : List StoreCall → Option (String × Snapshot)
  | [] => none
  | save s task' snapshot :: before =>
    if task' = task then some (s.producer, snapshot) else held task before
  | load .. :: before => held task before
  | remove _ task' :: before => if task' = task then none else held task before
  | collect _ live :: before => if task ∈ live then held task before else none

/-- The tasks of which a snapshot is held, each once. -/
def heldTasks (before : List StoreCall) : List String :=
  (before.flatMap tasks).dedup.filter fun task => (held task before).isSome

/-- What a call returns after the calls before it, the last one first: a version loads only what it
saved itself, but removes and collects what any version saved. -/
def expected (before : List StoreCall) : StoreCall → StoreAnswer
  | save .. => .saved (.ok ())
  | load s task => .loaded <| (held task before).bind fun (producer, snapshot) =>
      if producer = s.producer then some snapshot else none
  | remove _ task => .removed (.ok (held task before).isSome)
  | collect _ live => .collected (.ok ((heldTasks before).filter (· ∉ live)).length)

def expectedAnswers (before : List StoreCall) : List StoreCall → List StoreAnswer
  | [] => []
  | call :: calls => call.expected before :: expectedAnswers (call :: before) calls

variable {task : String} {before : List StoreCall}

/-- What is held was saved. -/
theorem exists_save_of_held {producer : String} {snapshot : Snapshot}
    (h : held task before = some (producer, snapshot)) :
    ∃ s, save s task snapshot ∈ before ∧ s.producer = producer := by
  induction before with
  | nil => cases h
  | cons call before ih =>
    have hrest (h : held task before = some (producer, snapshot)) :
        ∃ s, save s task snapshot ∈ call :: before ∧ s.producer = producer :=
      (ih h).imp fun _ hs => ⟨List.mem_cons_of_mem call hs.1, hs.2⟩
    cases call with
    | save s task' snapshot' =>
      rw [held] at h
      split at h
      · next htask =>
        subst htask
        cases h
        exact ⟨s, List.mem_cons_self, rfl⟩
      · exact hrest h
    | load => exact hrest h
    | remove s task' =>
      rw [held] at h
      split at h
      · cases h
      · exact hrest h
    | collect s live =>
      rw [held] at h
      split at h
      · exact hrest h
      · cases h

theorem mem_tasks_of_held (h : held task before ≠ none) : task ∈ before.flatMap tasks := by
  obtain ⟨⟨producer, snapshot⟩, h⟩ := Option.ne_none_iff_exists'.1 h
  obtain ⟨s, hs, -⟩ := exists_save_of_held h
  exact List.mem_flatMap.2 ⟨_, hs, List.mem_singleton.2 rfl⟩

theorem mem_heldTasks : task ∈ heldTasks before ↔ held task before ≠ none := by
  rw [heldTasks, List.mem_filter, List.mem_dedup, Option.isSome_iff_ne_none]
  exact ⟨And.right, fun h => ⟨mem_tasks_of_held h, h⟩⟩

theorem nodup_heldTasks (before : List StoreCall) : (heldTasks before).Nodup :=
  (List.nodup_dedup _).filter _

end StoreCall

/-! ## The files mirror the map -/

open StoreCall DirectoryStore FileTree

/-- What stands in the place of the file of a task when this is held of it. -/
def Records (task : String) : Option (String × Snapshot) → Option Node → Prop
  | none, node => node = none
  | some (producer, snapshot), node =>
    ∃ raw, SnapshotFile.encode producer task snapshot = .ok raw ∧ node = some (.file raw)

/-- After the calls `before`, the directory at the place holds what is held of the tasks. -/
structure Mirrors (place : Place) (tasks : List String) (before : List StoreCall) (t : FileTree) :
    Prop where
  known : ∀ call ∈ before, call.tasks ⊆ tasks
  fits : ∀ call ∈ before, call.Fits
  file : ∀ task ∈ tasks, Records task (held task before) (t.node? (snapshotName task :: place))
  entry : ∀ name, t.node? (name :: place) ≠ none → ∃ task ∈ tasks, name = snapshotName task

namespace Mirrors

variable {place : Place} {tasks : List String} {before : List StoreCall} {t t' : FileTree}
  {s : DirectoryStore} {task : String} {snapshot : Snapshot} {live : List String}

section Reading

variable (h : Mirrors place tasks before t)

include h

theorem fits_of_held {producer : String} (hheld : held task before = some (producer, snapshot)) :
    SnapshotFile.Fits producer task snapshot := by
  obtain ⟨s, hs, rfl⟩ := exists_save_of_held hheld
  exact h.fits _ hs

theorem mem_of_held (hheld : held task before ≠ none) : task ∈ tasks := by
  obtain ⟨call, hcall, htask⟩ := List.mem_flatMap.1 (mem_tasks_of_held hheld)
  exact h.known call hcall htask

/-- There is a file for a task exactly when something is held of it. -/
theorem node?_eq_none_iff (htask : task ∈ tasks) :
    t.node? (snapshotName task :: place) = none ↔ held task before = none := by
  have hfile := h.file task htask
  cases hheld : held task before with
  | none =>
    rw [hheld] at hfile
    exact iff_of_true hfile rfl
  | some _ =>
    rw [hheld] at hfile
    obtain ⟨raw, -, hnode⟩ := hfile
    rw [hnode]
    exact iff_of_false nofun nofun

end Reading

/-! ## One call -/

section Step

variable (h : Mirrors place tasks before t)
  (hkeys : ∀ a ∈ tasks, ∀ b ∈ tasks, Digest.ofText a = Digest.ofText b → a = b)
  (hdirectory : t.DirectoryAt s.dir place)

/-- A call that only looks. -/
theorem look {call : StoreCall} (h : Mirrors place tasks before t) (hknown : call.tasks ⊆ tasks)
    (hfits : call.Fits) (hheld : ∀ task, held task (call :: before) = held task before) :
    Mirrors place tasks (call :: before) t where
  known := List.forall_mem_cons.2 ⟨hknown, h.known⟩
  fits := List.forall_mem_cons.2 ⟨hfits, h.fits⟩
  file task htask := by
    rw [hheld]
    exact h.file task htask
  entry := h.entry

/-- A call that drops the files of some tasks and forgets these. -/
theorem drop {call : StoreCall} (h : Mirrors place tasks before t) (dead : String → Prop)
    [DecidablePred dead] (hknown : call.tasks ⊆ tasks) (hfits : call.Fits)
    (hheld : ∀ task, held task (call :: before) = if dead task then none else held task before)
    (hfile : ∀ task ∈ tasks, t'.node? (snapshotName task :: place) =
      if dead task then none else t.node? (snapshotName task :: place))
    (hentry : ∀ name, t'.node? (name :: place) ≠ none → t.node? (name :: place) ≠ none) :
    Mirrors place tasks (call :: before) t' where
  known := List.forall_mem_cons.2 ⟨hknown, h.known⟩
  fits := List.forall_mem_cons.2 ⟨hfits, h.fits⟩
  file task htask := by
    rw [hheld, hfile task htask]
    split
    · rfl
    · exact h.file task htask
  entry name hname := h.entry name (hentry name hname)

include hkeys in
theorem snapshotName_inj_of_mem {a b : String} (ha : a ∈ tasks) (hb : b ∈ tasks) :
    snapshotName a = snapshotName b ↔ a = b :=
  ⟨fun hname => hkeys a ha b hb ((key_inj a b).1 ((snapshotName_inj a b).1 hname)),
    fun hname => congrArg _ hname⟩

include h hkeys hdirectory

theorem save (htask : task ∈ tasks) (hfits : SnapshotFile.Fits s.producer task snapshot)
    (hfiles : (StoreCall.save s task snapshot).Undisturbed t) :
    (s.save t task snapshot).value.2 = .ok () ∧
      Mirrors place tasks (.save s task snapshot :: before) (s.save t task snapshot).value.1 := by
  obtain ⟨raw, hencode⟩ := hfits.encodes
  cases hsave : (s.save t task snapshot).value with
  | mk t' result =>
    cases result with
    | error e =>
      obtain ⟨path, cause, rfl⟩ := inaccessible_of_save hdirectory hencode hsave
      have hfault : fileFault? (s.save t task snapshot).value.2 = none := hfiles
      rw [hsave] at hfault
      cases hfault
    | ok _ =>
      have hnode (name : String) := node?_save hdirectory hencode hsave (name :: place)
      simp only [List.cons.injEq, and_true] at hnode
      refine ⟨rfl, ?_, ?_, ?_, ?_⟩
      · exact List.forall_mem_cons.2 ⟨fun _ hmem => List.mem_singleton.1 hmem ▸ htask, h.known⟩
      · exact List.forall_mem_cons.2 ⟨hfits, h.fits⟩
      · intro task' htask'
        rw [hnode, if_neg (snapshotName_ne_stagingName task' task), held]
        by_cases heq : task = task'
        · subst heq
          rw [if_pos rfl, if_pos rfl]
          exact ⟨raw, hencode, rfl⟩
        · rw [if_neg ((snapshotName_inj_of_mem hkeys htask' htask).not.2 (Ne.symm heq)), if_neg heq]
          exact h.file task' htask'
      · intro name hname
        rw [hnode] at hname
        split_ifs at hname with hstaging hsnapshot
        · exact absurd rfl hname
        · exact ⟨task, htask, hsnapshot⟩
        · exact h.entry name hname

omit hkeys in
theorem load (htask : task ∈ tasks) (hfiles : (StoreCall.load s task).Undisturbed t) :
    (s.load t task).value = (held task before).bind fun (producer, snapshot) =>
      if producer = s.producer then some snapshot else none := by
  have hfault : (s.snapshotPath task).fault? = none := by
    refine Option.eq_none_iff_forall_ne_some.2 fun cause hcause => ?_
    have hread : fileFault? (s.readSnapshot t task) = none ∨
        fileFault? (s.readSnapshot t task) = some .notFound := hfiles
    rw [readSnapshot_of_fault hcause] at hread
    rcases hread with hread | hread
    · cases hread
    · cases hread
      exact s.fault?_snapshotPath_ne task hcause
  rw [value_load_eq, toOption_read hfault hdirectory.enter]
  have hfile := h.file task htask
  cases hheld : held task before with
  | none =>
    rw [hheld] at hfile
    rw [fileAt?, show t.node? (snapshotName task :: place) = none from hfile]
    rfl
  | some saved =>
    obtain ⟨producer, snapshot⟩ := saved
    rw [hheld] at hfile
    obtain ⟨raw, hencode, hnode⟩ := hfile
    rw [fileAt?_eq_some.2 hnode, Option.bind_some, Option.bind_some]
    exact (h.fits_of_held hheld).decode hencode s.producer _

theorem remove (htask : task ∈ tasks) (hfiles : (StoreCall.remove s task).Undisturbed t) :
    ∃ t', s.remove t task = .ok ((held task before).isSome, t') ∧
      Mirrors place tasks (.remove s task :: before) t' := by
  have hfault : (s.snapshotPath task).fault? = none := by
    refine Option.eq_none_iff_forall_ne_some.2 fun cause hcause => ?_
    have hremove : fileFault? (s.remove t task) = none := hfiles
    rw [DirectoryStore.remove_of_fault hcause] at hremove
    cases hremove
  have hremove := remove_of_enter hfault hdirectory.enter
  obtain ⟨t', ht', hnode⟩ : ∃ t', s.remove t task = .ok ((held task before).isSome, t') ∧
      ∀ name, t'.node? (name :: place) =
        if name = snapshotName task then none else t.node? (name :: place) := by
    have hfile := h.file task htask
    cases hheld : held task before with
    | none =>
      rw [hheld] at hfile
      rw [show t.node? (snapshotName task :: place) = none from hfile] at hremove
      dsimp only at hremove
      refine ⟨t, hremove, fun name => ?_⟩
      split
      · next hname => exact hname ▸ hfile
      · rfl
    | some saved =>
      rw [hheld] at hfile
      obtain ⟨raw, -, hraw⟩ := hfile
      rw [hraw] at hremove
      dsimp only at hremove
      refine ⟨_, hremove, fun name => ?_⟩
      rw [node?_dropFile (by rw [hraw]; nofun)]
      simp only [List.cons.injEq, and_true]
  refine ⟨t', ht', h.drop (task = ·) (fun _ hmem => List.mem_singleton.1 hmem ▸ htask) trivial
    (fun _ => rfl) (fun task' htask' => ?_) fun name hname => ?_⟩
  · rw [hnode]
    exact if_congr ((snapshotName_inj_of_mem hkeys htask' htask).trans eq_comm) rfl rfl
  · rw [hnode] at hname
    exact (ite_ne_left_iff.1 hname).2.symm

omit h hdirectory in
theorem isStale_snapshotName_iff (hlive : live ⊆ tasks) (htask : task ∈ tasks) :
    IsStale (live.map key) (snapshotName task) ↔ task ∉ live := by
  rw [isStale_snapshotName, List.mem_map]
  refine not_congr ⟨?_, fun hmem => ⟨task, hmem, rfl⟩⟩
  rintro ⟨a, ha, hkey⟩
  exact hkeys a (hlive ha) task htask ((key_inj a task).1 hkey) ▸ ha

omit hdirectory in
/-- As many entries are collected as there are tasks that are held and not live. -/
theorem length_stale (hlive : live ⊆ tasks) {names : List Bytes} (hnames : t.Lists place names) :
    (names.filterMap (stale? (live.map key))).length =
      ((heldTasks before).filter (· ∉ live)).length := by
  have htask {task : String} (hmem : task ∈ (heldTasks before).filter (· ∉ live)) :
      task ∈ tasks ∧ held task before ≠ none ∧ task ∉ live := by
    simp only [List.mem_filter, mem_heldTasks, decide_eq_true_eq] at hmem
    exact ⟨h.mem_of_held hmem.1, hmem⟩
  have hinj : (((heldTasks before).filter (· ∉ live)).map snapshotName).Nodup :=
    List.Nodup.map_on (fun a ha b hb => (snapshotName_inj_of_mem hkeys (htask ha).1 (htask hb).1).1)
      ((nodup_heldTasks before).filter _)
  have hmem (name : String) : name ∈ names.filterMap (stale? (live.map key)) ↔
      name ∈ ((heldTasks before).filter (· ∉ live)).map snapshotName := by
    rw [mem_stale_iff hnames, List.mem_map]
    constructor
    · rintro ⟨hnode, hstale⟩
      obtain ⟨task, htask, rfl⟩ := h.entry name hnode
      refine ⟨task, List.mem_filter.2 ⟨mem_heldTasks.2 ?_, decide_eq_true ?_⟩, rfl⟩
      · exact (h.node?_eq_none_iff htask).not.1 hnode
      · exact (isStale_snapshotName_iff hkeys hlive htask).1 hstale
    · rintro ⟨task, hmem, rfl⟩
      obtain ⟨htask, hheld, hdead⟩ := htask hmem
      exact ⟨(h.node?_eq_none_iff htask).not.2 hheld,
        (isStale_snapshotName_iff hkeys hlive htask).2 hdead⟩
  have hnodup : (names.filterMap (stale? (live.map key))).Nodup :=
    nodup_filterMap_stale? hnames.nodup
  rw [((List.perm_ext_iff_of_nodup hnodup hinj).2 @hmem).length_eq, List.length_map]

theorem collect (hlive : live ⊆ tasks) (hfiles : (StoreCall.collect s live).Undisturbed t) :
    (s.collect t live).value.2 = .ok ((heldTasks before).filter (· ∉ live)).length ∧
      Mirrors place tasks (.collect s live :: before) (s.collect t live).value.1 := by
  obtain ⟨names, hnames, -, hcollect⟩ := value_collect hdirectory live
  have hfiles : fileFault? (s.collect t live).value.2 = none := hfiles
  have hlength := h.length_stale hkeys hlive hnames
  have hmem (name : String) : name ∈ names.filterMap (stale? (live.map key)) ↔
      t.node? (name :: place) ≠ none ∧ IsStale (live.map key) name := mem_stale_iff hnames
  rw [hcollect] at hfiles ⊢
  unfold collectNamed at hfiles ⊢
  dsimp only at hfiles ⊢
  generalize names.filterMap (stale? (live.map key)) = stale at hfiles hmem hlength ⊢
  cases hremove : s.removeEntries t stale with
  | mk t' result =>
    cases result with
    | error e =>
      obtain ⟨path, cause, rfl⟩ := inaccessible_of_removeEntries hremove
      rw [hremove] at hfiles
      cases hfiles
    | ok _ =>
      have hname : ∀ name ∈ stale, Step.IsName name := by
        intro name hname
        obtain ⟨hnode, -⟩ := (hmem name).1 hname
        obtain ⟨task, -, rfl⟩ := h.entry name hnode
        exact isName_snapshotName task
      have hnode (name : String) := node?_removeEntries hname hdirectory.enter hremove (name :: place)
      simp only [List.cons.injEq, and_true, exists_eq_right'] at hnode
      refine ⟨congrArg _ hlength, h.drop (· ∉ live) hlive trivial (fun task => ?_)
        (fun task htask => ?_) fun name hname => ?_⟩
      · exact (ite_not ..).symm
      · have hstale := (hmem (snapshotName task)).trans
          (and_congr_right' (isStale_snapshotName_iff hkeys hlive htask))
        rw [hnode]
        by_cases hdead : task ∉ live
        · rw [if_pos hdead]
          refine ite_eq_left_iff.2 fun hkept => ?_
          exact Classical.not_not.1 fun hthere => hkept (hstale.2 ⟨hthere, hdead⟩)
        · rw [if_neg hdead, if_neg fun hgone => hdead (hstale.1 hgone).2]
      · rw [hnode] at hname
        exact (ite_ne_left_iff.1 hname).2.symm

end Step

/-- A call answers as the map, and the mirror is kept. -/
theorem perform (h : Mirrors place tasks before t) {call : StoreCall}
    (hkeys : ∀ a ∈ tasks, ∀ b ∈ tasks, Digest.ofText a = Digest.ofText b → a = b)
    (hdirectory : t.DirectoryAt call.store.dir place) (hknown : call.tasks ⊆ tasks)
    (hfits : call.Fits) (hfiles : call.Undisturbed t) :
    (call.perform t).2 = call.expected before ∧
      Mirrors place tasks (call :: before) (call.perform t).1 := by
  unfold StoreCall.perform
  cases call with
  | save s task snapshot =>
    dsimp only [store, expected] at hdirectory ⊢
    obtain ⟨hsaved, hmirrors⟩ :=
      h.save hkeys hdirectory (hknown (List.mem_singleton.2 rfl)) hfits hfiles
    exact ⟨congrArg StoreAnswer.saved hsaved, hmirrors⟩
  | load s task =>
    dsimp only [store, expected] at hdirectory ⊢
    have hloaded := h.load hdirectory (hknown (List.mem_singleton.2 rfl)) hfiles
    exact ⟨congrArg StoreAnswer.loaded hloaded, h.look hknown hfits fun _ => rfl⟩
  | remove s task =>
    dsimp only [store, expected] at hdirectory ⊢
    obtain ⟨t', hremoved, hmirrors⟩ :=
      h.remove hkeys hdirectory (hknown (List.mem_singleton.2 rfl)) hfiles
    rw [hremoved]
    exact ⟨rfl, hmirrors⟩
  | collect s live =>
    dsimp only [store, expected] at hdirectory ⊢
    obtain ⟨hcollected, hmirrors⟩ := h.collect hkeys hdirectory hknown hfiles
    exact ⟨congrArg StoreAnswer.collected hcollected, hmirrors⟩

/-- A history answers as the map. -/
theorem answers (h : Mirrors place tasks before t) {calls : List StoreCall}
    (hkeys : ∀ a ∈ tasks, ∀ b ∈ tasks, Digest.ofText a = Digest.ofText b → a = b)
    (hdirectory : ∀ call ∈ calls, t.DirectoryAt call.store.dir place)
    (hknown : ∀ call ∈ calls, call.tasks ⊆ tasks) (hfits : ∀ call ∈ calls, call.Fits)
    (hfiles : AllUndisturbed t calls) : StoreCall.answers t calls = expectedAnswers before calls := by
  induction calls generalizing before t with
  | nil => rfl
  | cons call calls ih =>
    obtain ⟨hcall, hrest⟩ := hfiles
    obtain ⟨hanswer, hmirrors⟩ := h.perform hkeys (hdirectory call List.mem_cons_self)
      (hknown call List.mem_cons_self) (hfits call List.mem_cons_self) hcall
    have hanswers := ih hmirrors
      (fun c hc => (hdirectory c (List.mem_cons_of_mem call hc)).keeps (keeps_perform t call))
      (fun c hc => hknown c (List.mem_cons_of_mem call hc))
      (fun c hc => hfits c (List.mem_cons_of_mem call hc)) hrest
    rw [StoreCall.answers, expectedAnswers, hanswer, hanswers]

end Mirrors

/-! ## The map of a store in memory -/

/-- A store in memory that holds what is held, by whatever version it was saved. -/
structure MemoryStore.Holds (m : MemoryStore) (before : List StoreCall) : Prop where
  usable : m.poisoned = false
  find? : ∀ task, m.snapshots.find? task = (held task before).map (·.2)

namespace MemoryStore

variable {m : MemoryStore} {before : List StoreCall} {version : String}

theorem find?_forget (husable : m.poisoned = false) (task task' : String) :
    (m.forget task).snapshots.find? task' =
      if task = task' then none else m.snapshots.find? task' := by
  have hcompare : compare task' task = .eq ↔ task = task' :=
    Std.LawfulEqCmp.compare_eq_iff_eq.trans eq_comm
  rw [forget, if_neg (by simp [husable]), Table.find?_erase]
  simp only [hcompare]

theorem poisoned_forget (m : MemoryStore) (task : String) :
    (m.forget task).poisoned = m.poisoned := by
  unfold forget
  split <;> rfl

theorem poisoned_foldl_forget (m : MemoryStore) (stale : List String) :
    (stale.foldl forget m).poisoned = m.poisoned := by
  induction stale generalizing m with
  | nil => rfl
  | cons first stale ih => exact (ih (m.forget first)).trans (m.poisoned_forget first)

theorem find?_foldl_forget (husable : m.poisoned = false) (stale : List String) (task : String) :
    (stale.foldl forget m).snapshots.find? task =
      if task ∈ stale then none else m.snapshots.find? task := by
  induction stale generalizing m with
  | nil => rfl
  | cons first stale ih =>
    rw [List.foldl_cons, ih ((m.poisoned_forget first).trans husable), find?_forget husable]
    simp only [List.mem_cons, @eq_comm _ task]
    split_ifs <;> simp_all

namespace Holds

variable (h : m.Holds before)

include h

theorem load?_eq (task : String) : m.load? task = (held task before).map (·.2) := by
  rw [load?, if_neg (by simp [h.usable]), h.find?]

/-- The tasks that are kept are those that are held. -/
theorem keys_perm : m.snapshots.keys.Perm (heldTasks before) := by
  have hnodup : m.snapshots.keys.Nodup := by
    refine m.snapshots.keys_pairwise.imp fun {a b} hlt heq => ?_
    have hself : compare b b = .eq := Std.ReflCmp.compare_self
    rw [heq, hself] at hlt
    cases hlt
  refine (List.perm_ext_iff_of_nodup hnodup (nodup_heldTasks before)).2 fun task => ?_
  rw [mem_heldTasks, ← Table.contains_iff_mem_keys, Table.contains, h.find?]
  cases held task before <;> simp

/-- A call of a store in memory answers as the map, when there is one version only. -/
theorem performInMemory {call : StoreCall}
    (hversion : ∀ c ∈ call :: before, c.store.producer = version) :
    (call.performInMemory m).2 = call.expected before ∧
      (call.performInMemory m).1.Holds (call :: before) := by
  cases call with
  | save s task snapshot =>
    have hsave : m.save task snapshot =
        ({ m with snapshots := m.snapshots.insert task snapshot }, .ok ()) := by
      rw [MemoryStore.save, if_neg (by simp [h.usable])]
    simp only [StoreCall.performInMemory, hsave]
    refine ⟨rfl, h.usable, fun task' => ?_⟩
    rw [Table.find?_insert, held]
    simp only [Std.LawfulEqCmp.compare_eq_iff_eq, eq_comm (a := task'), h.find?]
    split_ifs <;> rfl
  | load s task =>
    refine ⟨?_, h.usable, h.find?⟩
    simp only [StoreCall.performInMemory, h.load?_eq, expected]
    refine congrArg _ ?_
    cases hheld : held task before with
    | none => rfl
    | some saved =>
      obtain ⟨producer, snapshot⟩ := saved
      obtain ⟨s', hs', rfl⟩ := exists_save_of_held hheld
      have hs : s.producer = version := hversion _ List.mem_cons_self
      have hs' : s'.producer = version := hversion _ (List.mem_cons_of_mem _ hs')
      simp [hs, hs']
  | remove s task =>
    refine ⟨?_, (m.poisoned_forget task).trans h.usable, fun task' => ?_⟩
    · simp only [StoreCall.performInMemory, h.load?_eq, expected, Option.isSome_map]
    · simp only [StoreCall.performInMemory, find?_forget h.usable, held, h.find?]
      split_ifs <;> rfl
  | collect s live =>
    have hperm := h.keys_perm.filter (· ∉ live)
    refine ⟨?_, (m.poisoned_foldl_forget _).trans h.usable, fun task => ?_⟩
    · simp only [StoreCall.performInMemory, expected, hperm.length_eq]
    · simp only [StoreCall.performInMemory, find?_foldl_forget h.usable, hperm.mem_iff, held,
        h.find?, List.mem_filter, mem_heldTasks, decide_eq_true_eq]
      by_cases hlive : task ∈ live
      · simp only [hlive, not_true_eq_false, and_false, if_false, if_true]
      · cases hheld : held task before <;> simp [hlive]

end Holds

end MemoryStore

namespace StoreCall

theorem expectedAnswers_eq_inMemory {m : MemoryStore} {before calls : List StoreCall}
    (h : m.Holds before) {version : String} (hbefore : ∀ call ∈ before, call.store.producer = version)
    (hcalls : ∀ call ∈ calls, call.store.producer = version) :
    expectedAnswers before calls = answersInMemory m calls := by
  induction calls generalizing m before with
  | nil => rfl
  | cons call calls ih =>
    obtain ⟨hcall, hrest⟩ := List.forall_mem_cons.1 hcalls
    have hversion : ∀ c ∈ call :: before, c.store.producer = version :=
      List.forall_mem_cons.2 ⟨hcall, hbefore⟩
    obtain ⟨hanswer, hholds⟩ := h.performInMemory hversion
    rw [expectedAnswers, answersInMemory, hanswer, ih hholds hversion hrest]

/-- **Stores of one directory are a map.** In a directory that is empty at first and that nothing
else writes, stores of any versions answer every history of calls as the map does, if the tasks have
different digests, what is saved is far from the limits and the file system does not fail. When
there is one version only, that is how a store in memory answers. -/
theorem answers_eq_expected {t : FileTree} {place : Place} {calls : List StoreCall}
    (hdirectory : ∀ call ∈ calls, t.DirectoryAt call.store.dir place)
    (hempty : ∀ name, t.node? (name :: place) = none)
    (hkeys : ∀ a ∈ calls.flatMap tasks, ∀ b ∈ calls.flatMap tasks,
      Digest.ofText a = Digest.ofText b → a = b)
    (hfits : ∀ call ∈ calls, call.Fits) (hfiles : AllUndisturbed t calls) :
    answers t calls = expectedAnswers [] calls ∧
      ∀ version, (∀ call ∈ calls, call.store.producer = version) →
        answers t calls = answersInMemory .empty calls := by
  have hmirrors : Mirrors place (calls.flatMap tasks) [] t :=
    ⟨nofun, nofun, fun task _ => hempty _, fun name hname => absurd (hempty name) hname⟩
  have hknown : ∀ call ∈ calls, call.tasks ⊆ calls.flatMap tasks :=
    fun call hcall task htask => List.mem_flatMap.2 ⟨call, hcall, htask⟩
  have hanswers := hmirrors.answers hkeys hdirectory hknown hfits hfiles
  have hmemory : MemoryStore.empty.Holds [] := ⟨rfl, fun _ => rfl⟩
  refine ⟨hanswers, fun version hversion => ?_⟩
  rw [hanswers, expectedAnswers_eq_inMemory hmemory nofun hversion]

/-- Two versions with their stores in one directory, which they write differently. -/
def twoVersions : List StoreCall :=
  let first : DirectoryStore := ⟨.ofText ".", "1"⟩
  let second : DirectoryStore := ⟨.ofText "/c/", "2"⟩
  [save first "a" ∅, load first "a", load second "a", save second "a" ∅, load first "a",
    save first "b" ∅, collect second ["b"], remove first "b", remove first "b"]

theorem answers_twoVersions : answers (FileTree.within ["c"]) twoVersions =
    [.saved (.ok ()), .loaded (some ∅), .loaded none, .saved (.ok ()), .loaded none,
      .saved (.ok ()), .collected (.ok 1), .removed (.ok true), .removed (.ok false)] := by
  have hempty (name : String) : (FileTree.within ["c"]).node? (name :: ["c"]) = none := by
    have hkeys : (FileTree.within ["c"]).nodes.keys = [["c"]] := by decide +kernel
    by_contra h
    have hmem := Table.contains_iff_mem_keys.1 (Option.isSome_iff_ne_none.2 h)
    rw [hkeys] at hmem
    simp at hmem
  exact (answers_eq_expected (by decide +kernel) hempty (by decide +kernel) (by decide +kernel)
    (by decide +kernel)).1

end StoreCall

end Recompile
