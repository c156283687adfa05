import Recompile.Proofs.Store.Calls

/-!
# Temporary files that were left behind

A save that is cut short may leave its temporary file, with anything in it. Nobody reads that file:
two trees that differ in it only (`FileTree.SameBut`) give the same answers to every call of stores
whose directories are there, and the saves among the calls work in the one as in the other
(`FileTree.SameBut.answers`).
-/

namespace Recompile

open DirectoryStore

namespace FileTree

/-- Two trees that are the same but for what file there is at a place, if there is any. No name in
them holds a slash. -/
structure SameBut (place : Place) (t t' : FileTree) : Prop where
  cwd : t'.cwd = t.cwd
  node? : ∀ q ≠ place, t'.node? q = t.node? q
  left : t.node? place ≠ some .directory
  right : t'.node? place ≠ some .directory
  plain : ∀ name q, t.node? (name :: q) ≠ none → '/' ∉ name.toList

/-- Two results that are the same, and the trees that go with them are the same but for a place. -/
structure Agree {α : Type} (place : Place) (x x' : FileTree × α) : Prop where
  tree : SameBut place x.1 x'.1
  result : x'.2 = x.2

/-- The results of a change that fails alike in two trees or leaves them the same but for a place. -/
inductive Alike (place : Place) : Except FileError FileTree → Except FileError FileTree → Prop
  | error (e : FileError) : Alike place (.error e) (.error e)
  | ok {t t' : FileTree} : SameBut place t t' → Alike place (.ok t) (.ok t')

namespace SameBut

variable {place q : Place} {t t' : FileTree} {p : Path} {name : String}

/-- A file that is dropped is all that is missing. -/
theorem of_dropFile (hplain : ∀ q ∈ t.nodes.keys, ∀ name ∈ q, '/' ∉ name.toList)
    (hname : t.node? (name :: q) ≠ some .directory) :
    SameBut (name :: q) t (t.dropFile q name) where
  cwd := (keeps_dropFile t q name).cwd
  node? x hx := by rw [node?_dropFile hname, if_neg hx]
  left := hname
  right := by
    rw [node?_dropFile hname, if_pos rfl]
    nofun
  plain piece x hx := by
    have hcontains : t.nodes.contains (piece :: x) = true := Option.isSome_iff_ne_none.2 hx
    exact hplain _ (Table.contains_iff_mem_keys.1 hcontains) piece List.mem_cons_self

theorem directory_iff (h : SameBut place t t') :
    t'.node? q = some .directory ↔ t.node? q = some .directory := by
  by_cases hq : q = place
  · rw [hq]
    exact iff_of_false h.right h.left
  · rw [h.node? q hq]

theorem keeps (h : SameBut place t t') : t.Keeps t' :=
  ⟨h.cwd, fun _ hq => h.directory_iff.2 hq⟩

theorem putFile (h : SameBut place t t') (hname : '/' ∉ name.toList) (q : Place)
    (content : Bytes) : SameBut place (t.putFile q name content) (t'.putFile q name content) := by
  by_cases hput : t.node? q = some .directory ∧ t.node? (name :: q) ≠ some .directory
  · have hput' := And.intro (h.directory_iff.2 hput.1) (h.directory_iff.not.2 hput.2)
    refine ⟨?_, fun x hx => ?_, ?_, ?_, fun name' x hx => ?_⟩
    · rw [(keeps_putFile ..).cwd, (keeps_putFile ..).cwd, h.cwd]
    · rw [node?_putFile hput.1 hput.2, node?_putFile hput'.1 hput'.2, h.node? x hx]
    · rw [node?_putFile hput.1 hput.2]
      split
      · nofun
      · exact h.left
    · rw [node?_putFile hput'.1 hput'.2]
      split
      · nofun
      · exact h.right
    · rw [node?_putFile hput.1 hput.2] at hx
      split at hx
      · next heq => exact (List.cons.inj heq).1 ▸ hname
      · exact h.plain name' x hx
  · have hput' : ¬(t'.node? q = some .directory ∧ t'.node? (name :: q) ≠ some .directory) := by
      rwa [h.directory_iff, Ne, h.directory_iff]
    unfold FileTree.putFile
    rwa [dif_neg hput, dif_neg hput']

theorem dropFile (h : SameBut place t t') (q : Place) (name : String) :
    SameBut place (t.dropFile q name) (t'.dropFile q name) := by
  by_cases hname : t.node? (name :: q) ≠ some .directory
  · have hname' := h.directory_iff.not.2 hname
    refine ⟨?_, fun x hx => ?_, ?_, ?_, fun name' x hx => ?_⟩
    · rw [(keeps_dropFile ..).cwd, (keeps_dropFile ..).cwd, h.cwd]
    · rw [node?_dropFile hname, node?_dropFile hname', h.node? x hx]
    · rw [node?_dropFile hname]
      split
      · nofun
      · exact h.left
    · rw [node?_dropFile hname']
      split
      · nofun
      · exact h.right
    · rw [node?_dropFile hname] at hx
      split at hx
      · exact absurd rfl hx
      · exact h.plain name' x hx
  · have hname' : ¬t'.node? (name :: q) ≠ some .directory := by rwa [Ne, h.directory_iff]
    unfold FileTree.dropFile
    rwa [dif_neg hname, dif_neg hname']

/-! ## One operation at the path of an entry -/

variable (h : SameBut place t t') (hname : Step.IsName name) (henter : t.enter p = .ok q)

include h henter

theorem enter : t'.enter p = .ok q := enter_keeps h.keeps henter

include hname

theorem write (content : Bytes) :
    Alike place (t.write (p.joinText name) content) (t'.write (p.joinText name) content) := by
  cases hfault : (p.joinText name).fault? with
  | some e =>
    rw [write_of_fault hfault, write_of_fault hfault]
    exact .error e
  | none =>
    rw [write_joinText hname hfault, write_joinText hname hfault, henter, h.enter henter,
      Except.ok_bind, Except.ok_bind]
    unfold entry?
    split
    · exact .error _
    · have hput : Alike place (.ok (t.putFile q name content)) (.ok (t'.putFile q name content)) :=
        .ok (h.putFile hname.2.2.2 q content)
      have hdirectory := h.directory_iff (q := name :: q)
      rw [Except.ok_bind, Except.ok_bind]
      split
      · next hnode =>
        rw [hdirectory.2 hnode]
        exact .error _
      · next hnode =>
        split
        · next hnode' => exact absurd (hdirectory.1 hnode') hnode
        · exact hput

variable (hne : name :: q ≠ place)

include hne

theorem read : t'.read (p.joinText name) = t.read (p.joinText name) := by
  cases hfault : (p.joinText name).fault? with
  | some e => rw [read_of_fault hfault, read_of_fault hfault]
  | none =>
    rw [read_joinText hname hfault, read_joinText hname hfault, henter, h.enter henter,
      Except.ok_bind, Except.ok_bind, entry?, entry?, h.node? _ hne]

theorem remove : Alike place (t.remove (p.joinText name)) (t'.remove (p.joinText name)) := by
  cases hfault : (p.joinText name).fault? with
  | some e =>
    rw [FileTree.remove_of_fault hfault, FileTree.remove_of_fault hfault]
    exact .error e
  | none =>
    rw [remove_joinText hname hfault, remove_joinText hname hfault, henter, h.enter henter,
      Except.ok_bind, Except.ok_bind, entry?, entry?, h.node? _ hne]
    split
    · exact .error _
    · rw [Except.ok_bind, Except.ok_bind]
      cases t.node? (name :: q) with
      | none => exact .error _
      | some node =>
        cases node with
        | directory => exact .error _
        | file _ => exact .ok (h.dropFile q name)

end SameBut

end FileTree

open FileTree

/-! ## One call -/

namespace DirectoryStore

variable {s : DirectoryStore} {t t' : FileTree} {home place : Place} {owner task : String}

theorem snapshotName_cons_ne (task owner : String) (place home : Place) :
    snapshotName task :: place ≠ stagingName owner :: home :=
  fun heq => snapshotName_ne_stagingName task owner (List.cons.inj heq).1

/-- What is collected is no temporary file. -/
theorem cons_ne_of_isStale {liveKeys : List String} {name : String}
    (h : IsStale liveKeys name) (place : Place) :
    name :: place ≠ stagingName owner :: home := fun heq =>
  not_isStale_stagingName owner ((List.cons.inj heq).1 ▸ h)

variable (h : SameBut (stagingName owner :: home) t t') (henter : t.enter s.dir = .ok place)

include h henter

theorem readSnapshot_sameBut (task : String) : s.readSnapshot t' task = s.readSnapshot t task := by
  have hread := h.read (isName_snapshotName task) henter (snapshotName_cons_ne task owner place home)
  unfold readSnapshot
  rw [← snapshotPath_eq] at hread
  generalize s.snapshotPath task = path at hread ⊢
  dsimp only
  rw [hread]

theorem load_sameBut (task : String) : s.load t' task = s.load t task := by
  unfold load
  rw [readSnapshot_sameBut h henter]

theorem stage_sameBut (task : String) (content : Bytes) :
    (∃ e, s.stage t task content = .error e ∧ s.stage t' task content = .error e) ∨
      ∃ t₁ t₁', s.stage t task content = .ok t₁ ∧ s.stage t' task content = .ok t₁' ∧
        SameBut (stagingName owner :: home) t₁ t₁' := by
  have hwrite := h.write (isName_stagingName task) henter content
  unfold stage
  rw [← stagingPath_eq] at hwrite
  generalize s.stagingPath task = path at hwrite ⊢
  generalize t.write path content = x, t'.write path content = x' at hwrite ⊢
  cases hwrite with
  | error e => exact .inl ⟨_, rfl, rfl⟩
  | ok h => exact .inr ⟨_, _, rfl, rfl, h⟩

theorem commit_sameBut {content : Bytes} (hfault : (s.stagingPath task).fault? = none)
    (hstaged : t.fileAt? (stagingName task :: place) = some content)
    (hstaged' : t'.fileAt? (stagingName task :: place) = some content) :
    Agree (stagingName owner :: home) (s.commit t task) (s.commit t' task) := by
  have hwrite := h.write (isName_snapshotName task) henter content
  rw [commit_of_staged hfault henter hstaged, commit_of_staged hfault (h.enter henter) hstaged',
    snapshotPath_eq]
  generalize s.dir.joinText (snapshotName task) = path at hwrite ⊢
  generalize t.write path content = x, t'.write path content = x' at hwrite ⊢
  cases hwrite with
  | error e => exact ⟨h.dropFile place _, rfl⟩
  | ok h => exact ⟨h.dropFile place _, rfl⟩

theorem save_sameBut (task : String) (snapshot : Snapshot) :
    Agree (stagingName owner :: home) (s.save t task snapshot).value
      (s.save t' task snapshot).value := by
  obtain ⟨result, hprepare⟩ := s.prepare_of_enter
  cases result with
  | error e =>
    unfold save
    rw [hprepare henter, hprepare (h.enter henter)]
    exact ⟨h, rfl⟩
  | ok _ =>
    rw [value_save (hprepare henter), value_save (hprepare (h.enter henter))]
    cases SnapshotFile.encode s.producer task snapshot with
    | error fault => exact ⟨h, rfl⟩
    | ok content =>
      dsimp only
      obtain ⟨e, hstage, hstage'⟩ | ⟨t₁, t₁', hstage, hstage', h₁⟩ :=
        stage_sameBut h henter task content
      · rw [hstage, hstage']
        exact ⟨h, rfl⟩
      · rw [hstage, hstage']
        obtain ⟨hfault, hfile⟩ := fileAt?_stage henter hstage
        exact commit_sameBut h₁ (enter_keeps (keeps_stage hstage) henter) hfault hfile
          (fileAt?_stage (h.enter henter) hstage').2

theorem remove_sameBut (task : String) :
    (∃ e, s.remove t task = .error e ∧ s.remove t' task = .error e) ∨
      ∃ found t₁ t₁', s.remove t task = .ok (found, t₁) ∧ s.remove t' task = .ok (found, t₁') ∧
        SameBut (stagingName owner :: home) t₁ t₁' := by
  have hremove := h.remove (isName_snapshotName task) henter
    (snapshotName_cons_ne task owner place home)
  unfold remove
  rw [← snapshotPath_eq] at hremove
  generalize s.snapshotPath task = path at hremove ⊢
  dsimp only
  generalize t.remove path = x, t'.remove path = x' at hremove ⊢
  cases hremove with
  | ok h => exact .inr ⟨true, _, _, rfl, rfl, h⟩
  | error e =>
    cases e with
    | notFound => exact .inr ⟨false, t, t', rfl, rfl, h⟩
    | _ => exact .inl ⟨_, rfl, rfl⟩

theorem removeEntries_sameBut {names : List String}
    (hnames : ∀ name ∈ names, Step.IsName name ∧ name :: place ≠ stagingName owner :: home) :
    Agree (stagingName owner :: home) (s.removeEntries t names) (s.removeEntries t' names) := by
  induction names generalizing t t' with
  | nil => exact ⟨h, rfl⟩
  | cons name names ih =>
    obtain ⟨hname, hne⟩ := hnames name List.mem_cons_self
    have hremove := h.remove hname henter hne
    have hkeeps {t₁ : FileTree} (h : t.remove (s.dir.joinText name) = .ok t₁) : t.Keeps t₁ :=
      FileTree.keeps_remove h
    simp only [removeEntries]
    generalize s.dir.joinText name = path at hremove hkeeps ⊢
    generalize t.remove path = x, t'.remove path = x' at hremove hkeeps ⊢
    cases hremove with
    | error e => exact ⟨h, rfl⟩
    | ok h₁ =>
      exact ih h₁ (enter_keeps (hkeeps rfl) henter) fun n hn =>
        hnames n (List.mem_cons_of_mem name hn)

theorem collectNamed_sameBut {live : List String} {names names' : List Bytes}
    (hstale : names.filterMap (stale? (live.map key)) = names'.filterMap (stale? (live.map key)))
    (hslash : ∀ name, Utf8.ofString name ∈ names → '/' ∉ name.toList) :
    Agree (stagingName owner :: home) (s.collectNamed t live names)
      (s.collectNamed t' live names') := by
  have hremove : Agree (stagingName owner :: home)
      (s.removeEntries t (names.filterMap (stale? (live.map key))))
      (s.removeEntries t' (names.filterMap (stale? (live.map key)))) := by
    refine removeEntries_sameBut h henter fun name hname => ?_
    obtain ⟨hname, hstale⟩ := mem_filterMap_stale?.1 hname
    exact ⟨isName_of_isStale hstale (hslash name hname), cons_ne_of_isStale hstale place⟩
  unfold collectNamed
  rw [← hstale]
  generalize names.filterMap (stale? (live.map key)) = stale at hremove ⊢
  dsimp only
  generalize s.removeEntries t stale = x, s.removeEntries t' stale = x' at hremove ⊢
  obtain ⟨t₁, result⟩ := x
  obtain ⟨t₁', result'⟩ := x'
  obtain ⟨h₁, rfl⟩ := hremove
  cases result' with
  | error e => exact ⟨h₁, rfl⟩
  | ok _ => exact ⟨h₁, rfl⟩

/-- The entries that are collected are the same, as the temporary file is none of them. -/
theorem collect_sameBut (live : List String) :
    Agree (stagingName owner :: home) (s.collect t live).value (s.collect t' live).value := by
  cases hfault : s.dir.fault? with
  | some e =>
    have hexists (t : FileTree) : t.exists? s.dir = false := by
      rw [exists?, lookup_of_fault hfault]
      rfl
    unfold collect
    rw [hexists t, hexists t']
    exact ⟨h, rfl⟩
  | none =>
    have hdirectory := directoryAt_of_enter henter hfault
    obtain ⟨names, hnames, hsorted, hcollect⟩ := value_collect hdirectory live
    obtain ⟨names', hnames', hsorted', hcollect'⟩ := value_collect (hdirectory.keeps h.keeps) live
    have hmem (name : String) : name ∈ names.filterMap (stale? (live.map key)) ↔
        name ∈ names'.filterMap (stale? (live.map key)) := by
      rw [mem_stale_iff hnames, mem_stale_iff hnames']
      exact and_congr_left fun hstale => by rw [h.node? _ (cons_ne_of_isStale hstale place)]
    rw [hcollect, hcollect']
    refine collectNamed_sameBut h henter (Table.eq_of_ordered hsorted hsorted' hmem)
      fun name hname => h.plain name place ?_
    rw [← entryAt?_ofString]
    exact (hnames.mem_iff _).1 hname

end DirectoryStore

/-! ## A history of calls -/

namespace FileTree.SameBut

open StoreCall

variable {t t' : FileTree} {home place : Place} {owner : String}

theorem perform (h : SameBut (stagingName owner :: home) t t') (call : StoreCall)
    (henter : t.enter call.store.dir = .ok place) :
    Agree (stagingName owner :: home) (call.perform t) (call.perform t') := by
  unfold StoreCall.perform
  cases call with
  | save s task snapshot =>
    dsimp only [store] at henter ⊢
    obtain ⟨htree, hresult⟩ := save_sameBut h henter task snapshot
    exact ⟨htree, congrArg StoreAnswer.saved hresult⟩
  | load s task =>
    dsimp only [store] at henter ⊢
    exact ⟨h, congrArg (fun loaded => StoreAnswer.loaded loaded.value) (load_sameBut h henter task)⟩
  | remove s task =>
    dsimp only [store] at henter ⊢
    obtain ⟨e, hremove, hremove'⟩ | ⟨found, t₁, t₁', hremove, hremove', h₁⟩ :=
      remove_sameBut h henter task
    · rw [hremove, hremove']
      exact ⟨h, rfl⟩
    · rw [hremove, hremove']
      exact ⟨h₁, rfl⟩
  | collect s live =>
    dsimp only [store] at henter ⊢
    obtain ⟨htree, hresult⟩ := collect_sameBut h henter live
    exact ⟨htree, congrArg StoreAnswer.collected hresult⟩

/-- A temporary file that was left behind changes no answer. -/
theorem answers (h : SameBut (stagingName owner :: home) t t') {calls : List StoreCall}
    (henter : ∀ call ∈ calls, ∃ place, t.enter call.store.dir = .ok place) :
    StoreCall.answers t' calls = StoreCall.answers t calls := by
  induction calls generalizing t t' with
  | nil => rfl
  | cons call calls ih =>
    obtain ⟨place, hplace⟩ := henter call List.mem_cons_self
    obtain ⟨htree, hresult⟩ := h.perform call hplace
    have hrest := ih htree fun c hc =>
      (henter c (List.mem_cons_of_mem call hc)).imp fun _ hc => enter_keeps (keeps_perform t call) hc
    rw [StoreCall.answers, StoreCall.answers, hresult, hrest]

end FileTree.SameBut

end Recompile
