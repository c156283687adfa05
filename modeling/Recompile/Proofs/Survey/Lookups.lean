import Recompile.Proofs.Survey.Search

/-!
# What a survey looks at

A survey asks the disk whether a candidate is a file, and what a file holds, and remembers all of it
(`Survey.lookups`). Each of its steps only adds to that. So a step can be made again on any other
disk that answers alike what the survey remembers after it, and comes to the same result: the next
question is the same, as it hangs on the answers so far (`Survey.resolveAll_same`,
`Survey.Search.run_same`).
-/

namespace Recompile

theorem Table.keys_subset_insert {κ β : Type} [Ord κ] [Std.TransOrd κ] (t : Table κ β) (k : κ)
    (v : β) : t.keys ⊆ (t.insert k v).keys := by
  obtain ⟨es, hes⟩ := t
  change es.map (·.1) ⊆ (insertEntry k v es).map (·.1)
  clear hes
  induction es with
  | nil => exact List.nil_subset _
  | cons e rest ih =>
    unfold insertEntry
    split
    · exact List.subset_cons_self ..
    · exact List.Subset.refl _
    · exact List.cons_subset_cons e.1 ih

/-- Something that is asked of the disk. -/
inductive Lookup where
  /-- Whether there is a file at the path. -/
  | test (p : Path)
  /-- What the file at the path holds. -/
  | read (p : Path)

/-- Two disks answer alike. Why a file cannot be read does not matter. -/
def Lookup.Same (disk disk' : Disk) : Lookup → Prop
  | test p => disk'.isFile p = disk.isFile p
  | read p => (disk'.read p).toOption = (disk.read p).toOption

instance (disk disk' : Disk) (l : Lookup) : Decidable (l.Same disk disk') :=
  match l with
  | .test p => inferInstanceAs (Decidable (disk'.isFile p = disk.isFile p))
  | .read p => inferInstanceAs (Decidable ((disk'.read p).toOption = (disk.read p).toOption))

theorem Except.toOption_eq_cases {ε α : Type} {x y : Except ε α} (h : x.toOption = y.toOption) :
    (∃ a, x = .ok a ∧ y = .ok a) ∨ ∃ e e', x = .error e ∧ y = .error e' := by
  cases x with
  | error e =>
    cases y with
    | error e' => exact .inr ⟨e, e', rfl, rfl⟩
    | ok b => cases h
  | ok a =>
    cases y with
    | error e' => cases h
    | ok b =>
      obtain rfl := Option.some.inj h
      exact .inl ⟨a, rfl, rfl⟩

variable {disk disk' : Disk}

/-! ## Tests -/

namespace SearchPath

/-- The tests that were made. -/
def lookups (s : SearchPath) : List Lookup := s.known.keys.map .test

variable {s : SearchPath}

theorem lookups_test (disk : Disk) (s : SearchPath) (p : Path) :
    s.lookups ⊆ (s.test disk p).2.lookups := by
  unfold test
  split
  · exact List.Subset.refl _
  · exact List.map_subset _ (Table.keys_subset_insert ..)

theorem test_same {p : Path} (h : ∀ l ∈ (s.test disk p).2.lookups, l.Same disk disk') :
    s.test disk' p = s.test disk p := by
  unfold test at h ⊢
  split at h
  · rfl
  · next hknown =>
    have hnew : s.known.contains p = false := by rw [Table.contains, hknown, Option.isSome_none]
    have hp : p ∈ (s.known.insert p (disk.isFile p)).keys :=
      (Table.mem_keys_insert_iff _ hnew).2 (.inl rfl)
    have htest : disk'.isFile p = disk.isFile p := h _ (List.mem_map_of_mem hp)
    rw [htest]

theorem lookups_firstOf (disk : Disk) (s : SearchPath) (cs : List Path) :
    s.lookups ⊆ (s.firstOf disk cs).2.lookups := by
  induction cs generalizing s with
  | nil => exact List.Subset.refl _
  | cons c cs ih =>
    have hfirst := lookups_test disk s c
    rw [firstOf]
    split
    · next h => rwa [h] at hfirst
    · next t h =>
      rw [h] at hfirst
      exact List.Subset.trans hfirst (ih t)

theorem firstOf_same {cs : List Path}
    (h : ∀ l ∈ (s.firstOf disk cs).2.lookups, l.Same disk disk') :
    s.firstOf disk' cs = s.firstOf disk cs := by
  induction cs generalizing s with
  | nil => rfl
  | cons c cs ih =>
    rw [firstOf] at h ⊢
    rw [firstOf]
    cases htest : s.test disk c with
    | mk is t =>
      rw [htest] at h
      cases is with
      | true =>
        rw [test_same (by rwa [htest]), htest]
      | false =>
        have hlater := lookups_firstOf disk t cs
        rw [test_same (by rw [htest]; exact fun l hl => h l (hlater hl)), htest]
        exact ih h

theorem lookups_locate (disk : Disk) (s : SearchPath) (d : Directive) (includer : Path) :
    s.lookups ⊆ (s.locate disk d includer).2.lookups := by
  have hfirst := lookups_firstOf disk s (candidates s.roots d includer)
  unfold locate
  split
  · exact List.Subset.refl _
  · split <;> next h => rwa [h] at hfirst

theorem locate_same {d : Directive} {includer : Path}
    (h : ∀ l ∈ (s.locate disk d includer).2.lookups, l.Same disk disk') :
    s.locate disk' d includer = s.locate disk d includer := by
  unfold locate at h ⊢
  cases hform : d.form with
  | expression => rfl
  | quoted =>
    rw [hform] at h
    rw [firstOf_same]
    dsimp only at h
    split at h <;> next hfirst => rwa [hfirst]
  | system =>
    rw [hform] at h
    rw [firstOf_same]
    dsimp only at h
    split at h <;> next hfirst => rwa [hfirst]

end SearchPath

/-! ## Readings -/

namespace Survey

/-- All that the survey has asked. -/
def lookups (s : Survey) : List Lookup := s.search.lookups ++ s.scans.keys.map .read

variable {s t : Survey}

theorem lookups_subset (hsearch : s.search.lookups ⊆ t.search.lookups)
    (hscans : s.scans.keys ⊆ t.scans.keys) : s.lookups ⊆ t.lookups :=
  List.append_subset.2 ⟨List.subset_append_of_subset_left _ hsearch,
    List.subset_append_of_subset_right _ (List.map_subset _ hscans)⟩

theorem lookups_readHeader (disk : Disk) (s : Survey) (p : Path) :
    s.lookups ⊆ (s.readHeader disk p).value.lookups := by
  unfold readHeader
  split
  · exact List.Subset.refl _
  · split <;> exact lookups_subset (List.Subset.refl _) (Table.keys_subset_insert ..)

theorem readHeader_same {p : Path}
    (h : ∀ l ∈ (s.readHeader disk p).value.lookups, l.Same disk disk') :
    (s.readHeader disk' p).value = (s.readHeader disk p).value := by
  unfold readHeader at h ⊢
  by_cases hscan : s.scans.contains p = true
  · rw [if_pos hscan, if_pos hscan]
  · rw [if_neg hscan] at h ⊢
    rw [if_neg hscan]
    have hkey (scan : Option FileScan) : p ∈ (s.scans.insert p scan).keys :=
      (Table.mem_keys_insert_iff _ (Bool.not_eq_true _ ▸ hscan)).2 (.inl rfl)
    have hread : (disk'.read p).toOption = (disk.read p).toOption := by
      cases hdisk : disk.read p <;> rw [hdisk] at h <;>
        exact hdisk ▸ h (.read p) (List.mem_append_right _ (List.mem_map_of_mem (hkey _)))
    obtain ⟨content, hread', hread⟩ | ⟨e, e', hread', hread⟩ := Except.toOption_eq_cases hread
    · rw [hread, hread']
    · rw [hread, hread']
      rfl

theorem lookups_resolve (disk : Disk) (includer : Path) (s : Survey) (d : Directive) :
    s.lookups ⊆ (s.resolve disk includer d).value.2.lookups := by
  have hlocate := s.search.lookups_locate disk d includer
  unfold resolve
  cases hsearch : s.search.locate disk d includer with
  | mk location search =>
    rw [hsearch] at hlocate
    have hafter : s.lookups ⊆ ({ s with search } : Survey).lookups :=
      lookups_subset hlocate (List.Subset.refl _)
    cases location with
    | found p => exact List.Subset.trans hafter (lookups_readHeader disk _ p)
    | notFound => exact hafter
    | notStatic => exact hafter

theorem resolve_same {includer : Path} {d : Directive}
    (h : ∀ l ∈ (s.resolve disk includer d).value.2.lookups, l.Same disk disk') :
    (s.resolve disk' includer d).value = (s.resolve disk includer d).value := by
  have hsearch : s.search.locate disk' d includer = s.search.locate disk d includer := by
    refine SearchPath.locate_same fun l hl => h l ?_
    unfold resolve
    cases hlocate : s.search.locate disk d includer with
    | mk location search =>
      rw [hlocate] at hl
      have hafter : l ∈ ({ s with search } : Survey).lookups := List.mem_append_left _ hl
      cases location with
      | found p => exact lookups_readHeader disk _ p hafter
      | notFound => exact hafter
      | notStatic => exact hafter
  unfold resolve at h ⊢
  rw [hsearch]
  cases hlocate : s.search.locate disk d includer with
  | mk location search =>
    rw [hlocate] at h
    cases location with
    | found p =>
      dsimp only at h ⊢
      simp only [Logged.value_bind, Logged.value_pure] at h ⊢
      rw [readHeader_same h]
    | notFound => rfl
    | notStatic => rfl

theorem lookups_resolveAll (disk : Disk) (includer : Path) (s : Survey) (ds : List Directive) :
    s.lookups ⊆ (s.resolveAll disk includer ds).value.2.lookups := by
  induction ds generalizing s with
  | nil => exact List.Subset.refl _
  | cons d ds ih => exact List.Subset.trans (lookups_resolve disk includer s d) (ih _)

/-- The directives of a file are resolved alike on a disk that answers alike. -/
theorem resolveAll_same {includer : Path} {ds : List Directive}
    (h : ∀ l ∈ (s.resolveAll disk includer ds).value.2.lookups, l.Same disk disk') :
    (s.resolveAll disk' includer ds).value = (s.resolveAll disk includer ds).value := by
  induction ds generalizing s with
  | nil => rfl
  | cons d ds ih =>
    have hfirst : (s.resolve disk' includer d).value = (s.resolve disk includer d).value :=
      resolve_same fun l hl => h l (lookups_resolveAll disk includer _ ds hl)
    simp only [resolveAll, Logged.value_bind, Logged.value_pure, hfirst]
    rw [ih h]

/-! ## Searches -/

namespace Search

theorem meetAll_survey (x : Search) (ps : List Path) : (ps.foldl meet x).survey = x.survey := by
  induction ps generalizing x with
  | nil => rfl
  | cons p ps ih => exact (ih (x.meet p)).trans (x.meet_survey p)

theorem visit_survey (disk : Disk) (x : Search) (p : Path) (scan : FileScan) :
    (visit disk x p scan).value.survey =
      (x.survey.resolveAll disk p scan.directives.all).value.2 := by
  simp only [visit, Logged.value_bind, Logged.value_pure, meetAll_survey]

theorem visit_same {x : Search} {p : Path} {scan : FileScan}
    (h : ∀ l ∈ (visit disk x p scan).value.survey.lookups, l.Same disk disk') :
    (visit disk' x p scan).value = (visit disk x p scan).value := by
  rw [visit_survey] at h
  simp only [visit, Logged.value_bind, Logged.value_pure, resolveAll_same h]

/-- One turn of the loop: a file of which nothing is known is passed over. -/
theorem run_skip {limit : Nat} {x : Search} {p : Path} {queue : List Path}
    (hqueue : x.queue = p :: queue) (hscan : x.survey.scan? p = none) :
    (run disk (limit + 1) x).value = (run disk limit { x with queue }).value := by
  rw [run]
  simp only [hqueue, hscan]

/-- A search that came to an end on one disk comes to the same end on a disk that answers alike, and
needs no higher limit there. -/
theorem run_same {limit limit' : Nat} (hlimit : limit ≤ limit') {x y : Search}
    (hrun : (run disk limit x).value = some y)
    (h : ∀ l ∈ y.survey.lookups, l.Same disk disk') :
    x.survey.lookups ⊆ y.survey.lookups ∧ (run disk' limit' x).value = some y := by
  induction limit generalizing x limit' with
  | zero =>
    cases hqueue : x.queue with
    | nil =>
      rw [run_nil hqueue] at hrun
      obtain rfl := Option.some.inj hrun
      exact ⟨List.Subset.refl _, run_nil hqueue⟩
    | cons p queue =>
      rw [run_zero hqueue] at hrun
      cases hrun
  | succ limit ih =>
    cases hqueue : x.queue with
    | nil =>
      rw [run_nil hqueue] at hrun
      obtain rfl := Option.some.inj hrun
      exact ⟨List.Subset.refl _, run_nil hqueue⟩
    | cons p queue =>
      obtain ⟨limit', rfl⟩ : ∃ n, limit' = n + 1 := ⟨limit' - 1, by omega⟩
      have hless := Nat.le_of_succ_le_succ hlimit
      cases hscan : x.survey.scan? p with
      | none =>
        rw [run_skip hqueue hscan] at hrun
        rw [run_skip hqueue hscan]
        exact ih hless hrun
      | some scan =>
        rw [run_cons hqueue hscan] at hrun
        obtain ⟨hsubset, hrest⟩ := ih hless hrun
        have hgrows : x.survey.lookups ⊆
            (visit disk { x with queue } p scan).value.survey.lookups := by
          rw [visit_survey]
          exact lookups_resolveAll disk p x.survey scan.directives.all
        rw [run_cons hqueue hscan, visit_same fun l hl => h l (hsubset hl)]
        exact ⟨List.Subset.trans hgrows hsubset, hrest⟩

end Search

/-! ## Whole surveys -/

/-- The sources up to the first that cannot be read. -/
def sourcesRead (disk : Disk) : List Path → List Path
  | [] => []
  | p :: rest => p :: if (disk.read p).isOk then sourcesRead disk rest else []

theorem sourcesRead_subset (disk : Disk) (ps : List Path) : sourcesRead disk ps ⊆ ps := by
  induction ps with
  | nil => exact List.Subset.refl _
  | cons p ps ih =>
    refine List.cons_subset_cons p ?_
    split
    · exact ih
    · exact List.nil_subset ps

theorem readSources_same {imports : Bool} {ps : List Path}
    (h : ∀ p ∈ sourcesRead disk ps, (Lookup.read p).Same disk disk') :
    (∀ scans, readSources disk imports ps = .ok scans → readSources disk' imports ps = .ok scans) ∧
    ∀ p e, readSources disk imports ps = .error (.unreadable p e) →
      ∃ e', readSources disk' imports ps = .error (.unreadable p e') := by
  induction ps with
  | nil => exact ⟨fun scans hscans => hscans, fun p e he => by cases he⟩
  | cons p ps ih =>
    rw [sourcesRead] at h
    have hread : (disk'.read p).toOption = (disk.read p).toOption := h p List.mem_cons_self
    simp only [readSources]
    obtain ⟨content, hread', hread⟩ | ⟨e', e, hread', hread⟩ := Except.toOption_eq_cases hread
    · rw [hread] at h
      obtain ⟨hok, herror⟩ := ih fun q hq => h q (List.mem_cons_of_mem p hq)
      rw [hread, hread']
      cases hrest : readSources disk imports ps with
      | ok scans =>
        simp only [hok scans hrest]
        exact ⟨fun _ heq => heq, fun q e heq => by cases heq⟩
      | error fault =>
        refine ⟨fun _ heq => (by cases heq), fun q e heq => ?_⟩
        obtain ⟨e', hrest'⟩ := herror q e (hrest.trans (by simpa using heq))
        exact ⟨e', by simp only [hrest']⟩
    · rw [hread, hread']
      refine ⟨fun _ heq => (by cases heq), fun q e₁ heq => ?_⟩
      cases heq
      exact ⟨e', rfl⟩

/-- The reading of the sources fails for nothing but a source that cannot be read. -/
theorem readSources_cases (disk : Disk) (imports : Bool) (ps : List Path) :
    (∃ p e, readSources disk imports ps = .error (.unreadable p e)) ∨
      ∃ scans, readSources disk imports ps = .ok scans := by
  induction ps with
  | nil => exact .inr ⟨[], rfl⟩
  | cons p ps ih =>
    rw [readSources]
    cases disk.read p with
    | error e => exact .inl ⟨p, e, rfl⟩
    | ok content =>
      rcases ih with ⟨q, e, hrest⟩ | ⟨scans, hrest⟩
      · exact .inl ⟨q, e, by rw [hrest]⟩
      · exact .inr ⟨_, by rw [hrest]⟩

/-- Where the reading of the sources stops. -/
theorem mem_of_readSources_eq_error {imports : Bool} {ps : List Path} {p : Path} {e : FileError}
    (h : readSources disk imports ps = .error (.unreadable p e)) :
    p ∈ ps ∧ disk.read p = .error e := by
  induction ps with
  | nil => cases h
  | cons q ps ih =>
    rw [readSources] at h
    split at h
    · next e' hread =>
      cases h
      exact ⟨List.mem_cons_self, hread⟩
    · split at h
      · next fault hrest =>
        cases h
        obtain ⟨hmem, hread⟩ := ih hrest
        exact ⟨List.mem_cons_of_mem q hmem, hread⟩
      · cases h

/-- If one source cannot be read and all others can, the reading stops at the one. -/
theorem readSources_eq_error {imports : Bool} {ps : List Path} {p : Path} {e : FileError}
    (hp : p ∈ ps) (hread : disk.read p = .error e)
    (hothers : ∀ q ∈ ps, q ≠ p → ∃ content, disk.read q = .ok content) :
    readSources disk imports ps = .error (.unreadable p e) := by
  induction ps with
  | nil => cases hp
  | cons q ps ih =>
    rw [readSources]
    by_cases hq : q = p
    · rw [hq, hread]
    · obtain ⟨content, hcontent⟩ := hothers q List.mem_cons_self hq
      have hrest := ih ((List.mem_cons.1 hp).resolve_left (Ne.symm hq))
        fun r hr => hothers r (List.mem_cons_of_mem q hr)
      rw [hcontent, hrest]

/-- A survey fails for a source that cannot be read when the reading of the sources does. -/
theorem scan_eq_unreadable {limit : Nat} {ps : List Path} {snapshot : Snapshot} {p : Path}
    {e : FileError} : (s.scan disk limit ps snapshot).value = .error (.unreadable p e) ↔
      readSources disk s.imports ps = .error (.unreadable p e) := by
  unfold scan
  cases readSources disk s.imports ps with
  | error fault => simp only [Logged.value_pure, Except.error.injEq]
  | ok scans =>
    simp only [Logged.value_bind]
    split <;> exact ⟨fun h => (by cases h), fun h => (by cases h)⟩

/-- A survey that is made again on a disk that answers alike finds the same. -/
theorem scan_same {limit limit' : Nat} (hlimit : limit ≤ limit') {ps : List Path}
    {snapshot found : Snapshot}
    (hscan : (s.scan disk limit ps snapshot).value = .ok (t, found))
    (hsources : ∀ p ∈ sourcesRead disk ps, (Lookup.read p).Same disk disk')
    (h : ∀ l ∈ t.lookups, l.Same disk disk') :
    (s.scan disk' limit' ps snapshot).value = .ok (t, found) := by
  unfold scan at hscan ⊢
  cases hread : readSources disk s.imports ps with
  | error e =>
    rw [hread] at hscan
    cases hscan
  | ok scans =>
    rw [hread] at hscan
    rw [(readSources_same hsources).1 scans hread]
    simp only [Logged.value_bind] at hscan ⊢
    split at hscan
    · next y hrun =>
      cases hscan
      have hmore : limit + ps.length + s.scans.size ≤ limit' + ps.length + s.scans.size := by omega
      obtain ⟨-, hrun'⟩ := Search.run_same hmore hrun h
      rw [hrun']
      rfl
    · cases hscan

end Survey

end Recompile
