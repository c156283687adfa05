import Recompile.Proofs.Diff.Lookups
import Recompile.Proofs.Diff.Nodes
import Recompile.Proofs.Survey.Reuse

/-!
# The search for headers ends

Directives can spell one header in any number of ways, each longer than the one before, so the texts
of the files do not bound a search. The names do: what is taken from the queue, what is remembered
as met and what is remembered as read are all kept under normal names, and an absolute normal name
tells the file. `Search.taken` lists what some turns take from the queue and `Search.readings` what
they read. The first is what they record and the second is what is new among the readings remembered
(`Search.Linked.taken_perm`, `Search.readings_perm`), and a table has no key twice. As all that is
met is reached from the sources, there is no more of it than there are files
(`Search.met_size_le_files`), and the queue comes to be empty (`search_ends`).
-/

namespace Recompile

namespace Survey

/-! ## What is read -/

section Readings

variable {disk disk' : Disk} {includer : Path} {s : Survey}

/-- What is read to resolve a directive: the header it leads to, unless that was read before. -/
def readings (disk : Disk) (includer : Path) (s : Survey) (d : Directive) : List Path :=
  match (s.search.locate disk d includer).1 with
  | .found p => if s.scans.contains p then [] else [p]
  | _ => []

/-- What is read to resolve the directives of a file, one after the other. -/
def readingsAll (disk : Disk) (includer : Path) (s : Survey) : List Directive → List Path
  | [] => []
  | d :: ds => s.readings disk includer d ++
      readingsAll disk includer (s.resolve disk includer d).value.2 ds

/-- What is read is remembered, and nothing else is new. -/
theorem readings_perm (d : Directive) : (s.resolve disk includer d).value.2.scans.keys.Perm
    (s.readings disk includer d ++ s.scans.keys) := by
  unfold resolve readings
  rcases s.search.locate disk d includer with ⟨location, search⟩
  cases location with
  | notFound => exact .refl _
  | notStatic => exact .refl _
  | found p =>
    simp only [Logged.value_bind, Logged.value_pure]
    unfold readHeader
    cases hread : s.scans.contains p with
    | true => exact .refl _
    | false =>
      rw [if_neg Bool.false_ne_true, if_neg Bool.false_ne_true]
      split <;> exact Table.keys_insert_perm _ hread

theorem readingsAll_perm (ds : List Directive) :
    (s.resolveAll disk includer ds).value.2.scans.keys.Perm
      (s.readingsAll disk includer ds ++ s.scans.keys) := by
  induction ds generalizing s with
  | nil => exact .refl _
  | cons d ds ih =>
    simp only [resolveAll, readingsAll, Logged.value_bind, Logged.value_pure]
    rw [List.append_assoc]
    exact ih.trans (((readings_perm d).append_left _).trans (List.perm_append_comm_assoc ..))

end Readings

namespace Search

variable {disk disk' : Disk} {x : Search} {n : Nat}

/-- What one turn of the loop reads. -/
def turnReadings (disk : Disk) (x : Search) : List Path :=
  match x.queue with
  | [] => []
  | p :: _ => (x.survey.scan? p).elim [] fun scan =>
      x.survey.readingsAll disk p scan.directives.all

/-- What the first `n` turns of the loop read, in that order. -/
def readings (disk : Disk) (x : Search) (n : Nat) : List Path :=
  (List.range n).flatMap fun i => turnReadings disk ((turn disk)^[i] x)

/-- What the first `n` turns of the loop take from the queue, in that order. -/
def taken (disk : Disk) (x : Search) (n : Nat) : List Path :=
  (List.range n).filterMap fun i => ((turn disk)^[i] x).queue.head?

theorem turnReadings_perm : (turn disk x).survey.scans.keys.Perm
    (turnReadings disk x ++ x.survey.scans.keys) := by
  unfold turnReadings turn
  cases x.queue with
  | nil => exact .refl _
  | cons p queue =>
    dsimp only
    cases x.survey.scan? p with
    | none => exact .refl _
    | some scan =>
      dsimp only
      rw [visit_survey]
      exact readingsAll_perm _

/-- What some turns read is what is new among the readings remembered. -/
theorem readings_perm : ((turn disk)^[n] x).survey.scans.keys.Perm
    (readings disk x n ++ x.survey.scans.keys) := by
  induction n with
  | zero => exact .refl _
  | succ n ih =>
    rw [Function.iterate_succ_apply', readings, List.range_succ, List.flatMap_append,
      List.flatMap_singleton, List.append_assoc]
    exact turnReadings_perm.trans ((ih.append_left _).trans (List.perm_append_comm_assoc ..))

/-- What some turns take from the queue is what they record. -/
theorem Linked.taken_perm (h : Linked [] x) : ((Search.turn disk)^[n] x).snapshot.files.keys.Perm
    (taken disk x n ++ x.snapshot.files.keys) := by
  induction n with
  | zero => exact .refl _
  | succ n ih =>
    rw [Function.iterate_succ_apply', taken, List.range_succ, List.filterMap_append]
    cases hqueue : ((Search.turn disk)^[n] x).queue with
    | nil =>
      rw [turn_nil hqueue, List.filterMap_cons_none (by rw [hqueue]; rfl), List.filterMap_nil,
        List.append_nil]
      exact ih
    | cons p queue =>
      rw [List.filterMap_cons_some (by rw [hqueue]; rfl), List.filterMap_nil, List.append_assoc]
      have hturn : (Search.turn disk ((Search.turn disk)^[n] x)).snapshot.files.keys.Perm _ :=
        (h.turns n).turn_files hqueue
      exact hturn.trans ((ih.cons p).trans List.perm_middle.symm)

/-! ## Nothing else is read -/

theorem lookups_turn (disk : Disk) (x : Search) :
    x.survey.lookups ⊆ (turn disk x).survey.lookups := by
  unfold turn
  split
  · exact List.Subset.refl _
  · split
    · rw [visit_survey]
      exact lookups_resolveAll disk _ _ _
    · exact List.Subset.refl _

theorem turn_same (h : ∀ l ∈ (turn disk x).survey.lookups, l.Same disk disk') :
    turn disk' x = turn disk x := by
  cases hqueue : x.queue with
  | nil => rw [turn_nil hqueue, turn_nil hqueue]
  | cons p queue =>
    cases hscan : x.survey.scan? p with
    | none => rw [turn_skip hqueue hscan, turn_skip hqueue hscan]
    | some scan =>
      rw [turn_cons hqueue hscan] at h
      rw [turn_cons hqueue hscan, turn_cons hqueue hscan]
      exact visit_same h

/-- On a disk that answers alike the same turns are made. -/
theorem turns_same (h : ∀ l ∈ ((turn disk)^[n] x).survey.lookups, l.Same disk disk') :
    (turn disk')^[n] x = (turn disk)^[n] x := by
  induction n with
  | zero => rw [Function.iterate_zero_apply, Function.iterate_zero_apply]
  | succ n ih =>
    rw [Function.iterate_succ_apply'] at h
    rw [Function.iterate_succ_apply', Function.iterate_succ_apply',
      ih fun l hl => h l (lookups_turn disk _ hl), turn_same h]

/-! ## Where a search begins -/

theorem enterAll_scans (x : Search) (scans : List (Path × FileScan)) :
    (scans.foldl (fun x e => x.enter e.1 e.2) x).survey.scans =
      scans.foldl (fun t e => t.insert e.1 (some e.2)) x.survey.scans := by
  induction scans generalizing x with
  | nil => rfl
  | cons e scans ih =>
    rw [List.foldl_cons, ih, enter_eq, meet_survey]
    rfl

/-- Nothing is recorded when a search begins. -/
theorem files_entered (s : Survey) (scans : List (Path × FileScan)) :
    (entered s scans).snapshot.files = ∅ := by
  have hfiles : ∀ x : Search, (scans.foldl (fun x e => x.enter e.1 e.2) x).snapshot.files =
      x.snapshot.files := by
    induction scans with
    | nil => exact fun _ => rfl
    | cons e scans ih =>
      intro x
      rw [List.foldl_cons, ih, enter_eq, meet_snapshot]
      rfl
  exact hfiles ⟨s, [], ∅, ∅⟩

/-- A search that begins with a new survey and ordered sources remembers the sources. -/
theorem keys_entered (imports : Bool) (search : SearchPath) {scans : List (Path × FileScan)}
    (h : (scans.map (·.1)).Pairwise fun p q => compare p q = .lt) :
    (entered (.new imports search) scans).survey.scans.keys = scans.map (·.1) := by
  have hentries : (scans.map fun e => (e.1, some e.2)).Pairwise
      fun (x y : Path × Option FileScan) => compare x.1 y.1 = .lt :=
    List.pairwise_map.2 (List.pairwise_map.1 h)
  have hinsert := Table.foldl_insert_entries (∅ : Table Path (Option FileScan)) hentries
  rw [List.foldl_map] at hinsert
  rw [entered, enterAll_scans, Table.keys]
  refine (congrArg (List.map (·.1)) hinsert).trans ?_
  rw [List.map_append, List.map_map]
  rfl

section Entered

variable {imports : Bool} {names : List Path} {scans : List (Path × FileScan)}

/-- What a search has recorded after some turns is what these took from the queue. -/
theorem files_turns (s : Survey) (scans : List (Path × FileScan)) (n : Nat) :
    ((turn disk)^[n] (entered s scans)).snapshot.files.keys.Perm
      (taken disk (entered s scans) n) := by
  have hperm : ((turn disk)^[n] (entered s scans)).snapshot.files.keys.Perm _ :=
    (linked_entered s scans).taken_perm
  rw [files_entered] at hperm
  exact hperm.trans (.of_eq (List.append_nil _))

variable (search : SearchPath) (hread : readSources disk imports names = .ok scans)
  (hordered : names.Pairwise fun p q => compare p q = .lt)

include hread hordered

/-- What a search remembers as read after some turns are its sources and what these turns read. -/
theorem scans_turns (n : Nat) :
    ((turn disk)^[n] (entered (.new imports search) scans)).survey.scans.keys.Perm
      (names ++ readings disk (entered (.new imports search) scans) n) := by
  obtain ⟨hmap, -⟩ := readSources_spec hread
  have hentered : (entered (.new imports search) scans).survey.scans.keys = names :=
    (keys_entered imports search (hmap ▸ hordered)).trans hmap
  have hperm : ((turn disk)^[n] (entered (.new imports search) scans)).survey.scans.keys.Perm _ :=
    readings_perm
  rw [hentered] at hperm
  exact hperm.trans List.perm_append_comm

/-- A search depends on what it reads and on which files there are. -/
theorem turns_same_of_read (hfile : ∀ p, disk'.isFile p = disk.isFile p)
    (hsame : ∀ p ∈ names ++ readings disk (entered (.new imports search) scans) n,
      (disk'.read p).toOption = (disk.read p).toOption) :
    readSources disk' imports names = .ok scans ∧
      (turn disk')^[n] (entered (.new imports search) scans) =
        (turn disk)^[n] (entered (.new imports search) scans) := by
  constructor
  · refine (readSources_same fun p hp => hsame p ?_).1 scans hread
    exact List.mem_append_left _ (sourcesRead_subset disk names hp)
  · refine turns_same fun l hl => ?_
    rcases List.mem_append.1 hl with hl | hl
    · obtain ⟨p, -, rfl⟩ := List.mem_map.1 hl
      exact hfile p
    · obtain ⟨p, hp, rfl⟩ := List.mem_map.1 hl
      exact hsame p ((scans_turns search hread hordered n).mem_iff.1 hp)

end Entered

/-! ## What there is to meet -/

/-- All that was met has been reached, after any number of turns. -/
theorem Inv.turns {names : Path → Prop} {roots : List Path} {imports : Bool}
    {given sources : List Path} (h : Inv disk names roots imports given sources [] x)
    (hone : disk.Unambiguous names) (hsub : ∀ p ∈ given, p ∈ sources) (n : Nat) :
    Inv disk names roots imports given sources [] ((Search.turn disk)^[n] x) := by
  induction n with
  | zero => exact h
  | succ n ih =>
    rw [Function.iterate_succ_apply']
    cases hqueue : ((Search.turn disk)^[n] x).queue with
    | nil => rwa [turn_nil hqueue]
    | cons p queue =>
      obtain ⟨scan, hscan, hdisk⟩ := ih.next_scan hqueue
      rw [turn_cons hqueue hscan]
      exact ih.visit hone hsub hqueue hdisk

section Absolute

variable {t : FileTree} {roots given sources sources' : List Path} {imports : Bool}

/-- If sources and include roots are absolute, no more files are met than there are. -/
theorem met_size_le_files
    (h : Inv t.disk Path.IsNormal roots imports given sources' [] x)
    (hgiven : ∀ p, p ∈ given ↔ ∃ s ∈ sources, s.normalize = p)
    (hsources : ∀ s ∈ sources, s.isAbsolute = true) (hroots : ∀ r ∈ roots, r.isAbsolute = true) :
    x.met.size ≤ t.files.length := by
  have hnodup : x.met.keys.Nodup := Table.nodup_of_ordered x.met.keys_pairwise
  have hsubset : x.met.keys ⊆ t.files.map fun place => t.nameOf place none := by
    intro p hp
    have hknown := h.met_known p hp
    have htracked : Tracked t.disk roots imports sources p :=
      (reached_iff_tracked hgiven).1 hknown.reached
    obtain ⟨content, hread⟩ := hknown.readable
    exact FileTree.mem_map_nameOf hknown.name (htracked.isAbsolute hsources hroots) hread
  have hle := (hnodup.subperm hsubset).length_le
  rwa [Table.keys, List.length_map, List.length_map] at hle

/-- So it is after any number of turns of a search that begins with such sources. -/
theorem met_turns_le {scans : List (Path × FileScan)}
    (hread : readSources t.disk imports given = .ok scans)
    (hgiven : ∀ p, p ∈ given ↔ ∃ s ∈ sources, s.normalize = p)
    (hsources : ∀ s ∈ sources, s.isAbsolute = true) (hroots : ∀ r ∈ roots, r.isAbsolute = true)
    (n : Nat) : ((Search.turn t.disk)^[n]
      (entered (.new imports (.ofRoots roots)) scans)).met.size ≤ t.files.length := by
  have hnormal : ∀ p ∈ given, p.IsNormal := by
    intro p hp
    obtain ⟨s, -, rfl⟩ := (hgiven p).1 hp
    exact s.isNormal_normalize
  have hinv : Inv t.disk Path.IsNormal roots imports given ([] ++ given) []
      (entered (.new imports (.ofRoots roots)) scans) :=
    inv_entered (agrees_new t.disk _ roots imports) t.disk.unambiguous_isNormal
      Snapshot.records_empty hnormal hread
  exact met_size_le_files (hinv.turns t.disk.unambiguous_isNormal (fun _ hp => hp) n) hgiven
    hsources hroots

end Absolute

end Search

end Survey

open Survey in
/-- **The search for headers ends.** Let a tree and absolute sources and include roots be given. If
a source cannot be read the comparison fails for it before the search begins. Otherwise the queue is
empty after as many turns as the tree has files, and the comparison has the state that these turns
have made. However many turns are made, what they take from the queue are different names, no more
than there are files; and what they read are different names too, none of them a source, as those
were read before. Nothing else is read: on a disk with the same files, on which the sources and what
was read hold the same, the same turns are made. -/
theorem search_ends (t : FileTree) {sources roots : List Path}
    (hsources : ∀ s ∈ sources, s.isAbsolute = true) (hroots : ∀ r ∈ roots, r.isAbsolute = true)
    (imports : Bool) (previous : Snapshot) {limit : Nat} (hlimit : t.files.length ≤ limit) :
    let names := (Table.setOf (sources.map Path.normalize)).keys
    let survey := Survey.new imports (.ofRoots roots)
    let result := (Compilation.compute t.disk limit previous survey sources).value
    (∃ p e, readSources t.disk imports names = .error (.unreadable p e) ∧
      result = .error (.unreadable p e)) ∨
    ∃ scans, readSources t.disk imports names = .ok scans ∧
      let x := Search.entered survey scans
      let turns (n : Nat) := (Search.turn t.disk)^[n] x
      ((turns t.files.length).queue = [] ∧
        result = .ok (.between previous (turns t.files.length).snapshot)) ∧
      ∀ n,
        ((Search.taken t.disk x n).length ≤ t.files.length ∧
          (Search.taken t.disk x n).Pairwise fun p q => p.steps ≠ q.steps) ∧
        ((names ++ Search.readings t.disk x n).Pairwise fun p q => p.steps ≠ q.steps) ∧
        ∀ disk : Disk, (∀ p, disk.isFile p = t.disk.isFile p) →
          (∀ p ∈ names ++ Search.readings t.disk x n,
            (disk.read p).toOption = (t.disk.read p).toOption) →
          readSources disk imports names = .ok scans ∧ (Search.turn disk)^[n] x = turns n := by
  intro names survey result
  have hgiven (p : Path) : p ∈ names ↔ ∃ s ∈ sources, s.normalize = p := Compilation.mem_keys_names
  have hordered : names.Pairwise fun p q => compare p q = .lt := Table.keys_pairwise _
  rcases readSources_cases t.disk imports names with ⟨p, e, hread⟩ | ⟨scans, hread⟩
  · exact .inl ⟨p, e, hread, Compilation.compute_eq_unreadable.2 hread⟩
  refine .inr ⟨scans, hread, ?_⟩
  intro x turns
  have hlinked : Search.Linked [] x := Search.linked_entered survey scans
  have hmet (n : Nat) : (turns n).met.size ≤ t.files.length :=
    Search.met_turns_le hread hgiven hsources hroots n
  have hqueue : (turns t.files.length).queue = [] := hlinked.queue_turns_of_met (hmet _)
  have hscan : (survey.scan t.disk limit names ∅).value = _ :=
    scan_eq_turns hread hqueue (by omega)
  have htaken (n : Nat) : (turns n).snapshot.files.keys.Perm (Search.taken t.disk x n) :=
    Search.files_turns survey scans n
  refine ⟨⟨hqueue, Compilation.compute_eq_ok_iff.2 ⟨_, hscan, rfl⟩⟩, fun n => ⟨⟨?_, ?_⟩, ?_, ?_⟩⟩
  · have hturns : Search.Linked [] (turns n) := hlinked.turns n
    have hlength : (turns n).snapshot.files.size = _ :=
      (List.length_map _).symm.trans (htaken n).length_eq
    have hsize := hturns.size_met
    have hfiles := hmet n
    omega
  · exact Table.steps_ne_of_perm (htaken n)
  · exact Table.steps_ne_of_perm (Search.scans_turns _ hread hordered n)
  · exact fun disk hfile hsame => Search.turns_same_of_read _ hread hordered hfile hsame

/-- A source and a header that include each other and themselves, the header in longer spellings. -/
def includeCycle : FileTree :=
  let t := FileTree.root.putDirectory [] "p"
  let t := t.putFile ["p"] "a.c" (Utf8.ofString "#include \"../p/b.h\"\n#include \"/p/a.c\"\n")
  t.putFile ["p"] "b.h" (Utf8.ofString "#include \"../p/../p/b.h\"\n#include \"../../p/./a.c\"\n")

open Survey in
/-- Two turns take two files, and the header is read once. -/
theorem search_ends_includeCycle :
    let disk := includeCycle.disk
    let survey := Survey.new false (.ofRoots [])
    ∃ scans c, readSources disk false [.ofText "/p/a.c"] = .ok scans ∧
      (Compilation.compute disk 2 ∅ survey [.ofText "/p/a.c"]).value = .ok c ∧
      let x := Search.entered survey scans
      ((Search.turn disk)^[2] x).queue = [] ∧
        c.state = ((Search.turn disk)^[2] x).snapshot ∧
        (Search.taken disk x 7).map Path.text = ["/p/a.c", "/p/b.h"] ∧
        (Search.readings disk x 7).map Path.text = ["/p/b.h"] ∧
        (Search.taken disk x 7).Pairwise fun p q => p.steps ≠ q.steps := by
  intro disk survey
  have hfiles : includeCycle.files.length = 2 := by decide +kernel
  have hnames : (Table.setOf ([Path.ofText "/p/a.c"].map Path.normalize)).keys =
      [.ofText "/p/a.c"] := by
    have hnormal : (Path.ofText "/p/a.c").normalize = .ofText "/p/a.c" :=
      Path.ext (by decide +kernel)
    rw [List.map_singleton, hnormal]
    rfl
  have htraced : ((readSources disk false [.ofText "/p/a.c"]).toOption.map fun scans =>
      ((Search.taken disk (Search.entered survey scans) 7).map Path.text,
        (Search.readings disk (Search.entered survey scans) 7).map Path.text)) =
      some (["/p/a.c", "/p/b.h"], ["/p/b.h"]) := by
    decide +kernel
  have hends := @search_ends includeCycle [.ofText "/p/a.c"] [] (by decide +kernel) (by decide)
    false ∅ 2 hfiles.le
  rw [hnames, hfiles] at hends
  rcases hends with ⟨p, e, hread, -⟩ | ⟨scans, hread, ⟨hqueue, hresult⟩, hall⟩
  · rw [hread] at htraced
    cases htraced
  · rw [hread] at htraced
    obtain ⟨htaken, hreadings⟩ := Prod.mk.inj (Option.some.inj htraced)
    obtain ⟨⟨-, hdistinct⟩, -⟩ := hall 7
    exact ⟨scans, _, hread, hresult, hqueue, rfl, htaken, hreadings, hdistinct⟩

end Recompile
