import Recompile.Proofs.Diff.FinalState

/-!
# What is compiled again

A source is compiled again when the build before did not have it, or when it reaches a file that is
a seed (`Compilation.contains_recompile`). A file is no seed when the build before recorded the same
of it, so along the files that a source reaches the graphs of both builds have the same edges
(`Reaches.congr`), and a source that is not compiled again stands before the very files, with the
very contents and outcomes, of the build before (`compute_invalidates`).
-/

namespace Recompile

theorem Except.exists_ok_of_any {ε α : Type} {x : Except ε α} {P : α → Bool}
    (h : x.toOption.any P = true) : ∃ a, x = .ok a ∧ P a = true := by
  cases x with
  | error e => cases h
  | ok a => exact ⟨a, rfl, h⟩

/-! ## Equal records -/

namespace Include

instance : ReflBEq Outcome where
  rfl := by
    intro o
    cases o with
    | resolved p digest =>
      change ((p == p) && (digest == digest)) = true
      simp
    | unresolved => rfl
    | unknown => rfl

instance : ReflBEq Include where
  rfl := by
    intro i
    change ((i.directive == i.directive) && (i.outcome == i.outcome)) = true
    simp

/-- Outcomes whose headers have normal paths are equal when they compare as equal. -/
theorem eq_of_beq_of_isNormal {i j : Include} (hi : ∀ q, i.path? = some q → q.IsNormal)
    (hj : ∀ q, j.path? = some q → q.IsNormal) (h : (i == j) = true) : i = j := by
  obtain ⟨d, o⟩ := i
  obtain ⟨d', o'⟩ := j
  change ((d == d') && (o == o')) = true at h
  obtain ⟨hd, ho⟩ := (Bool.and_eq_true _ _).mp h
  obtain rfl := LawfulBEq.eq_of_beq hd
  cases o <;> cases o' <;> try cases ho
  case resolved p digest q digest' =>
    change ((p == q) && (digest == digest')) = true at ho
    obtain ⟨hp, hdigest⟩ := (Bool.and_eq_true _ _).mp ho
    obtain rfl := (hi p rfl).eq_of_steps (hj q rfl) (Path.beq_iff.1 hp)
    obtain rfl := LawfulBEq.eq_of_beq hdigest
    rfl
  all_goals rfl

theorem all_eq_of_beq {is js : List Include}
    (hi : ∀ i ∈ is, ∀ q, i.path? = some q → q.IsNormal)
    (hj : ∀ j ∈ js, ∀ q, j.path? = some q → q.IsNormal) (h : (is == js) = true) : is = js := by
  induction is generalizing js with
  | nil =>
    cases js with
    | nil => rfl
    | cons j js => cases h
  | cons i is ih =>
    cases js with
    | nil => cases h
    | cons j js =>
      change ((i == j) && (is == js)) = true at h
      obtain ⟨hhead, hrest⟩ := (Bool.and_eq_true _ _).mp h
      rw [eq_of_beq_of_isNormal (hi i List.mem_cons_self) (hj j List.mem_cons_self) hhead,
        ih (fun i h => hi i (List.mem_cons_of_mem _ h)) (fun j h => hj j (List.mem_cons_of_mem _ h))
          hrest]

end Include

/-! ## Graphs that agree -/

namespace Reaches

variable {α : Type} {next next' : α → List α} {a b : α}

theorem of_agree (h : ∀ c, Reaches next a c → next c = next' c) (hb : Reaches next a b) :
    Reaches next' a b := by
  induction hb with
  | refl a => exact .refl a
  | @step a c b hc _ ih =>
    refine .step ?_ (ih fun d hd => h d (.step hc hd))
    rw [← h a (.refl a)]
    exact hc

/-- Two graphs with the same edges along what `a` reaches in one of them reach the same from it. -/
theorem congr (h : ∀ c, Reaches next a c → next c = next' c) :
    Reaches next a b ↔ Reaches next' a b := by
  refine ⟨of_agree h, fun hb => ?_⟩
  induction hb with
  | refl a => exact .refl a
  | @step a c b hc _ ih =>
    rw [← h a (.refl a)] at hc
    exact .step hc (ih fun d hd => h d (.step hc hd))

end Reaches

/-! ## Seeds -/

namespace Snapshot

/-- From `p` both snapshots reach the same files, and they recorded the same content and the same
outcomes in the same order for each. -/
def SameFrom (old new : Snapshot) (p : Path) : Prop :=
  (∀ q, Reaches old.headersOf p q ↔ Reaches new.headersOf p q) ∧
    ∀ q, Reaches new.headersOf p q → ∃ f g, old.file? q = some f ∧ new.file? q = some g ∧
      f.digest = g.digest ∧ f.includes = g.includes

/-- What keeps a source from being compiled again: it was a source before, all that it reaches is
known, and it stands before what the old snapshot recorded. -/
def LeavesAlone (old new : Snapshot) (p : Path) : Prop :=
  old.isSource p = true ∧
    (∀ q, Reaches new.headersOf p q → ∃ f, new.file? q = some f ∧ f.hasUnknown = false) ∧
    old.SameFrom new p

theorem SameFrom.symm {old new : Snapshot} {p : Path} (h : old.SameFrom new p) :
    new.SameFrom old p := by
  refine ⟨fun q => (h.1 q).symm, fun q hq => ?_⟩
  obtain ⟨f, g, hf, hg, hdigest, hincludes⟩ := h.2 q ((h.1 q).1 hq)
  exact ⟨g, f, hg, hf, hdigest.symm, hincludes.symm⟩

namespace Coherent

variable {old new : Snapshot}

theorem path?_isNormal (h : new.Coherent) {p q : Path} {f : FileState}
    (hf : (p, f) ∈ new.files.entries) {i : Include} (hi : i ∈ f.includes)
    (hq : i.path? = some q) : q.IsNormal :=
  h.normal q (h.closed p f hf q (List.mem_filterMap.2 ⟨i, hi, hq⟩))

/-- A file is unchanged when the snapshot before recorded the same content and outcomes. -/
theorem isChanged_eq_false (hold : old.Coherent) (hnew : new.Coherent) {p : Path} {f : FileState}
    (hf : (p, f) ∈ new.files.entries) : old.isChanged f = false ↔
      ∃ g, old.file? p = some g ∧ g.digest = f.digest ∧ g.includes = f.includes := by
  rw [isChanged, hnew.keyed p f hf]
  cases hg : old.file? p with
  | none => simp
  | some g =>
    have hentry : (p, g) ∈ old.files.entries :=
      (hold.file?_eq_some (hnew.normal p (Table.mem_keys_of_mem hf))).1 hg
    have hbeq : (g.includes == f.includes) = true ↔ g.includes = f.includes := by
      constructor
      · exact Include.all_eq_of_beq (fun i hi q => hold.path?_isNormal hentry hi)
          (fun i hi q => hnew.path?_isNormal hf hi)
      · intro h
        rw [h]
        exact BEq.rfl
    simp [bne, ← hbeq]

theorem mem_seeds (hnew : new.Coherent) {p : Path} : p ∈ old.seeds new ↔
    ∃ f, (p, f) ∈ new.files.entries ∧ (f.hasUnknown = true ∨ old.isChanged f = true) := by
  simp only [seeds, List.mem_map, List.mem_filter, hnew.mem_fileStates, Bool.or_eq_true]
  constructor
  · rintro ⟨f, ⟨hf, hseed⟩, rfl⟩
    exact ⟨f, hf, hseed⟩
  · rintro ⟨f, hf, hseed⟩
    obtain rfl := hnew.keyed p f hf
    exact ⟨f, ⟨hf, hseed⟩, rfl⟩

/-- Two snapshots are the same from a file on when nothing that it reaches in the new one has
changed: the edges along the way are then those of the old one. -/
theorem sameFrom_iff (hold : old.Coherent) (hnew : new.Coherent) {p : Path}
    (hp : p ∈ new.files.keys) : old.SameFrom new p ↔
      ∀ q f, Reaches new.headersOf p q → (q, f) ∈ new.files.entries →
        old.isChanged f = false := by
  constructor
  · rintro ⟨-, hsame⟩ q f hq hf
    obtain ⟨g, f', hg, hf', hdigest, hincludes⟩ := hsame q hq
    obtain rfl := Option.some.inj ((new.files.find?_of_mem hf).symm.trans hf')
    exact (isChanged_eq_false hold hnew hf).2 ⟨g, hg, hdigest, hincludes⟩
  · intro hclean
    have hsame : ∀ q, Reaches new.headersOf p q → ∃ f g, old.file? q = some f ∧
        new.file? q = some g ∧ f.digest = g.digest ∧ f.includes = g.includes := by
      intro q hq
      obtain ⟨g, hg⟩ := Table.mem_keys_iff.1 (hnew.reaches hp hq)
      obtain ⟨f, hf, hdigest, hincludes⟩ :=
        (isChanged_eq_false hold hnew hg).1 (hclean q g hq hg)
      exact ⟨f, g, hf, new.files.find?_of_mem hg, hdigest, hincludes⟩
    have hedges : ∀ q, Reaches new.headersOf p q → new.headersOf q = old.headersOf q := by
      intro q hq
      obtain ⟨f, g, hf, hg, -, hincludes⟩ := hsame q hq
      simp only [headersOf, hf, hg, Option.elim_some, FileState.headers, hincludes]
    exact ⟨fun q => (Reaches.congr hedges).symm, hsame⟩

end Coherent

end Snapshot

/-! ## Compilations -/

namespace Compilation

variable {old new : Snapshot}

theorem mem_keys_recompile (hnew : new.Coherent) {s : Path} :
    s ∈ (between old new).recompile.keys ↔
      s ∈ new.sources.keys ∧ (between old new).recompile.contains s = true := by
  constructor
  · intro h
    exact ⟨(Table.mem_keys_filter_key.1 h).1, Table.contains_of_mem_keys h⟩
  · rintro ⟨hs, h⟩
    have hkeys : ∀ p ∈ (between old new).recompile.keys, p.IsNormal := by
      intro p hp
      exact hnew.normal p (hnew.source p (Table.mem_keys_filter_key.1 hp).1)
    exact (Path.mem_keys_iff_contains hkeys (hnew.normal s (hnew.source s hs))).2 h

/-- A source is compiled again when it was no source before or reaches a seed. -/
theorem contains_recompile (hnew : new.Coherent) {s : Path} (hs : s ∈ new.sources.keys) :
    (between old new).recompile.contains s = true ↔ old.isSource s = false ∨
      ∃ p f, Reaches new.headersOf s p ∧ (p, f) ∈ new.files.entries ∧
        (f.hasUnknown = true ∨ old.isChanged f = true) := by
  have hnormal : ∀ p ∈ old.seeds new, p.IsNormal := by
    intro p hp
    obtain ⟨f, hf, -⟩ := hnew.mem_seeds.1 hp
    exact hnew.normal p (Table.mem_keys_of_mem hf)
  rw [← (mem_keys_recompile hnew).trans (and_iff_right hs)]
  simp only [between, Table.mem_keys_filter_key, hs, true_and, Bool.or_eq_true, Bool.not_eq_true']
  rw [hnew.contains_dependents hnormal (hnew.source s hs)]
  refine or_congr_right ⟨?_, ?_⟩
  · rintro ⟨p, hseed, hreach⟩
    obtain ⟨f, hf, hseed⟩ := hnew.mem_seeds.1 hseed
    exact ⟨p, f, hreach, hf, hseed⟩
  · rintro ⟨p, f, hreach, hf, hseed⟩
    exact ⟨p, hnew.mem_seeds.2 ⟨f, hf, hseed⟩, hreach⟩

theorem isSource_of_contains_recompile {p : Path}
    (h : (between old new).recompile.contains p = true) : new.isSource p = true := by
  obtain ⟨q, hq, heq⟩ := (Table.contains_iff _).1 h
  rw [Snapshot.isSource, Table.contains_congr _ heq]
  exact Table.contains_of_mem_keys (Table.mem_keys_filter_key.1 hq).1

theorem contains_recompile_eq_false (hold : old.Coherent) (hnew : new.Coherent) {s : Path}
    (hs : s ∈ new.sources.keys) :
    (between old new).recompile.contains s = false ↔ old.LeavesAlone new s := by
  have hkey := hnew.source s hs
  rw [← Bool.not_eq_true, contains_recompile hnew hs, Snapshot.LeavesAlone,
    Snapshot.Coherent.sameFrom_iff hold hnew hkey]
  constructor
  · intro hnone
    refine ⟨?_, fun p hp => ?_, fun p f hp hf => ?_⟩
    · by_contra hsource
      exact hnone (.inl (Bool.not_eq_true _ ▸ hsource))
    · obtain ⟨f, hf⟩ := Table.mem_keys_iff.1 (hnew.reaches hkey hp)
      refine ⟨f, new.files.find?_of_mem hf, ?_⟩
      exact Bool.not_eq_true _ ▸ fun hunknown => hnone (.inr ⟨p, f, hp, hf, .inl hunknown⟩)
    · exact Bool.not_eq_true _ ▸ fun hchanged => hnone (.inr ⟨p, f, hp, hf, .inr hchanged⟩)
  · rintro ⟨hsource, hknown, hclean⟩ (hgone | ⟨p, f, hp, hf, hseed⟩)
    · rw [hsource] at hgone
      cases hgone
    · obtain ⟨g, hg, hunknown⟩ := hknown p hp
      obtain rfl := Option.some.inj ((new.files.find?_of_mem hf).symm.trans hg)
      rw [hunknown, hclean p f hp hf] at hseed
      simp at hseed

end Compilation

/-- **What is not compiled again is what has not changed.** Of two comparisons of which the second
is made with the final state of the first, whatever happened to the disk, the sources, the include
roots and the meaning of `#import` in between, the second leaves a source alone exactly when it was
a source of the first, nothing that it reaches has headers that cannot all be known, and it reaches
the same files as before, each with the same content and the same outcomes. -/
theorem compute_invalidates {disk₀ disk : Disk} {limit₀ limit : Nat} {previous : Snapshot}
    {roots₀ roots : List Path} {imports₀ imports : Bool} {sources₀ sources : List Path}
    {a b : Compilation}
    (ha : (Compilation.compute disk₀ limit₀ previous (.new imports₀ (.ofRoots roots₀))
      sources₀).value = .ok a)
    (hb : (Compilation.compute disk limit a.state (.new imports (.ofRoots roots))
      sources).value = .ok b) {s : Path} (hs : s ∈ sources) :
    b.recompile.contains s.normalize = false ↔ (∃ r ∈ sources₀, r.normalize = s.normalize) ∧
      (∀ p, Reaches b.state.headersOf s.normalize p →
        ∃ f, b.state.file? p = some f ∧ f.hasUnknown = false) ∧
      a.state.SameFrom b.state s.normalize := by
  have hold := Compilation.compute_describes ha
  have hnew := Compilation.compute_describes hb
  obtain ⟨-, -, hbetween⟩ := Compilation.compute_eq_ok hb
  have hsource : s.normalize ∈ b.state.sources.keys := (hnew.mem_sources _).2 ⟨s, hs, rfl⟩
  rw [hbetween, Compilation.contains_recompile_eq_false hold.coherent hnew.coherent hsource,
    Snapshot.LeavesAlone, hold.coherent.isSource_iff (Path.isNormal_normalize s), hold.mem_sources]
  exact Iff.rfl

/-- A header is edited: the source that includes it is compiled again, the other one stands before
what was recorded. -/
theorem compute_invalidates_editedHeader :
    let before : Disk := .ofFiles [("a.c", "#include \"b.h\"\n"), ("b.h", "1"), ("c.c", "int c;")]
    let after : Disk := .ofFiles [("a.c", "#include \"b.h\"\n"), ("b.h", "2"), ("c.c", "int c;")]
    let sources : List Path := [.ofText "a.c", .ofText "c.c"]
    ∃ a b, (Compilation.compute before 3 ∅ (.new false (.ofRoots [])) sources).value = .ok a ∧
      (Compilation.compute after 3 a.state (.new false (.ofRoots [])) sources).value = .ok b ∧
      b.recompile.contains (Path.ofText "a.c").normalize = true ∧
      a.state.SameFrom b.state (Path.ofText "c.c").normalize := by
  intro before after sources
  let left (b : Compilation) : Bool := b.recompile.contains (Path.ofText "a.c").normalize &&
    !b.recompile.contains (Path.ofText "c.c").normalize
  obtain ⟨a, ha, hrest⟩ := Except.exists_ok_of_any
    (x := (Compilation.compute before 3 ∅ (.new false (.ofRoots [])) sources).value)
    (P := fun a => (Compilation.compute after 3 a.state (.new false (.ofRoots []))
      sources).value.toOption.any left) (by decide +kernel)
  obtain ⟨b, hb, hleft⟩ := Except.exists_ok_of_any hrest
  obtain ⟨hheader, hother⟩ := (Bool.and_eq_true _ _).mp hleft
  have hc : Path.ofText "c.c" ∈ sources := List.mem_cons_of_mem _ List.mem_cons_self
  obtain ⟨-, -, hsame⟩ := (compute_invalidates ha hb hc).1 (by simpa using hother)
  exact ⟨a, b, ha, hb, hheader, hsame⟩

end Recompile
