import Recompile.Proofs.Diff.Invalidation
import Recompile.Proofs.FileTree.Names
import Recompile.Proofs.Path.Absolute

/-!
# One node for each file

A header can be reached through many spellings, and a file that stood in the include graph under
two of them would be two nodes, of which an edit might reach only one. Every path that a comparison
puts out is tracked (`Compilation.Names.mem_files`), and a tracked path is its own normal form. If
the sources and the include roots are absolute, so is every tracked path, and then the place of a
file in a tree tells its path (`FileTree.eq_nameOf_of_isAbsolute`). So no file has two nodes
(`compute_oneNode`).
-/

namespace Recompile

/-- A path that a comparison puts out. -/
inductive Compilation.Names (c : Compilation) : Path → Prop
  | source {p : Path} (h : p ∈ c.state.sources.keys) : c.Names p
  | tracked {p : Path} (h : p ∈ c.state.files.keys) : c.Names p
  /-- What a state says of its own path. -/
  | state {p : Path} {f : FileState} (h : (p, f) ∈ c.state.files.entries) : c.Names f.path
  /-- The header that a directive of a tracked file is resolved to. -/
  | resolved {p q : Path} {f : FileState} {i : Include} {digest : Digest}
    (hf : (p, f) ∈ c.state.files.entries) (hi : i ∈ f.includes)
    (h : i.outcome = .resolved q digest) : c.Names q
  | recompiled {p : Path} (h : p ∈ c.recompile.keys) : c.Names p
  | header {p : Path} (h : p ∈ c.headers.keys) : c.Names p

section Tracked

variable {disk : Disk} {roots : List Path} {imports : Bool} {sources : List Path} {p : Path}

theorem Tracked.isAbsolute (h : Tracked disk roots imports sources p)
    (hsources : ∀ s ∈ sources, s.isAbsolute = true) (hroots : ∀ r ∈ roots, r.isAbsolute = true) :
    p.isAbsolute = true := by
  induction h with
  | source hs =>
    rw [Path.isAbsolute_normalize]
    exact hsources _ hs
  | header _ _ _ hlocate _ ih =>
    have hmem := List.mem_of_find?_eq_some (Disk.locate_eq_found.1 hlocate)
    exact SearchPath.isAbsolute_of_mem_candidates hroots ih hmem

end Tracked

namespace FileTree

variable {t : FileTree} {p q : Path}

/-- Two absolute normal paths that lead to one place are spelled alike. -/
theorem eq_of_locate_eq {place : Place} (hp : p.IsNormal) (hq : q.IsNormal)
    (hpa : p.isAbsolute = true) (hqa : q.isAbsolute = true) (hlp : t.locate p = .ok place)
    (hlq : t.locate q = .ok place) : p = q :=
  (eq_nameOf_of_isAbsolute hp hpa hlp).trans (eq_nameOf_of_isAbsolute hq hqa hlq).symm

end FileTree

/-- Whatever a comparison puts out is a tracked file of its final state. -/
theorem Compilation.Names.mem_files {disk : Disk} {roots : List Path} {imports : Bool}
    {sources : List Path} {c : Compilation} (hexact : c.Exact disk roots imports sources)
    (hrecompile : ∀ p ∈ c.recompile.keys, p ∈ c.state.sources.keys) {p : Path} (h : c.Names p) :
    p ∈ c.state.files.keys := by
  have hsource : ∀ q ∈ c.state.sources.keys, q ∈ c.state.files.keys := by
    intro q hq
    obtain ⟨s, hs, rfl⟩ := (hexact.mem_sources q).1 hq
    exact (hexact.mem_files _).2 (.source hs)
  cases h with
  | source h => exact hsource p h
  | tracked h => exact h
  | state h => exact (hexact.recorded _ _ h).1 ▸ Table.mem_keys_of_mem h
  | resolved hf hi h =>
    obtain ⟨g, hg, -⟩ := hexact.resolved _ _ hf _ hi _ _ h
    exact Table.mem_keys_of_mem hg
  | recompiled h => exact hsource p (hrecompile p h)
  | header h => exact ((hexact.headers p).1 h).1

/-- **One node for each file.** Every path that a comparison puts out is its own normal form, in the
very spelling. If the sources and the include roots are absolute, as the settings of a project in an
absolute directory make them, all these paths are absolute; and in a tree every tracked path then
leads to a file that no other tracked path leads to. -/
theorem compute_oneNode {disk : Disk} {limit : Nat} {previous : Snapshot} {roots : List Path}
    {imports : Bool} {sources : List Path} {c : Compilation}
    (h : (Compilation.compute disk limit previous (.new imports (.ofRoots roots))
      sources).value = .ok c) :
    (∀ p, c.Names p → p.normalize = p) ∧
    (∀ (config : Config) (projectDir : Path), projectDir.isAbsolute = true →
      (∀ s ∈ (Settings.resolve config projectDir).sources, s.isAbsolute = true) ∧
      ∀ r ∈ (Settings.resolve config projectDir).roots, r.isAbsolute = true) ∧
    ((∀ s ∈ sources, s.isAbsolute = true) → (∀ r ∈ roots, r.isAbsolute = true) →
      (∀ p, c.Names p → p.isAbsolute = true) ∧
      ∀ t : FileTree, disk = t.disk → ∀ p ∈ c.state.files.keys, ∃ place content,
        t.locate p = .ok place ∧ t.node? place = some (.file content) ∧
          ∀ q ∈ c.state.files.keys, t.locate q = .ok place → q = p) := by
  have hdescribes := Compilation.compute_describes h
  obtain ⟨-, -, hbetween⟩ := Compilation.compute_eq_ok h
  have hexact : c.Exact disk roots imports sources :=
    hbetween ▸ Compilation.exact_of_describes hdescribes
  have hrecompile : ∀ p ∈ c.recompile.keys, p ∈ c.state.sources.keys := by
    intro p hp
    rw [hbetween] at hp
    exact (Table.mem_keys_filter_key.1 hp).1
  have htracked (p : Path) (hp : c.Names p) : Tracked disk roots imports sources p :=
    (hexact.mem_files p).1 (hp.mem_files hexact hrecompile)
  refine ⟨fun p hp => (htracked p hp).isNormal.normalize_eq, fun config projectDir hdir => ?_,
    fun hsources hroots => ⟨fun p hp => (htracked p hp).isAbsolute hsources hroots, ?_⟩⟩
  · exact ⟨fun s hs => Settings.isAbsolute_resolve config hdir (.inl hs),
      fun r hr => Settings.isAbsolute_resolve config hdir (.inr hr)⟩
  · rintro t rfl p hp
    obtain ⟨f, hf⟩ := Table.mem_keys_iff.1 hp
    obtain ⟨-, content, hread, -⟩ := hexact.recorded p f hf
    obtain ⟨place, hlocate, hnode⟩ := FileTree.lookup_eq_ok.1 (FileTree.read_eq_ok.1 hread)
    refine ⟨place, content, hlocate, hnode, fun q hq hlocate' => ?_⟩
    have hp := htracked p (.tracked hp)
    have hq := htracked q (.tracked hq)
    exact FileTree.eq_of_locate_eq hq.isNormal hp.isNormal (hq.isAbsolute hsources hroots)
      (hp.isAbsolute hsources hroots) hlocate' hlocate

/-- A directory with a source that includes its header in two spellings. -/
def spelledTwice : FileTree :=
  let t := FileTree.root.putDirectory [] "p"
  let t := t.putFile ["p"] "a.c" (Utf8.ofString "#include \"../p/./b.h\"\n#include \"/..//p/b.h\"\n")
  t.putFile ["p"] "b.h" (Utf8.ofString "1")

/-- The header is one node, and so is the source, which is given in two spellings. -/
theorem compute_oneNode_spelledTwice :
    let sources : List Path := [.ofText "/p//a.c", .ofText "/p/./x/../a.c"]
    ∃ c, (Compilation.compute spelledTwice.disk 2 ∅ (.new false (.ofRoots [])) sources).value =
        .ok c ∧ c.state.files.size = 2 ∧ c.headers.size = 1 ∧
      (∀ p, c.Names p → p.normalize = p ∧ p.isAbsolute = true) ∧
      ∀ p ∈ c.state.files.keys, ∀ q ∈ c.state.files.keys, p ≠ q →
        spelledTwice.locate p ≠ spelledTwice.locate q := by
  intro sources
  obtain ⟨c, hc, hsizes⟩ := Except.exists_ok_of_any
    (x := (Compilation.compute spelledTwice.disk 2 ∅ (.new false (.ofRoots [])) sources).value)
    (P := fun c => c.state.files.size == 2 && c.headers.size == 1) (by decide +kernel)
  obtain ⟨hfiles, hheaders⟩ := (Bool.and_eq_true _ _).mp hsizes
  obtain ⟨hnormal, -, habsolute⟩ := compute_oneNode hc
  obtain ⟨hall, hplaces⟩ := habsolute (by decide +kernel) (by decide)
  refine ⟨c, hc, eq_of_beq hfiles, eq_of_beq hheaders, fun p hp => ⟨hnormal p hp, hall p hp⟩, ?_⟩
  intro p hp q hq hne heq
  obtain ⟨place, content, hlocate, -, hunique⟩ := hplaces spelledTwice rfl p hp
  exact hne (hunique q hq (heq ▸ hlocate)).symm

end Recompile
