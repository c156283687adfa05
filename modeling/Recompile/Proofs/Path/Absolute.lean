import Recompile.Proofs.Path.Pieces
import Recompile.SearchPath
import Recompile.Settings

/-!
# Absolute paths

An absolute path stays absolute when anything is joined to it, and its parent and its normal form
are absolute too. So the search directories of an absolute file are absolute when the include roots
are, the candidates in them are (`SearchPath.isAbsolute_of_mem_candidates`), and the settings of a
project in an absolute directory hold absolute paths only (`Settings.isAbsolute_resolve`).
-/

namespace Recompile

namespace Path

variable {p q : Path}

theorem isAbsolute_normalize (p : Path) : p.normalize.isAbsolute = p.isAbsolute :=
  p.segments_normalize.1

theorem isAbsolute_iff_toList : p.isAbsolute = true ↔ ∃ cs, p.text.toList = '/' :: cs := by
  rw [isAbsolute, beq_iff_eq, List.head?_eq_some_iff]

/-- What begins like an absolute path is absolute. -/
theorem isAbsolute_ofText_append (h : p.isAbsolute = true) (s : String) :
    (ofText (p.text ++ s)).isAbsolute = true := by
  obtain ⟨cs, hcs⟩ := isAbsolute_iff_toList.1 h
  rw [isAbsolute_iff_toList, text_ofText, String.toList_append, hcs]
  exact ⟨_, rfl⟩

theorem isAbsolute_join (h : p.isAbsolute = true) (q : Path) : (p.join q).isAbsolute = true := by
  unfold join
  split
  · next hq => exact hq
  · split
    · exact isAbsolute_ofText_append h q.text
    · rw [String.append_assoc]
      exact isAbsolute_ofText_append h ("/" ++ q.text)

theorem isAbsolute_parent (h : p.isAbsolute = true) (hq : p.parent = some q) :
    q.isAbsolute = true := by
  unfold parent at hq
  simp only [h, if_true] at hq
  split at hq
  · cases hq
  · obtain rfl := Option.some.inj hq
    rw [isAbsolute_iff_toList, text_ofText, String.toList_ofList]
    exact ⟨_, rfl⟩

end Path

/-- Whatever the value of a directive, its candidates are absolute if the file that holds it and the
include roots are. -/
theorem SearchPath.isAbsolute_of_mem_candidates {roots : List Path}
    (hroots : ∀ r ∈ roots, r.isAbsolute = true) {d : Directive} {includer c : Path}
    (hincluder : includer.isAbsolute = true) (hc : c ∈ candidates roots d includer) :
    c.isAbsolute = true := by
  have hdirectories : ∀ dir ∈ directories roots d includer, dir.isAbsolute = true := by
    intro dir hdir
    unfold directories at hdir
    cases hform : d.form with
    | expression => simp [hform] at hdir
    | system => exact hroots dir (by simpa [hform] using hdir)
    | quoted =>
      rw [hform] at hdir
      rcases List.mem_append.1 hdir with hparent | hroot
      · exact Path.isAbsolute_parent hincluder (Option.mem_toList.1 hparent)
      · exact hroots dir hroot
  obtain ⟨dir, hdir, rfl⟩ := List.mem_map.1 hc
  rw [Path.isAbsolute_normalize]
  exact Path.isAbsolute_join (hdirectories dir hdir) _

/-- The sources and the include roots of a project in an absolute directory are absolute. -/
theorem Settings.isAbsolute_resolve (config : Config) {projectDir : Path}
    (h : projectDir.isAbsolute = true) {p : Path}
    (hp : p ∈ (resolve config projectDir).sources ∨ p ∈ (resolve config projectDir).roots) :
    p.isAbsolute = true := by
  have hanchor (s : String) : (projectDir.joinText s).normalize.isAbsolute = true := by
    rw [Path.isAbsolute_normalize]
    exact Path.isAbsolute_join h _
  rcases hp with hp | hp
  · obtain ⟨s, -, rfl⟩ := List.mem_map.1 hp
    exact hanchor s
  · obtain ⟨s, -, rfl⟩ := List.mem_map.1 hp
    exact hanchor s

end Recompile
