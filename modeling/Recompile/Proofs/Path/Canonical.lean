import Recompile.Proofs.Path.Absolute
import Recompile.Proofs.Path.Spelling

/-!
# The form of normal paths

What a path is normalized to tells all of its normal form: normalizing it again changes nothing, not
even the spelling; it is `.`, or a number of `..` and then names, or the root and then names; and it
can stand for the path in front of whatever is joined to it (`Path.normalize_canonical`). The last
is why a directory may be normalized before or after a header name is joined to it.
-/

namespace Recompile

namespace Path

variable {p : Path}

/-- The steps of a normal form, if it is not `.`. -/
theorem steps_normalize_cases (h : p.normalize.text ≠ ".") :
    ∃ names : List String, (∀ s ∈ names, Step.IsName s) ∧
      (p.isAbsolute = false ∧
          (∃ ups, p.normalize.steps = List.replicate ups .up ++ names.map .name) ∨
        p.isAbsolute = true ∧ p.normalize.steps = .root :: names.map .name) := by
  obtain ⟨⟨ups, names, hsteps⟩, -, -⟩ := p.isNormal_normalize.resolve_left h
  have habsolute : p.isAbsolute = true ↔ .root ∈ p.normalize.steps := by
    rw [← isAbsolute_normalize, isAbsolute_iff]
  refine ⟨names, fun s hs => isName_of_mem_steps (p := p.normalize) ?_, ?_⟩
  · have hname : Step.name s ∈ names.map Step.name := List.mem_map_of_mem hs
    rcases hsteps with hsteps | hsteps <;> rw [hsteps]
    · exact List.mem_append_right _ hname
    · exact List.mem_cons_of_mem _ hname
  · rcases hsteps with hsteps | hsteps
    · have hroot : .root ∉ p.normalize.steps := by
        rw [hsteps]
        simp
      exact .inl ⟨Bool.eq_false_iff.2 (mt habsolute.1 hroot), ups, hsteps⟩
    · exact .inr ⟨habsolute.2 (hsteps ▸ List.mem_cons_self), hsteps⟩

/-- **Normal forms are canonical.** Normalizing twice gives the very spelling that normalizing once
gives. A normal form is `.` alone, or it is written with single slashes from steps of which none is
a `.`: a relative one has all its `..` before the first name, and an absolute one has no `..`. It is
absolute if and only if the path is. And whatever is joined to a path, an absolute path and the
empty one included, may be joined to its normal form instead. -/
theorem normalize_canonical (p : Path) :
    p.normalize.normalize = p.normalize ∧
    (p.normalize.text = "." ∨ p.normalize.text = Step.render p.normalize.steps ∧
      ∃ names : List String, (∀ s ∈ names, Step.IsName s) ∧
        (p.isAbsolute = false ∧
            (∃ ups, p.normalize.steps = List.replicate ups .up ++ names.map .name) ∨
          p.isAbsolute = true ∧ p.normalize.steps = .root :: names.map .name)) ∧
    p.normalize.isAbsolute = p.isAbsolute ∧
    ∀ q : Path, (p.join q).normalize = (p.normalize.join q).normalize := by
  have hnormal : p.normalize.IsNormal := p.isNormal_normalize
  refine ⟨hnormal.normalize_eq, ?_, p.isAbsolute_normalize, fun q => ?_⟩
  · by_cases hdot : p.normalize.text = "."
    · exact .inl hdot
    · obtain ⟨-, -, htext⟩ := hnormal.resolve_left hdot
      exact .inr ⟨htext, steps_normalize_cases hdot⟩
  · exact normalize_join_congr hnormal.normalize_eq.symm q

example : (ofText "a//./b/../../../c/").normalize.text = "../c" := by decide

end Path

end Recompile
