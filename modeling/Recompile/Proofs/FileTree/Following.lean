import Recompile.Proofs.FileTree.Normal

/-!
# Following a path step by step

The steps of a path lead somewhere when each of them but the last leads to a directory
(`FileTree.LeadsTo`). That leaves out what the system asks besides: that the path and its names are
not too long, and that a file has no slash after it. So it is said of more paths than
`FileTree.locate` finds (`FileTree.leadsTo_of_locate`), and normalizing does not lose any of them: a
step that is folded away has been undone by the `..` after it (`FileTree.Follows.fold`), and so what
is kept of the steps taken leads where the steps have led (`FileTree.leadsTo_normalize`).
-/

namespace Recompile

namespace FileTree

/-- Some steps lead from a place to another. A `.` stays, `..` goes to the parent, where the root is
its own, and a name goes to the entry of that name; all three want to stand in a directory. -/
inductive Follows (t : FileTree) : Place → List Step → Place → Prop
  | nil (place : Place) : Follows t place [] place
  | root {place q : Place} {steps : List Step} (hrest : Follows t [] steps q) :
    Follows t place (.root :: steps) q
  | here {place q : Place} {steps : List Step} (hplace : t.node? place = some .directory)
    (hrest : Follows t place steps q) : Follows t place (.here :: steps) q
  | up {place q : Place} {steps : List Step} (hplace : t.node? place = some .directory)
    (hrest : Follows t place.tail steps q) : Follows t place (.up :: steps) q
  | name {place q : Place} {s : String} {steps : List Step}
    (hplace : t.node? place = some .directory) (hentry : t.node? (s :: place) ≠ none)
    (hrest : Follows t (s :: place) steps q) : Follows t place (.name s :: steps) q

/-- The steps of a path lead from the working directory to a place. -/
def LeadsTo (t : FileTree) (p : Path) (place : Place) : Prop := t.Follows t.cwd p.steps place

variable {t : FileTree} {p : Path} {place q r : Place} {steps rest : List Step}

namespace Follows

theorem append (h : t.Follows place steps q) (h' : t.Follows q rest r) :
    t.Follows place (steps ++ rest) r := by
  induction h with
  | nil _ => exact h'
  | root _ ih => exact .root (ih h')
  | here hplace _ ih => exact .here hplace (ih h')
  | up hplace _ ih => exact .up hplace (ih h')
  | name hplace hentry _ ih => exact .name hplace hentry (ih h')

theorem of_append (h : t.Follows place (steps ++ rest) r) :
    ∃ q, t.Follows place steps q ∧ t.Follows q rest r := by
  induction steps generalizing place with
  | nil => exact ⟨place, .nil place, h⟩
  | cons step steps ih =>
    rw [List.cons_append] at h
    cases h with
    | root hrest =>
      obtain ⟨q, hq, hr⟩ := ih hrest
      exact ⟨q, .root hq, hr⟩
    | here hplace hrest =>
      obtain ⟨q, hq, hr⟩ := ih hrest
      exact ⟨q, .here hplace hq, hr⟩
    | up hplace hrest =>
      obtain ⟨q, hq, hr⟩ := ih hrest
      exact ⟨q, .up hplace hq, hr⟩
    | name hplace hentry hrest =>
      obtain ⟨q, hq, hr⟩ := ih hrest
      exact ⟨q, .name hplace hentry hq, hr⟩

theorem eq_of_nil (h : t.Follows place [] q) : q = place := by
  cases h
  rfl

/-- What is kept after one more step leads where the step leads. -/
theorem fold {kept : List Step} {step : Step} (h : t.Follows place kept.reverse q)
    (hstep : t.Follows q [step] r) : t.Follows place (Step.fold kept step).reverse r := by
  have hpush : t.Follows place (step :: kept).reverse r := by
    rw [List.reverse_cons]
    exact h.append hstep
  cases hstep with
  | root _ => exact hpush
  | name _ _ _ => exact hpush
  | here _ hrest =>
    rw [hrest.eq_of_nil]
    exact h
  | up _ hrest =>
    have hr : r = q.tail := hrest.eq_of_nil
    -- What `..` undoes is the last step that is kept, if that is a name.
    cases kept with
    | nil => exact hpush
    | cons last before =>
      rw [List.reverse_cons] at h
      obtain ⟨r', hbefore, hlast⟩ := h.of_append
      cases hlast with
      | name _ _ hend =>
        rw [hr, hend.eq_of_nil]
        exact hbefore
      | root hend =>
        -- The root is its own parent.
        rw [hr, hend.eq_of_nil]
        change t.Follows place (.root :: before).reverse []
        rw [List.reverse_cons]
        exact hbefore.append (.root (.nil []))
      | here _ _ => exact hpush
      | up _ _ => exact hpush

theorem foldl {kept : List Step} (h : t.Follows place kept.reverse q)
    (hsteps : t.Follows q steps r) : t.Follows place (steps.foldl Step.fold kept).reverse r := by
  induction steps generalizing kept q with
  | nil =>
    rw [hsteps.eq_of_nil]
    exact h
  | cons step steps ih =>
    rw [← List.singleton_append] at hsteps
    obtain ⟨q', hstep, hrest⟩ := hsteps.of_append
    exact ih (h.fold hstep) hrest

/-- Steps lead where what is kept of them leads. -/
theorem normalize (h : t.Follows place steps q) : t.Follows place (Step.normalize steps) q :=
  foldl (.nil place) h

/-- Steps that begin where something stands lead to something. -/
theorem exists_node? (h : t.Follows place steps q) (hplace : t.node? place ≠ none) :
    t.node? q ≠ none := by
  induction h with
  | nil _ => exact hplace
  | root _ ih => exact ih (Option.some_ne_none _)
  | here _ _ ih => exact ih hplace
  | name _ hentry _ ih => exact ih hentry
  | @up place _ _ hdirectory _ ih =>
    apply ih
    cases place with
    | nil => exact hplace
    | cons name place =>
      rw [List.tail_cons, directory_of_node? hplace]
      exact Option.some_ne_none _

theorem of_walk {pieces : List String} (hslash : ∀ piece ∈ pieces, '/' ∉ piece.toList)
    (h : t.walk place pieces = .ok q) :
    t.Follows place (pieces.filterMap Step.ofPiece?) q := by
  induction pieces generalizing place with
  | nil =>
    obtain rfl := Except.ok.inj h
    exact .nil place
  | cons piece pieces ih =>
    obtain ⟨hslashPiece, hslashRest⟩ := List.forall_mem_cons.1 hslash
    rw [← List.singleton_append, walk_append] at h
    obtain ⟨r, hpiece, hrest⟩ := Except.bind_eq_ok.1 h
    have hplace : t.node? place = some .directory := directory_of_walk_piece hpiece
    have hhere : t.asDirectory place = .ok place := asDirectory_eq_ok.2 ⟨rfl, hplace⟩
    obtain ⟨hidle, hstep⟩ | ⟨rfl, hstep⟩ | ⟨hname, hstep⟩ := Step.ofPiece?_cases piece
    · rw [walk_idle place hidle, hhere] at hpiece
      obtain rfl := Except.ok.inj hpiece
      rw [List.filterMap_cons_none hstep]
      exact ih hslashRest hrest
    · rw [walk_up, hhere] at hpiece
      obtain rfl := Except.ok.inj hpiece
      rw [List.filterMap_cons_some hstep]
      exact .up hplace (ih hslashRest hrest)
    · have hname' : Step.IsName piece := ⟨hname.1, hname.2.1, hname.2.2, hslashPiece⟩
      obtain ⟨rfl, hentry⟩ := eq_cons_of_walk_name hname' hpiece
      rw [List.filterMap_cons_some hstep]
      exact .name hplace hentry (ih hslashRest hrest)

end Follows

/-- A path that the system follows leads where the system arrives. -/
theorem leadsTo_of_locate (h : t.locate p = .ok place) : t.LeadsTo p place := by
  obtain ⟨hfault, -⟩ := passable_of_locate h
  rw [locate, hfault] at h
  have hsegments := Follows.of_walk (fun _ => Path.slash_notMem_segments) h
  unfold LeadsTo
  unfold origin at hsegments
  obtain ⟨habsolute, hsteps⟩ | ⟨habsolute, hsteps⟩ := p.steps_cases
  · rw [if_pos habsolute] at hsegments
    rw [hsteps]
    exact .root hsegments
  · rw [if_neg (Bool.eq_false_iff.1 habsolute)] at hsegments
    rcases hsteps with hsteps | hsteps <;> rw [hsteps]
    · exact .here t.cwd_directory hsegments
    · exact hsegments

/-- Normalizing keeps where the steps of a path lead, also if it leaves none of them. -/
theorem LeadsTo.normalize (h : t.LeadsTo p place) : t.LeadsTo p.normalize place := by
  have hsteps := Follows.normalize h
  unfold LeadsTo
  rcases p.normalize_cases with ⟨hnil, hdot⟩ | ⟨-, hkept⟩
  · rw [hnil] at hsteps
    rw [hsteps.eq_of_nil, hdot]
    exact .here t.cwd_directory (.nil t.cwd)
  · rw [hkept]
    exact hsteps

/-- **Normalizing loses no file.** When the steps of a path lead from the working directory to a
place, where then something stands, those of its normal form lead to the same place. When the system
follows the path, it follows the normal form as well and finds the same. -/
theorem leadsTo_normalize (t : FileTree) (p : Path) (place : Place) :
    (t.LeadsTo p place → t.LeadsTo p.normalize place ∧ ∃ node, t.node? place = some node) ∧
    (t.locate p = .ok place → t.LeadsTo p place ∧ t.locate p.normalize = .ok place ∧
      t.lookup p.normalize = t.lookup p) := by
  constructor
  · intro h
    have hplace : t.node? place ≠ none :=
      Follows.exists_node? h (ne_of_eq_of_ne t.cwd_directory (Option.some_ne_none _))
    exact ⟨h.normalize, Option.ne_none_iff_exists'.1 hplace⟩
  · intro h
    have hlocate : t.locate p.normalize = t.locate p := locate_normalize (passable_of_locate h)
    refine ⟨leadsTo_of_locate h, hlocate.trans h, ?_⟩
    rw [lookup, lookup, hlocate]

def besideWork : FileTree :=
  ((FileTree.within ["work"]).putDirectory [] "lib").putFile ["lib"] "a.h" []

/-- A path that climbs past the root, and enters and leaves directories on its way. -/
theorem leadsTo_normalize_pastRoot :
    let p : Path := .ofText "./..//../lib/../work/./../lib/a.h"
    p.normalize.text = "../../lib/a.h" ∧
      besideWork.locate p = .ok ["a.h", "lib"] ∧ besideWork.LeadsTo p ["a.h", "lib"] ∧
      besideWork.locate p.normalize = .ok ["a.h", "lib"] ∧
      besideWork.LeadsTo p.normalize ["a.h", "lib"] := by
  intro p
  obtain ⟨hleads, hlocate⟩ := leadsTo_normalize besideWork p ["a.h", "lib"]
  have hfound : besideWork.locate p = .ok ["a.h", "lib"] := by decide +kernel
  obtain ⟨hp, hnormal, -⟩ := hlocate hfound
  exact ⟨by decide +kernel, hfound, hp, hnormal, (hleads hp).1⟩

end FileTree

end Recompile
