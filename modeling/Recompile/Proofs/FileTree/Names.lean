import Recompile.Disk
import Recompile.Proofs.FileTree.Normal

/-!
# The names of the files of a tree

A file has many paths and few normal ones: an absolute one, and one for every number of `..` that a
relative one begins with, as the names that come after are those on the way from there to the file
(`FileTree.eq_nameOf_of_isAbsolute`, `FileTree.eq_nameOf_of_locate`). A path is not long enough for
more than so many `..`. So a tree has no more files under normal names than `FileTree.nameCount`
(`FileTree.allows_nameCount`), and a search for headers that is given that limit is not cut short by
it.
-/

namespace Recompile

/-- The limit is as large as the number of files that the disk has under normal names. -/
def Disk.Allows (disk : Disk) (limit : Nat) : Prop :=
  ∃ names : List Path, names.length ≤ limit ∧ ∀ p, p.IsNormal → disk.isFile p = true → p ∈ names

namespace FileTree

variable {t : FileTree} {p : Path}

/-! ## From a path to a place -/

theorem walk_ups {place q : Place} {ups : Nat}
    (h : t.walk place (List.replicate ups "..") = .ok q) : q = place.drop ups := by
  induction ups generalizing place with
  | zero => exact (Except.ok.inj h).symm
  | succ ups ih =>
    rw [List.replicate_succ, ← List.singleton_append, walk_append] at h
    obtain ⟨r, hfirst, hrest⟩ := Except.bind_eq_ok.1 h
    rw [walk_up] at hfirst
    obtain ⟨s, hs, hr⟩ := Except.bind_eq_ok.1 hfirst
    obtain ⟨rfl, -⟩ := asDirectory_eq_ok.1 hs
    obtain rfl := Except.ok.inj hr
    rw [ih hrest, List.drop_tail]

theorem walk_names {place q : Place} {names : List String} (hnames : ∀ s ∈ names, Step.IsName s)
    (h : t.walk place names = .ok q) : q = names.reverse ++ place := by
  induction names generalizing place with
  | nil => exact (Except.ok.inj h).symm
  | cons s names ih =>
    obtain ⟨hs, hrest⟩ := List.forall_mem_cons.1 hnames
    rw [← List.singleton_append, walk_append] at h
    obtain ⟨r, hfirst, h⟩ := Except.bind_eq_ok.1 h
    obtain ⟨rfl, -⟩ := eq_cons_of_walk_name hs hfirst
    rw [ih hrest h, List.reverse_cons, List.append_assoc, List.singleton_append]

/-- A normal path other than `.` is followed by its own steps. -/
theorem locate_of_folded (hfault : p.fault? = none) (hsteps : Step.Folded p.steps)
    (htext : p.text = Step.render p.steps) :
    t.locate p = t.walk (t.origin p) (p.steps.map Step.piece) := by
  have hnormal : p.normalize = p := Path.normalize_eq_of_folded hsteps htext
  have hlocate := locate_normalize_eq_walk (t := t) hfault
  rwa [hnormal, hsteps.normalize_eq] at hlocate

theorem utf8Len_joinSlashes_ups (ups : Nat) :
    String.utf8Len (joinSlashes (List.replicate (ups + 1) ['.', '.'])) = 3 * ups + 2 := by
  induction ups with
  | zero => decide
  | succ ups ih =>
    have hdots : String.utf8Len ['.', '.'] = 2 := by decide
    have hslash : ('/' : Char).utf8Size = 1 := by decide
    rw [List.replicate_succ] at ih
    rw [List.replicate_succ, List.replicate_succ, joinSlashes_cons_cons, String.utf8Len_append,
      hdots, String.utf8Len_cons, ih, hslash]
    omega

/-- A path is not long enough for more `..` than that. -/
theorem ups_le_of_fault? {ups : Nat} {names : List String} (hfault : p.fault? = none)
    (hsteps : p.steps = List.replicate ups .up ++ names.map .name)
    (htext : p.text = Step.render p.steps) : ups ≤ pathLimit / 3 := by
  cases ups with
  | zero => exact Nat.zero_le _
  | succ ups =>
    have hpieces : ∀ step ∈ p.steps, Step.IsPiece step := by
      intro step hstep
      have hcases := hsteps ▸ hstep
      rcases List.mem_append.1 hcases with hup | hname
      · exact .inl (List.mem_replicate.1 hup).2
      · obtain ⟨s, -, rfl⟩ := List.mem_map.1 hname
        exact .inr ⟨s, Path.isName_of_mem_steps hstep, rfl⟩
    have hne : p.steps ≠ [] := by
      rw [hsteps]
      nofun
    have hlist : p.text.toList = joinSlashes (p.steps.map (·.text.toList)) := by
      rw [htext]
      exact Step.toList_render hne hpieces
    have hsublist : (List.replicate (ups + 1) ['.', '.']).Sublist
        (p.steps.map (·.text.toList)) := by
      rw [hsteps, List.map_append, List.map_replicate]
      exact List.sublist_append_left ..
    have hlen := String.utf8Len_le_of_sublist (joinSlashes_sublist hsublist)
    obtain ⟨-, -, hsize⟩ := Path.fault?_eq_none_iff.1 hfault
    rw [utf8Len_joinSlashes_ups, ← hlist, ← String.utf8ByteSize_ofList,
      String.ofList_toList] at hlen
    unfold pathLimit at hsize ⊢
    omega

/-! ## From a place to its paths -/

/-- The normal path of a place that is absolute, or that begins with so many `..`. -/
def nameOf (t : FileTree) (place : Place) : Option Nat → Path
  | none => .ofText (Step.render (.root :: place.reverse.map .name))
  | some ups =>
    let names := (place.take (place.length - (t.cwd.drop ups).length)).reverse
    .ofText (Step.render (List.replicate ups .up ++ names.map .name))

/-- The absolute path that leads to a place is the one of the place. -/
theorem eq_nameOf_of_isAbsolute {place : Place} (hnormal : p.IsNormal)
    (habsolute : p.isAbsolute = true) (hlocate : t.locate p = .ok place) :
    p = t.nameOf place none := by
  have hdot : p.text ≠ "." := by
    intro hdot
    rw [Path.isAbsolute, hdot] at habsolute
    cases habsolute
  obtain ⟨hfolded, -, htext⟩ := hnormal.resolve_left hdot
  rw [locate_of_folded (passable_of_locate hlocate).1 hfolded htext, origin,
    if_pos habsolute] at hlocate
  have hroot : .root ∈ p.steps := Path.isAbsolute_iff.1 habsolute
  obtain ⟨ups, names, hsteps | hsteps⟩ := hfolded
  · rw [hsteps] at hroot
    simp at hroot
  · rw [hsteps, List.map_cons, Step.map_piece_names, ← List.singleton_append, walk_append] at hlocate
    obtain ⟨r, hfirst, hrest⟩ := Except.bind_eq_ok.1 hlocate
    obtain rfl : [] = r := Except.ok.inj hfirst
    have hplace : place = names.reverse ++ [] :=
      walk_names (fun s hs => Path.isName_of_mem_steps (hsteps ▸
        List.mem_cons_of_mem _ (List.mem_map_of_mem hs))) hrest
    refine Path.ext ?_
    rw [htext, nameOf, hplace, List.append_nil, List.reverse_reverse, hsteps]
    rfl

/-- A path that leads to a place is one of those. -/
theorem eq_nameOf_of_locate {place : Place} (hnormal : p.IsNormal) (hdot : p.text ≠ ".")
    (hlocate : t.locate p = .ok place) : ∃ ups ∈ none :: (List.range (pathLimit / 3 + 1)).map some,
      p = t.nameOf place ups := by
  by_cases habsolute : p.isAbsolute = true
  · exact ⟨none, List.mem_cons_self, eq_nameOf_of_isAbsolute hnormal habsolute hlocate⟩
  obtain ⟨hfolded, -, htext⟩ := hnormal.resolve_left hdot
  have hfault := (passable_of_locate hlocate).1
  rw [locate_of_folded hfault hfolded htext, origin, if_neg habsolute] at hlocate
  obtain ⟨ups, names, hsteps | hsteps⟩ := hfolded
  · refine ⟨some ups, List.mem_cons_of_mem _ (List.mem_map_of_mem (List.mem_range.2 ?_)), ?_⟩
    · exact Nat.lt_succ_of_le (ups_le_of_fault? hfault hsteps htext)
    · rw [hsteps, List.map_append, List.map_replicate, Step.map_piece_names, walk_append] at hlocate
      obtain ⟨r, hups, hrest⟩ := Except.bind_eq_ok.1 hlocate
      obtain rfl := walk_ups hups
      have hplace : place = names.reverse ++ t.cwd.drop ups :=
        walk_names (fun s hs => Path.isName_of_mem_steps (hsteps ▸
          List.mem_append_right _ (List.mem_map_of_mem hs))) hrest
      have htake : (place.take (place.length - (t.cwd.drop ups).length)).reverse = names := by
        rw [hplace, List.length_append, Nat.add_sub_cancel, List.take_left, List.reverse_reverse]
      refine Path.ext ?_
      rw [htext, nameOf, htake, hsteps]
      rfl
  · rw [Path.isAbsolute_iff, hsteps] at habsolute
    exact absurd List.mem_cons_self habsolute

theorem locate_dot (t : FileTree) : t.locate (.ofText ".") = .ok t.cwd := by
  have hsegments : (Path.ofText ".").segments = ["."] := by decide
  have hfault : (Path.ofText ".").fault? = none := by decide
  rw [locate, hfault, hsegments]
  dsimp only
  rw [walk_idle _ (.inr rfl)]
  exact asDirectory_eq_ok.2 ⟨rfl, t.cwd_directory⟩

theorem mem_files {place : Place} {content : Bytes} (h : t.node? place = some (.file content)) :
    place ∈ t.files := by
  cases place with
  | nil => cases h
  | cons name place =>
    obtain ⟨place', hmem, heq⟩ := t.nodes.find?_eq_some_iff.1 h
    obtain rfl := compare_place_eq.1 heq
    exact List.mem_filterMap.2 ⟨_, hmem, rfl⟩

/-- A file that is read under an absolute normal name is read under the name of its place. -/
theorem mem_map_nameOf {content : Bytes} (hnormal : p.IsNormal) (habsolute : p.isAbsolute = true)
    (hread : t.read p = .ok content) : p ∈ t.files.map fun place => t.nameOf place none := by
  obtain ⟨place, hlocate, hnode⟩ := lookup_eq_ok.1 (read_eq_ok.1 hread)
  have hname := eq_nameOf_of_isAbsolute hnormal habsolute hlocate
  exact List.mem_map.2 ⟨place, mem_files hnode, hname.symm⟩

/-- A tree has no more files under normal names than are counted for it. -/
theorem allows_nameCount (t : FileTree) : t.disk.Allows t.nameCount := by
  refine ⟨t.files.flatMap fun place =>
    (none :: (List.range (pathLimit / 3 + 1)).map some).map (t.nameOf place), ?_, ?_⟩
  · simp only [List.length_flatMap, List.length_map, List.length_cons, List.length_range,
      List.map_const', List.sum_replicate_nat, nameCount]
    exact (Nat.mul_comm ..).le
  · intro p hnormal hfile
    obtain ⟨content, hlookup⟩ := isFile_iff_lookup.1 hfile
    obtain ⟨place, hlocate, hnode⟩ := lookup_eq_ok.1 hlookup
    have hdot : p.text ≠ "." := by
      intro hdot
      obtain rfl : p = .ofText "." := Path.ext hdot
      cases hlocate.symm.trans t.locate_dot
      cases hnode.symm.trans t.cwd_directory
    obtain ⟨ups, hups, heq⟩ := eq_nameOf_of_locate hnormal hdot hlocate
    exact List.mem_flatMap.2 ⟨place, mem_files hnode, heq ▸ List.mem_map_of_mem hups⟩

end FileTree

end Recompile
