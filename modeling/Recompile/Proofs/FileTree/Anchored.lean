import Recompile.Proofs.FileTree.Entry

/-!
# Paths that lead to one place

Making a directory can bring another one within reach: as long as `missing` is missing,
`missing/../c` leads nowhere, and once it is made the path leads to `c`. A path is anchored if that
cannot happen, as no `..` comes after the part of it that is there. Whatever is made or written
later, an anchored path leads to one place or nowhere (`Anchored.leads`), and what is read of a file
there hangs on that file alone (`Leads.toOption_read`).
-/

namespace Recompile.FileTree

/-- The place that some pieces lead to from another one, if none of them is `..`. -/
def below (place : Place) : List String → Place
  | [] => place
  | piece :: rest =>
    if piece = "" ∨ piece = "." then below place rest else below (piece :: place) rest

/-- A beginning of the path leads to a directory, and no `..` comes after it. -/
def Anchored (t : FileTree) (p : Path) : Prop :=
  ∃ there rest place, p.segments = there ++ rest ∧ t.walk (t.origin p) there = .ok place ∧
    t.node? place = some .directory ∧ ".." ∉ rest

/-- In every tree that has the directories of this one, and perhaps more, the path leads to the
place if there is a directory, and nowhere else; or it leads nowhere in any of them, as one of its
names is too long. -/
def Leads (t : FileTree) (p : Path) (place : Place) : Prop :=
  ∃ short : Prop, ∀ t', t.Keeps t' → ∀ q,
    t'.enter p = .ok q ↔ q = place ∧ short ∧ t'.node? place = some .directory

variable {t t₁ t₂ : FileTree} {p : Path} {place : Place}

theorem directory_of_below {pieces : List String}
    (h : t.node? (below place pieces) = some .directory) : t.node? place = some .directory := by
  induction pieces generalizing place with
  | nil => exact h
  | cons piece pieces ih =>
    rw [below] at h
    split at h
    · exact ih h
    · have hpiece := ih h
      exact directory_of_node? (by rw [hpiece]; nofun)

/-- Pieces without `..` lead to the one place below, if it is a directory and no name is too long. -/
theorem walk_below {pieces : List String} (hup : ".." ∉ pieces) (q : Place) :
    t.walk place pieces >>= t.asDirectory = .ok q ↔
      q = below place pieces ∧ (∀ piece ∈ pieces, piece.utf8ByteSize ≤ nameLimit) ∧
        t.node? (below place pieces) = some .directory := by
  induction pieces generalizing place with
  | nil => simp [walk, below, asDirectory_eq_ok]
  | cons piece pieces ih =>
    obtain ⟨hne, hrest⟩ := List.ne_and_not_mem_of_not_mem_cons hup
    by_cases hplace : t.node? place = some .directory
    · by_cases hidle : piece = "" ∨ piece = "."
      · have hshort : piece.utf8ByteSize ≤ nameLimit := by rcases hidle with rfl | rfl <;> decide
        simp only [walk, hplace, below, if_pos hidle, ih hrest, List.forall_mem_cons, hshort,
          true_and]
      · by_cases hshort : piece.utf8ByteSize ≤ nameLimit
        · have hentry : t.entry? place piece = .ok (t.node? (piece :: place)) :=
            entry?_eq_ok.2 ⟨hshort, rfl⟩
          simp only [walk, hplace, below, if_neg hidle, if_neg hne.symm, hentry,
            List.forall_mem_cons, hshort, true_and]
          cases hpiece : t.node? (piece :: place) with
          | none =>
            refine iff_of_false (fun h => ?_) fun h => ?_
            · cases h
            · rw [directory_of_below h.2.2] at hpiece
              cases hpiece
          | some node => exact ih hrest
        · have hentry : t.entry? place piece = .error .nameTooLong := by
            unfold entry?
            rw [if_pos (Nat.lt_of_not_le hshort)]
          simp only [walk, hplace, if_neg hidle, if_neg hne.symm, hentry, List.forall_mem_cons,
            hshort, false_and, and_false, iff_false]
          intro h
          cases h
    · refine iff_of_false (fun h => ?_) fun h => hplace (directory_of_below h.2.2)
      obtain ⟨last, hwalk, hlast⟩ := Except.bind_eq_ok.1 h
      obtain ⟨rfl, hlast⟩ := asDirectory_eq_ok.1 hlast
      exact hplace (directory_of_walk hwalk hlast)

/-- The path of a directory that is there is anchored. -/
theorem DirectoryAt.anchored (h : t.DirectoryAt p place) : t.Anchored p :=
  ⟨p.segments, [], place, (List.append_nil _).symm, h.walk_eq_ok, h.2, List.not_mem_nil⟩

/-- A path without `..` is anchored in every tree. -/
theorem anchored_of_notMem (t : FileTree) (h : ".." ∉ p.segments) : t.Anchored p :=
  ⟨[], p.segments, t.origin p, rfl, rfl, t.directory_origin p, h⟩

theorem Anchored.leads (h : t.Anchored p) : ∃ place, t.Leads p place := by
  obtain ⟨there, rest, place, hsegments, hwalk, hplace, hup⟩ := h
  refine ⟨below place rest, ∀ piece ∈ rest, piece.utf8ByteSize ≤ nameLimit, fun t' hkeeps q => ?_⟩
  have horigin : t'.origin p = t.origin p := by rw [origin, origin, hkeeps.cwd]
  rw [enter, hsegments, walk_append, horigin, walk_keeps hkeeps hwalk hplace, Except.ok_bind]
  exact walk_below hup q

/-- What is read of a file in the directory hangs on the file alone, or the path of the file is none
that can be read. -/
theorem Leads.toOption_read (h : t.Leads p place) {name : String} (hname : Step.IsName name) :
    (∀ t', t.Keeps t' → (t'.read (p.joinText name)).toOption = t'.fileAt? (name :: place)) ∨
      ∀ t', t.Keeps t' → (t'.read (p.joinText name)).toOption = none := by
  obtain ⟨short, hshort⟩ := h
  have hread (t' : FileTree) (hkeeps : t.Keeps t') (content : Bytes) :
      t'.read (p.joinText name) = .ok content ↔
        ((p.joinText name).fault? = none ∧ name.utf8ByteSize ≤ nameLimit ∧ short) ∧
          t'.fileAt? (name :: place) = some content := by
    rw [read_joinText_eq_ok hname]
    simp only [hshort t' hkeeps]
    constructor
    · rintro ⟨hfault, hsize, q, ⟨rfl, hshort, -⟩, hcontent⟩
      exact ⟨⟨hfault, hsize, hshort⟩, hcontent⟩
    · rintro ⟨⟨hfault, hsize, hshort⟩, hcontent⟩
      refine ⟨hfault, hsize, place, ⟨rfl, hshort, ?_⟩, hcontent⟩
      exact directory_of_node? (by rw [fileAt?_eq_some.1 hcontent]; nofun)
  by_cases hreadable :
      (p.joinText name).fault? = none ∧ name.utf8ByteSize ≤ nameLimit ∧ short
  · refine .inl fun t' hkeeps => Option.ext fun content => ?_
    rw [Except.toOption_eq_some, hread t' hkeeps, and_iff_right hreadable]
  · refine .inr fun t' hkeeps => Option.eq_none_iff_forall_ne_some.2 fun content hcontent => ?_
    exact hreadable ((hread t' hkeeps content).1 (Except.toOption_eq_some.1 hcontent)).1

end Recompile.FileTree
