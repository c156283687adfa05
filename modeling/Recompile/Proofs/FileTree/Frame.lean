import Mathlib.Tactic.SplitIfs
import Recompile.FileTree

/-!
# What a change of the tree leaves alone

No change takes a directory away or moves the working directory (`FileTree.Keeps`), so a path that
leads to a directory goes on doing so. Making directories does not touch a file either
(`FileTree.Grows`, `FileTree.grows_makeDirectories`).
-/

namespace Recompile

/-! ## Operations that can fail -/

namespace Except

variable {ε α β : Type}

@[simp] theorem ok_bind (a : α) (f : α → Except ε β) : (.ok a >>= f : Except ε β) = f a := rfl

@[simp] theorem error_bind (e : ε) (f : α → Except ε β) :
    (.error e >>= f : Except ε β) = .error e := rfl

/-- What comes of two steps comes of the second one, after a first one that worked. -/
theorem bind_eq_ok {x : Except ε α} {f : α → Except ε β} {b : β} :
    x >>= f = .ok b ↔ ∃ a, x = .ok a ∧ f a = .ok b := by
  cases x <;> simp

theorem map_eq_ok {x : Except ε α} {f : α → β} {b : β} :
    x.map f = .ok b ↔ ∃ a, x = .ok a ∧ f a = b := by
  cases x <;> simp [Except.map]

theorem mapError_eq_ok {ε' : Type} {x : Except ε α} {f : ε → ε'} {a : α} :
    x.mapError f = .ok a ↔ x = .ok a := by
  cases x <;> simp [Except.mapError]

theorem toOption_eq_some {x : Except ε α} {a : α} : x.toOption = some a ↔ x = .ok a := by
  cases x <;> simp [Except.toOption]

end Except

namespace FileTree

/-- The content of the file at a place. -/
def fileAt? (t : FileTree) (place : Place) : Option Bytes :=
  match t.node? place with
  | some (.file content) => some content
  | _ => none

variable {t t' t'' : FileTree} {place q : Place} {name : String} {content : Bytes}

theorem fileAt?_eq_some : t.fileAt? place = some content ↔ t.node? place = some (.file content) := by
  unfold fileAt?
  split
  · next h => simp [h]
  · next h => simpa using h content

theorem node?_ne_directory (h : (t.fileAt? place).isSome) : t.node? place ≠ some .directory := by
  obtain ⟨content, h⟩ := Option.isSome_iff_exists.1 h
  rw [fileAt?_eq_some.1 h]
  nofun

theorem fileAt?_congr (h : t'.node? place = t.node? place) : t'.fileAt? place = t.fileAt? place := by
  rw [fileAt?, fileAt?, h]

/-- What holds something lies in a directory. -/
theorem directory_of_node? (h : t.node? (name :: place) ≠ none) :
    t.node? place = some .directory :=
  t.parent_directory name place h

/-! ## The three changes -/

theorem node?_putFile (hplace : t.node? place = some .directory)
    (hname : t.node? (name :: place) ≠ some .directory) :
    (t.putFile place name content).node? q =
      if q = name :: place then some (.file content) else t.node? q := by
  unfold putFile
  rw [dif_pos ⟨hplace, hname⟩]
  exact nodeAt?_insert ..

theorem node?_dropFile (hname : t.node? (name :: place) ≠ some .directory) :
    (t.dropFile place name).node? q = if q = name :: place then none else t.node? q := by
  unfold dropFile
  rw [dif_pos hname]
  exact nodeAt?_erase ..

theorem node?_putDirectory (hplace : t.node? place = some .directory)
    (hname : t.node? (name :: place) = none) :
    (t.putDirectory place name).node? q =
      if q = name :: place then some .directory else t.node? q := by
  unfold putDirectory
  rw [dif_pos ⟨hplace, hname⟩]
  exact nodeAt?_insert ..

theorem fileAt?_putFile (hplace : t.node? place = some .directory)
    (hname : t.node? (name :: place) ≠ some .directory) :
    (t.putFile place name content).fileAt? q =
      if q = name :: place then some content else t.fileAt? q := by
  split
  · next hq => rw [fileAt?, node?_putFile hplace hname, if_pos hq]
  · next hq => exact fileAt?_congr (by rw [node?_putFile hplace hname, if_neg hq])

theorem fileAt?_dropFile :
    (t.dropFile place name).fileAt? q = if q = name :: place then none else t.fileAt? q := by
  by_cases hname : t.node? (name :: place) ≠ some .directory
  · split
    · next hq => rw [fileAt?, node?_dropFile hname, if_pos hq]
    · next hq => exact fileAt?_congr (by rw [node?_dropFile hname, if_neg hq])
  · rw [dropFile, dif_neg hname]
    split
    · next hq => rw [fileAt?, hq, Classical.not_not.1 hname]
    · rfl

/-! ## Directories stay -/

/-- The second tree has the directories of the first and the same working directory. -/
structure Keeps (t t' : FileTree) : Prop where
  cwd : t'.cwd = t.cwd
  directory : ∀ place, t.node? place = some .directory → t'.node? place = some .directory

/-- The second tree has the files of the first, too, and no others. -/
structure Grows (t t' : FileTree) : Prop extends Keeps t t' where
  fileAt? : ∀ place, t'.fileAt? place = t.fileAt? place

theorem Keeps.refl (t : FileTree) : t.Keeps t := ⟨rfl, fun _ h => h⟩

theorem Keeps.trans (h : t.Keeps t') (h' : t'.Keeps t'') : t.Keeps t'' :=
  ⟨h'.cwd.trans h.cwd, fun place hplace => h'.directory place (h.directory place hplace)⟩

theorem Grows.refl (t : FileTree) : t.Grows t := ⟨.refl t, fun _ => rfl⟩

theorem Grows.trans (h : t.Grows t') (h' : t'.Grows t'') : t.Grows t'' :=
  ⟨h.toKeeps.trans h'.toKeeps, fun place => (h'.fileAt? place).trans (h.fileAt? place)⟩

theorem keeps_putFile (t : FileTree) (place : Place) (name : String) (content : Bytes) :
    t.Keeps (t.putFile place name content) := by
  by_cases h : t.node? place = some .directory ∧ t.node? (name :: place) ≠ some .directory
  · refine ⟨by rw [putFile, dif_pos h], fun q hq => ?_⟩
    rw [node?_putFile h.1 h.2, if_neg, hq]
    rintro rfl
    exact h.2 hq
  · rw [putFile, dif_neg h]
    exact .refl t

theorem keeps_dropFile (t : FileTree) (place : Place) (name : String) :
    t.Keeps (t.dropFile place name) := by
  by_cases h : t.node? (name :: place) ≠ some .directory
  · refine ⟨by rw [dropFile, dif_pos h], fun q hq => ?_⟩
    rw [node?_dropFile h, if_neg, hq]
    rintro rfl
    exact h hq
  · rw [dropFile, dif_neg h]
    exact .refl t

theorem grows_putDirectory (t : FileTree) (place : Place) (name : String) :
    t.Grows (t.putDirectory place name) := by
  by_cases h : t.node? place = some .directory ∧ t.node? (name :: place) = none
  · have hnode (q : Place) := node?_putDirectory (q := q) h.1 h.2
    refine ⟨⟨by rw [putDirectory, dif_pos h], fun q hq => ?_⟩, fun q => ?_⟩
    · rw [hnode]
      split
      · rfl
      · exact hq
    · by_cases hq : q = name :: place
      · rw [FileTree.fileAt?, FileTree.fileAt?, hnode, if_pos hq, hq, h.2]
      · exact fileAt?_congr (by rw [hnode, if_neg hq])
  · rw [putDirectory, dif_neg h]
    exact .refl t

theorem keeps_write {p : Path} (h : t.write p content = .ok t') : t.Keeps t' := by
  obtain ⟨g, -, h⟩ := Except.bind_eq_ok.1 h
  split at h
  · cases h
  · next name _ =>
    split_ifs at h
    obtain ⟨node, -, h⟩ := Except.bind_eq_ok.1 h
    split at h
    · cases h
    · cases h
      exact keeps_putFile t g.place name content

theorem keeps_remove {p : Path} (h : t.remove p = .ok t') : t.Keeps t' := by
  obtain ⟨g, -, h⟩ := Except.bind_eq_ok.1 h
  split at h
  · cases h
  · next name _ =>
    obtain ⟨node, -, h⟩ := Except.bind_eq_ok.1 h
    split at h
    · cases h
    · cases h
    · split_ifs at h
      cases h
      exact keeps_dropFile t g.place name

theorem keeps_rename {p p' : Path} (h : t.rename p p' = .ok t') : t.Keeps t' := by
  obtain ⟨place, -, h⟩ := Except.bind_eq_ok.1 h
  obtain ⟨content, -, h⟩ := Except.bind_eq_ok.1 h
  obtain ⟨moved, hwrite, h⟩ := Except.bind_eq_ok.1 h
  split_ifs at h
  · cases h
    exact .refl t
  · exact (keeps_write hwrite).trans (keeps_remove h)

/-! ## Making directories -/

theorem grows_makeDirectory {p : Path} (h : t.makeDirectory p = .ok t') : t.Grows t' := by
  obtain ⟨g, -, h⟩ := Except.bind_eq_ok.1 h
  split at h
  · cases h
  · next name _ =>
    obtain ⟨node, -, h⟩ := Except.bind_eq_ok.1 h
    split at h
    · cases h
      exact grows_putDirectory t g.place name
    · cases h

theorem grows_settleDirectory (t : FileTree) (p : Path) : t.Grows (t.settleDirectory p).1 := by
  unfold settleDirectory
  split
  · next h => exact grows_makeDirectory h
  · exact .refl t

theorem grows_makeDirectoriesUpTo (t : FileTree) (bound : Nat) (p : Path) :
    t.Grows (t.makeDirectoriesUpTo bound p).1 := by
  induction bound generalizing t p with
  | zero =>
    have hself := grows_settleDirectory t p
    unfold makeDirectoriesUpTo
    split
    · exact .refl t
    · split
      · next h => rwa [h] at hself
      · exact hself
  | succ bound ih =>
    have hself := grows_settleDirectory t p
    unfold makeDirectoriesUpTo
    split
    · exact .refl t
    · split
      · next t₁ h =>
        rw [h] at hself
        cases p.parent with
        | none => exact hself
        | some parent =>
          have hparent := ih t₁ parent
          dsimp only
          split
          · next t₂ h₂ =>
            rw [h₂] at hparent
            exact (hself.trans hparent).trans (grows_settleDirectory t₂ p)
          · exact hself.trans hparent
      · exact hself

theorem grows_makeDirectories (t : FileTree) (p : Path) : t.Grows (t.makeDirectories p).1 :=
  grows_makeDirectoriesUpTo ..

end FileTree

end Recompile
