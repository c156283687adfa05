import Mathlib.Data.String.Basic
import Recompile.FileTree
import Recompile.Proofs.Path.Normal

/-!
# The pieces of a normal form

Normalizing works on steps, and a path is followed piece by piece. So the fold is put in terms of
pieces here (`Path.normalize_steps`): the pieces of a normal form are the steps that were kept, and
no pieces but those of the path (`Path.segments_normalize`, `Path.pieces_normalize_sublist`). That
is why the normal form of a path that the system takes is one that it takes
(`Path.fault?_normalize`).
-/

namespace Recompile

/-! ## Texts and their pieces -/

theorem joinSlashes_splitSlashes (cs : List Char) : joinSlashes (splitSlashes cs) = cs := by
  induction cs with
  | nil => rfl
  | cons c cs ih =>
    cases hs : splitSlashes cs with
    | nil =>
      rw [hs] at ih
      obtain rfl : [] = cs := ih
      cases hs
    | cons piece rest =>
      by_cases hc : c = '/'
      · subst hc
        rw [hs] at ih
        rw [splitSlashes_cons_slash, hs, joinSlashes_cons_cons, ih, List.nil_append]
      · rw [hs] at ih
        rw [splitSlashes_cons hc hs, ← ih]
        cases rest <;> simp [joinSlashes]

theorem joinSlashes_sublist {as bs : List (List Char)} (h : as.Sublist bs) :
    (joinSlashes as).Sublist (joinSlashes bs) := by
  induction h with
  | slnil => exact List.Sublist.refl _
  | @cons as bs b h ih =>
    cases bs with
    | nil =>
      obtain rfl := List.sublist_nil.1 h
      exact List.nil_sublist _
    | cons c bs =>
      rw [joinSlashes_cons_cons]
      exact (ih.cons '/').trans (List.sublist_append_right b _)
  | @cons_cons as bs b h ih =>
    cases as with
    | nil =>
      cases bs with
      | nil => exact List.Sublist.refl _
      | cons c bs =>
        rw [joinSlashes_cons_cons]
        simp [joinSlashes]
    | cons a as =>
      cases bs with
      | nil => cases h
      | cons c bs =>
        rw [joinSlashes_cons_cons, joinSlashes_cons_cons]
        exact (List.Sublist.refl b).append (ih.cons_cons '/')

/-! ## Folding pieces -/

namespace Step

/-- The piece between slashes that a step is written as; before the leading slash is an empty
one. -/
def piece : Step → String
  | root => ""
  | step => step.text

/-- Adds the step that a piece stands for, if it stands for one. -/
def foldPiece (kept : List Step) (piece : String) : List Step :=
  match ofPiece? piece with
  | some step => fold kept step
  | none => kept

theorem map_piece {body : List Step} (h : ∀ step ∈ body, IsPiece step) :
    body.map piece = body.map text := by
  refine List.map_congr_left fun step hstep => ?_
  rcases h step hstep with rfl | ⟨s, -, rfl⟩ <;> rfl

theorem map_piece_names (names : List String) : (names.map name).map piece = names := by
  rw [List.map_map]
  exact List.map_id names

theorem toList_render {body : List Step} (hne : body ≠ []) (h : ∀ step ∈ body, IsPiece step) :
    (render body).toList = joinSlashes (body.map (·.text.toList)) := by
  obtain ⟨first, rest, rfl⟩ := List.exists_cons_of_ne_nil hne
  rcases h first List.mem_cons_self with rfl | ⟨s, -, rfl⟩ <;> exact String.toList_ofList

theorem ofPiece?_cases (piece : String) :
    (piece = "" ∨ piece = ".") ∧ ofPiece? piece = none ∨
      piece = ".." ∧ ofPiece? piece = some up ∨
      (piece ≠ "" ∧ piece ≠ "." ∧ piece ≠ "..") ∧ ofPiece? piece = some (name piece) := by
  unfold ofPiece?
  split
  · next hidle => exact .inl ⟨hidle, rfl⟩
  · next hidle =>
    obtain ⟨hempty, hdot⟩ := not_or.1 hidle
    split
    · next hup => exact .inr (.inl ⟨hup, rfl⟩)
    · next hup => exact .inr (.inr ⟨⟨hempty, hdot, hup⟩, rfl⟩)

theorem Kept.foldPiece {kept : List Step} (h : Kept kept) {piece : String}
    (hslash : '/' ∉ piece.toList) : Kept (foldPiece kept piece) := by
  unfold Step.foldPiece
  cases hpiece : ofPiece? piece with
  | none => exact h
  | some step => exact h.fold (isPiece_of_ofPiece? hslash hpiece)

/-- No piece but the one folded in comes to those that are kept. -/
theorem foldPiece_sublist (kept : List Step) (piece : String) :
    ((foldPiece kept piece).reverse.map Step.piece).Sublist
      (kept.reverse.map Step.piece ++ [piece]) := by
  unfold foldPiece
  obtain ⟨-, h⟩ | ⟨rfl, h⟩ | ⟨-, h⟩ := ofPiece?_cases piece <;> rw [h]
  · exact List.sublist_append_left _ _
  · cases kept with
    | nil => exact List.Sublist.refl _
    | cons step before =>
      have hpush : ((up :: step :: before).reverse.map Step.piece).Sublist
          ((step :: before).reverse.map Step.piece ++ [".."]) := by
        rw [List.reverse_cons, List.map_append]
        exact List.Sublist.refl _
      have hpop : (before.reverse.map Step.piece).Sublist
          ((step :: before).reverse.map Step.piece ++ [".."]) := by
        rw [List.reverse_cons, List.map_append, List.append_assoc]
        exact List.sublist_append_left _ _
      cases step with
      | name s => exact hpop
      | root => exact List.sublist_append_left _ _
      | here => exact hpush
      | up => exact hpush
  · simp [fold, Step.piece, text]

theorem foldPieces_sublist (kept : List Step) (pieces : List String) :
    ((pieces.foldl foldPiece kept).reverse.map piece).Sublist
      (kept.reverse.map piece ++ pieces) := by
  induction pieces generalizing kept with
  | nil =>
    rw [List.append_nil]
    exact List.Sublist.refl _
  | cons p pieces ih =>
    have hfirst := (foldPiece_sublist kept p).append_right pieces
    rw [List.append_assoc, List.singleton_append] at hfirst
    exact (ih (foldPiece kept p)).trans hfirst

theorem root_mem_foldPieces {kept : List Step} {pieces : List String} :
    root ∈ pieces.foldl foldPiece kept ↔ root ∈ kept := by
  induction pieces generalizing kept with
  | nil => rfl
  | cons p pieces ih =>
    refine ih.trans ?_
    unfold foldPiece
    obtain ⟨-, h⟩ | ⟨rfl, h⟩ | ⟨-, h⟩ := ofPiece?_cases p <;> rw [h]
    · cases kept with
      | nil => simp [fold]
      | cons step before => cases step <;> simp [fold]
    · simp [fold]

end Step

/-! ## Normal forms -/

namespace Path

/-- What is kept before the first piece: the root, if the path is absolute. -/
def base (p : Path) : List Step := if p.isAbsolute then [.root] else []

variable {p : Path}

theorem slash_notMem_segments {piece : String} (h : piece ∈ p.segments) :
    '/' ∉ piece.toList := by
  obtain ⟨cs, hcs, rfl⟩ := List.mem_map.1 h
  rw [String.toList_ofList]
  exact mem_splitSlashes hcs

theorem root_mem_base : .root ∈ p.base ↔ p.isAbsolute = true := by
  unfold base
  split <;> simp_all

theorem kept_base : Step.Kept p.base := by
  unfold base
  split
  · exact ⟨[], fun s hs => absurd hs List.not_mem_nil, .inl rfl⟩
  · exact ⟨[], fun s hs => absurd hs List.not_mem_nil, .inr ⟨0, rfl⟩⟩

/-- The steps of a path are those of its pieces, and the root or a `.` in front of them. -/
theorem steps_cases (p : Path) :
    p.isAbsolute = true ∧ p.steps = .root :: p.segments.filterMap Step.ofPiece? ∨
      p.isAbsolute = false ∧ (p.steps = .here :: p.segments.filterMap Step.ofPiece? ∨
        p.steps = p.segments.filterMap Step.ofPiece?) := by
  have hsteps : p.steps = Step.ofText p.text := p.steps_eq
  unfold Step.ofText at hsteps
  dsimp only at hsteps
  cases hroot : p.isAbsolute with
  | true =>
    rw [if_pos (beq_iff_eq.1 hroot)] at hsteps
    exact .inl ⟨rfl, hsteps⟩
  | false =>
    rw [if_neg (beq_eq_false_iff_ne.1 hroot)] at hsteps
    refine .inr ⟨rfl, ?_⟩
    split at hsteps
    · exact .inl hsteps
    · exact .inr hsteps

theorem isAbsolute_iff : p.isAbsolute = true ↔ .root ∈ p.steps := by
  have hbody : Step.root ∉ p.segments.filterMap Step.ofPiece? := by
    intro hroot
    obtain ⟨piece, -, hpiece⟩ := List.mem_filterMap.1 hroot
    obtain ⟨-, h⟩ | ⟨-, h⟩ | ⟨-, h⟩ := Step.ofPiece?_cases piece <;> cases h.symm.trans hpiece
  obtain ⟨habsolute, h⟩ | ⟨habsolute, h | h⟩ := p.steps_cases <;> rw [habsolute, h] <;> simp [hbody]

/-- Normalizing folds the pieces of the path one after the other. -/
theorem normalize_steps :
    Step.normalize p.steps = (p.segments.foldl Step.foldPiece p.base).reverse := by
  have hfold (kept : List Step) : (p.segments.filterMap Step.ofPiece?).foldl Step.fold kept =
      p.segments.foldl Step.foldPiece kept := by
    rw [List.foldl_filterMap]
    congr 1
    funext kept piece
    unfold Step.foldPiece
    cases Step.ofPiece? piece <;> rfl
  rw [Step.normalize, base]
  congr 1
  obtain ⟨habsolute, h⟩ | ⟨habsolute, h | h⟩ := p.steps_cases <;> rw [habsolute, h]
  · exact hfold [.root]
  · exact hfold []
  · exact hfold []

theorem root_mem_normalize_steps : .root ∈ Step.normalize p.steps ↔ p.isAbsolute = true := by
  rw [normalize_steps, List.mem_reverse, Step.root_mem_foldPieces, root_mem_base]

/-- The pieces of a normal form are the steps that were kept, unless there are none or only the
root. -/
theorem segments_normalize (p : Path) :
    p.normalize.isAbsolute = p.isAbsolute ∧
      (Step.normalize p.steps = [] ∧ p.normalize.text = "." ∨
        Step.normalize p.steps = [.root] ∧ p.normalize.text = "/" ∨
        p.normalize.segments = (Step.normalize p.steps).map Step.piece) := by
  have habsolute : p.normalize.isAbsolute = p.isAbsolute := by
    rw [Bool.eq_iff_iff, ← root_mem_normalize_steps (p := p)]
    rcases p.normalize_cases with ⟨hnil, hdot⟩ | ⟨-, hsteps⟩
    · rw [hdot, hnil]
      decide
    · rw [isAbsolute_iff, hsteps]
  have htext : p.normalize.text = Step.render (Step.normalize p.steps) := rfl
  refine ⟨habsolute, ?_⟩
  rcases p.kept_normalize.reverse_cases.2 with ⟨body, hbody, hpieces⟩ | hpieces
  · rw [hbody] at htext ⊢
    by_cases hne : body = []
    · subst hne
      exact .inr (.inl ⟨rfl, htext⟩)
    · refine .inr (.inr ?_)
      have hlist : p.normalize.text.toList = '/' :: joinSlashes (body.map (·.text.toList)) := by
        rw [htext]
        exact String.toList_ofList
      rw [segments, hlist, splitSlashes_cons_slash, List.map_cons,
        Step.map_splitSlashes_joinSlashes hne hpieces, List.map_cons]
      exact congrArg _ (Step.map_piece hpieces).symm
  · by_cases hne : Step.normalize p.steps = []
    · rw [hne] at htext ⊢
      exact .inl ⟨rfl, htext⟩
    · refine .inr (.inr ?_)
      rw [segments, htext, Step.toList_render hne hpieces,
        Step.map_splitSlashes_joinSlashes hne hpieces, Step.map_piece hpieces]

/-- No piece is kept that the path has not got. -/
theorem pieces_normalize_sublist (p : Path) :
    ((Step.normalize p.steps).map Step.piece).Sublist p.segments := by
  rw [normalize_steps]
  cases habsolute : p.isAbsolute with
  | false =>
    rw [base, habsolute]
    exact Step.foldPieces_sublist [] p.segments
  | true =>
    -- The first piece is empty, and it is the one of the root.
    obtain ⟨cs, hcs⟩ : ∃ cs, p.text.toList = '/' :: cs :=
      List.head?_eq_some_iff.1 (beq_iff_eq.1 habsolute)
    have hsegments : p.segments = "" :: (splitSlashes cs).map String.ofList := by
      rw [segments, hcs, splitSlashes_cons_slash]
      rfl
    have hidle : Step.foldPiece [.root] "" = [.root] := by decide
    rw [base, habsolute, if_pos rfl, hsegments, List.foldl_cons, hidle]
    exact Step.foldPieces_sublist [.root] _

theorem toList_text (p : Path) : p.text.toList = joinSlashes (p.segments.map String.toList) := by
  have hpieces : p.segments.map String.toList = splitSlashes p.text.toList := by
    rw [segments, List.map_map]
    exact (List.map_congr_left fun _ _ => String.toList_ofList).trans (List.map_id _)
  rw [hpieces, joinSlashes_splitSlashes]

theorem fault?_eq_none_iff : p.fault? = none ↔
    p.text ≠ "" ∧ '\x00' ∉ p.text.toList ∧ p.text.utf8ByteSize < pathLimit := by
  unfold fault?
  split
  · next hempty => simp [hempty]
  · next hempty =>
    split
    · next hnul => simp [hnul]
    · next hnul =>
      split
      · next hlong => simp [Nat.not_lt.2 hlong]
      · next hlong => simp [hempty, hnul, Nat.lt_of_not_le hlong]

/-- The normal form of a path that the system takes is one that it takes. -/
theorem fault?_normalize (h : p.fault? = none) : p.normalize.fault? = none := by
  obtain ⟨-, ⟨-, hdot⟩ | ⟨-, hroot⟩ | hsegments⟩ := p.segments_normalize
  · rw [fault?, hdot]
    decide
  · rw [fault?, hroot]
    decide
  · have hsublist : p.normalize.text.toList.Sublist p.text.toList := by
      rw [toList_text, toList_text, hsegments]
      exact joinSlashes_sublist (p.pieces_normalize_sublist.map String.toList)
    have hsize : p.normalize.text.utf8ByteSize ≤ p.text.utf8ByteSize := by
      have hlen := String.utf8Len_le_of_sublist hsublist
      rwa [← String.utf8ByteSize_ofList, ← String.utf8ByteSize_ofList, String.ofList_toList,
        String.ofList_toList] at hlen
    have hempty : p.normalize.text ≠ "" := by
      intro hempty
      rcases p.isNormal_normalize with hdot | ⟨-, hne, -⟩
      · exact absurd (hempty.symm.trans hdot) (by decide)
      · rw [p.normalize.steps_eq, hempty] at hne
        exact hne (by decide)
    obtain ⟨-, hnul, hlong⟩ := fault?_eq_none_iff.1 h
    exact fault?_eq_none_iff.2
      ⟨hempty, fun hmem => hnul (hsublist.subset hmem), Nat.lt_of_le_of_lt hsize hlong⟩

end Path

end Recompile
