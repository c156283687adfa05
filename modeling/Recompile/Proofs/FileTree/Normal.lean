import Recompile.Proofs.FileTree.Entry
import Recompile.Proofs.Path.Pieces

/-!
# Where normal forms lead

A path and its normal form lead to one place as long as every piece of the path that a slash follows
stands for a directory (`FileTree.Passable`, `FileTree.locate_normalize`). A path that leads
anywhere is such a path, so its normal form leads there too. The reverse fails, and only for this
reason: folding drops pieces, and a piece that is not there is no hindrance once it is dropped.
-/

namespace Recompile

theorem Path.segments_ne_nil (p : Path) : p.segments ≠ [] := by
  simpa [segments] using splitSlashes_ne_nil p.text.toList

namespace FileTree

variable {t : FileTree} {p : Path}

/-- Every piece of the path that a slash follows stands for a directory that is there. -/
def Passable (t : FileTree) (p : Path) : Prop :=
  p.fault? = none ∧ ∃ place, t.walk (t.origin p) p.segments.dropLast = .ok place ∧
    t.node? place = some .directory

/-! ## One piece -/

theorem directory_of_walk_piece {place q : Place} {piece : String}
    (h : t.walk place [piece] = .ok q) : t.node? place = some .directory := by
  simp only [walk] at h
  split at h
  · cases h
  · cases h
  · next hplace => exact hplace

/-- A name leads from a directory to an entry of it. -/
theorem eq_cons_of_walk_name {place q : Place} {name : String} (hname : Step.IsName name)
    (h : t.walk place [name] = .ok q) : q = name :: place ∧ t.node? q ≠ none := by
  rw [walk_name place hname] at h
  obtain ⟨r, hr, hentry⟩ := Except.bind_eq_ok.1 h
  obtain ⟨node, hfound, hnode⟩ := Except.bind_eq_ok.1 hentry
  obtain ⟨rfl, -⟩ := asDirectory_eq_ok.1 hr
  obtain ⟨-, hstands⟩ := entry?_eq_ok.1 hfound
  cases node with
  | none => cases hnode
  | some node =>
    obtain rfl := Except.ok.inj hnode
    refine ⟨rfl, ?_⟩
    rw [hstands]
    exact Option.some_ne_none node

/-- Folding a piece goes where the piece goes. -/
theorem walk_foldPiece {start place q : Place} {kept : List Step} {piece : String}
    (hkept : Step.Kept kept) (hroot : .root ∈ kept → start = [])
    (hwalk : t.walk start (kept.reverse.map Step.piece) = .ok place)
    (hpiece : t.walk place [piece] = .ok q) :
    t.walk start ((Step.foldPiece kept piece).reverse.map Step.piece) = .ok q := by
  have hplace := directory_of_walk_piece hpiece
  have hhere : t.asDirectory place = .ok place := asDirectory_eq_ok.2 ⟨rfl, hplace⟩
  have hpush (step : Step) (hstep : step.piece = piece) :
      t.walk start ((step :: kept).reverse.map Step.piece) = .ok q := by
    rw [List.reverse_cons, List.map_append, walk_append, hwalk, Except.ok_bind, List.map_singleton,
      hstep]
    exact hpiece
  unfold Step.foldPiece
  obtain ⟨hidle, h⟩ | ⟨rfl, h⟩ | ⟨-, h⟩ := Step.ofPiece?_cases piece <;> rw [h] <;> dsimp only
  · rw [walk_idle place hidle, hhere] at hpiece
    exact hwalk.trans hpiece
  · rw [walk_up, hhere, Except.ok_bind] at hpiece
    obtain ⟨names, hnames, hkept⟩ := hkept
    cases names with
    | nil =>
      rcases hkept with rfl | ⟨ups, rfl⟩
      · obtain rfl := hroot (List.mem_singleton.2 rfl)
        -- The root is its own parent.
        obtain rfl : [] = place := Except.ok.inj hwalk
        exact hwalk.trans hpiece
      · cases ups <;> exact hpush .up rfl
    | cons s names =>
      obtain ⟨before, rfl⟩ : ∃ before, kept = .name s :: before := by
        rcases hkept with rfl | ⟨ups, rfl⟩ <;> exact ⟨_, rfl⟩
      rw [List.reverse_cons, List.map_append, walk_append] at hwalk
      obtain ⟨r, hbefore, hlast⟩ := Except.bind_eq_ok.1 hwalk
      obtain ⟨rfl, -⟩ := eq_cons_of_walk_name (hnames s List.mem_cons_self) hlast
      exact hbefore.trans hpiece
  · exact hpush (.name piece) rfl

/-! ## All pieces -/

theorem walk_foldPieces {start place q : Place} {kept : List Step} {pieces : List String}
    (hkept : Step.Kept kept) (hroot : .root ∈ kept → start = [])
    (hslash : ∀ piece ∈ pieces, '/' ∉ piece.toList)
    (hwalk : t.walk start (kept.reverse.map Step.piece) = .ok place)
    (hpieces : t.walk place pieces = .ok q) :
    t.walk start ((pieces.foldl Step.foldPiece kept).reverse.map Step.piece) = .ok q := by
  induction pieces generalizing kept place with
  | nil => exact hwalk.trans hpieces
  | cons piece pieces ih =>
    obtain ⟨hpiece, hrest⟩ := List.forall_mem_cons.1 hslash
    rw [← List.singleton_append, walk_append] at hpieces
    obtain ⟨r, hfirst, hpieces⟩ := Except.bind_eq_ok.1 hpieces
    have hroot' : .root ∈ [piece].foldl Step.foldPiece kept ↔ .root ∈ kept :=
      Step.root_mem_foldPieces
    exact ih (hkept.foldPiece hpiece) (fun h => hroot (hroot'.1 h)) hrest
      (walk_foldPiece hkept hroot hwalk hfirst) hpieces

/-- The steps that are kept of some first pieces of a path lead where the pieces lead. -/
theorem walk_kept {pieces rest : List String} {q : Place} (hsegments : p.segments = pieces ++ rest)
    (hpieces : t.walk (t.origin p) pieces = .ok q) :
    t.walk (t.origin p) ((pieces.foldl Step.foldPiece p.base).reverse.map Step.piece) = .ok q := by
  have hbase : t.walk (t.origin p) (p.base.reverse.map Step.piece) = .ok (t.origin p) := by
    unfold origin Path.base
    split <;> rfl
  refine walk_foldPieces Path.kept_base (fun hroot => ?_) (fun piece hpiece => ?_) hbase hpieces
  · rw [origin, Path.root_mem_base.1 hroot, if_pos rfl]
  · exact Path.slash_notMem_segments (hsegments ▸ List.mem_append_left rest hpiece)

/-- Where the normal form of a path is followed to. -/
theorem locate_normalize_eq_walk (hfault : p.fault? = none) :
    t.locate p.normalize = t.walk (t.origin p) ((Step.normalize p.steps).map Step.piece) := by
  obtain ⟨habsolute, hsegments⟩ := p.segments_normalize
  have horigin : t.origin p.normalize = t.origin p := by rw [origin, origin, habsolute]
  rw [locate, Path.fault?_normalize hfault, horigin]
  dsimp only
  rcases hsegments with ⟨hsteps, htext⟩ | ⟨hsteps, htext⟩ | hsegments
  · have hdot : p.normalize.segments = ["."] := by
      rw [Path.segments, htext]
      decide
    rw [hdot, hsteps, walk_idle _ (.inr rfl)]
    exact asDirectory_eq_ok.2 ⟨rfl, t.directory_origin p⟩
  · have hroot : p.normalize.segments = ["", ""] := by
      rw [Path.segments, htext]
      decide
    have hmem : .root ∈ Step.normalize p.steps := hsteps ▸ List.mem_singleton.2 rfl
    rw [hroot, hsteps, origin, Path.root_mem_normalize_steps.1 hmem, if_pos rfl]
    rfl
  · rw [hsegments]

/-- A path and its normal form lead to one place if each piece before a slash stands for a
directory. -/
theorem locate_normalize (h : t.Passable p) : t.locate p.normalize = t.locate p := by
  obtain ⟨hfault, place, hwalk, hplace⟩ := h
  obtain ⟨first, last, hsegments⟩ : ∃ first last, p.segments = first ++ [last] :=
    ⟨_, _, (List.dropLast_concat_getLast p.segments_ne_nil).symm⟩
  rw [hsegments, List.dropLast_concat] at hwalk
  have hfirst := walk_kept hsegments hwalk
  have hhere : t.asDirectory place = .ok place := asDirectory_eq_ok.2 ⟨rfl, hplace⟩
  have hwhole : t.walk (t.origin p) (first ++ [last]) = t.walk place [last] := by
    rw [walk_append, hwalk, Except.ok_bind]
  rw [locate_normalize_eq_walk hfault, locate, hfault, Path.normalize_steps, hsegments]
  dsimp only
  rw [hwhole]
  cases hlast : t.walk place [last] with
  | ok q =>
    exact walk_kept (hsegments.trans (List.append_nil _).symm) (hwhole.trans hlast)
  | error e =>
    -- Only a name can lead nowhere, and a name is kept.
    rw [List.foldl_concat, Step.foldPiece]
    obtain ⟨hidle, -⟩ | ⟨rfl, -⟩ | ⟨-, h⟩ := Step.ofPiece?_cases last
    · rw [walk_idle place hidle, hhere] at hlast
      cases hlast
    · rw [walk_up, hhere] at hlast
      cases hlast
    · rw [h]
      dsimp only [Step.fold]
      rw [List.reverse_cons, List.map_append, walk_append, hfirst]
      exact hlast

theorem passable_of_locate {place : Place} (h : t.locate p = .ok place) : t.Passable p := by
  unfold locate at h
  split at h
  · cases h
  · next hfault =>
    rw [← List.dropLast_concat_getLast p.segments_ne_nil, walk_append] at h
    obtain ⟨q, hfirst, hlast⟩ := Except.bind_eq_ok.1 h
    exact ⟨hfault, q, hfirst, directory_of_walk_piece hlast⟩

theorem isFile_eq_of_locate {q : Path} (h : t.locate p = t.locate q) : t.isFile p = t.isFile q := by
  rw [isFile, isFile, lookup, lookup, h]

theorem lookup_eq_ok {node : Node} : t.lookup p = .ok node ↔
    ∃ place, t.locate p = .ok place ∧ t.node? place = some node := by
  rw [lookup, Except.bind_eq_ok]
  refine exists_congr fun place => and_congr_right fun _ => ?_
  cases t.node? place <;> simp

theorem isFile_iff_lookup : t.isFile p = true ↔ ∃ content, t.lookup p = .ok (.file content) := by
  unfold isFile
  split
  · next content hlookup => simp [hlookup]
  · next hlookup => simpa using hlookup

theorem read_eq_ok {content : Bytes} :
    t.read p = .ok content ↔ t.lookup p = .ok (.file content) := by
  rw [read, Except.bind_eq_ok]
  constructor
  · rintro ⟨node, hlookup, hnode⟩
    cases node with
    | directory => cases hnode
    | file content' => rwa [← Except.ok.inj hnode]
  · exact fun hlookup => ⟨_, hlookup, rfl⟩

theorem locate_of_isFile (h : t.isFile p = true) : ∃ place, t.locate p = .ok place := by
  obtain ⟨content, hlookup⟩ := isFile_iff_lookup.1 h
  obtain ⟨place, hlocate, -⟩ := lookup_eq_ok.1 hlookup
  exact ⟨place, hlocate⟩

/-- A path names a file when its normal form does and each piece before a slash stands for a
directory. -/
theorem isFile_iff : t.isFile p = true ↔ t.Passable p ∧ t.isFile p.normalize = true := by
  constructor
  · intro h
    obtain ⟨place, hlocate⟩ := locate_of_isFile h
    have hpassable := passable_of_locate hlocate
    exact ⟨hpassable, (isFile_eq_of_locate (locate_normalize hpassable)).trans h⟩
  · rintro ⟨hpassable, h⟩
    exact (isFile_eq_of_locate (locate_normalize hpassable)).symm.trans h

end FileTree

end Recompile
