import Mathlib.Data.List.Induction
import Mathlib.Data.List.Nodup
import Recompile.Proofs.FileTree.Frame
import Recompile.Proofs.Path.Normal
import Recompile.Proofs.Text.Decode

/-!
# Entries of a directory

A store reaches its files by joining a name to the path of a directory. What an operation does at
such a path is said here by the place that the directory has (`FileTree.enter`) and the name alone:
`read_joinText`, `write_joinText`, `remove_joinText` and `rename_joinText`.

Not all that a directory holds can be named so: the names that are read from it are bytes
(`FileTree.Lists`, `FileTree.DirectoryAt.entryNames`).
-/

namespace Recompile

/-! ## The pieces of a joined path -/

theorem splitSlashes_ne_nil (cs : List Char) : splitSlashes cs ≠ [] := by
  cases cs with
  | nil => simp [splitSlashes]
  | cons c cs =>
    unfold splitSlashes
    rw [List.foldr_cons]
    split
    · simp
    · split <;> simp

theorem splitSlashes_append_slash (cs ds : List Char) :
    splitSlashes (cs ++ '/' :: ds) = splitSlashes cs ++ splitSlashes ds := by
  induction cs with
  | nil => exact splitSlashes_cons_slash ds
  | cons c cs ih =>
    by_cases hc : c = '/'
    · subst hc
      rw [List.cons_append, splitSlashes_cons_slash, splitSlashes_cons_slash, ih, List.cons_append]
    · cases hs : splitSlashes cs with
      | nil => exact absurd hs (splitSlashes_ne_nil cs)
      | cons piece rest =>
        rw [hs, List.cons_append] at ih
        rw [List.cons_append, splitSlashes_cons hc ih, splitSlashes_cons hc hs, List.cons_append]

namespace Step.IsName

variable {name : String} (h : IsName name)

include h

theorem toList_ne_nil : name.toList ≠ [] := by
  simpa using h.1

theorem head?_ne : name.toList.head? ≠ some '/' := fun hhead =>
  h.2.2.2 (List.mem_of_head? hhead)

theorem splitSlashes_toList : splitSlashes name.toList = [name.toList] :=
  splitSlashes_piece h.2.2.2

end Step.IsName

namespace Path

variable (p : Path) {name : String} (h : Step.IsName name)

include h

/-- How the text of a path is continued by a name. -/
theorem text_joinText : ∃ front, (p.joinText name).text.toList = front ++ name.toList ∧
    (front = [] ∧ p.text.toList = [] ∨ (∃ cs, front = cs ++ ['/'] ∧
      (p.text.toList = cs ∧ cs ≠ [] ∨ p.text.toList = cs ++ ['/']))) := by
  have habsolute : (ofText name).isAbsolute = false := by
    rw [isAbsolute, text_ofText, beq_eq_false_iff_ne]
    exact h.head?_ne
  have hjoin : p.joinText name = if p.text.toList.getLast?.all (· == '/') then
      ofText (p.text ++ name) else ofText (p.text ++ "/" ++ name) := by
    rw [joinText, join, habsolute]
    rfl
  rw [hjoin]
  cases hp : p.text.toList using List.reverseRecOn with
  | nil => exact ⟨[], by simp [hp]⟩
  | append_singleton cs c =>
    by_cases hc : c = '/'
    · subst hc
      exact ⟨cs ++ ['/'], by simp [hp]⟩
    · refine ⟨cs ++ [c] ++ ['/'], ?_, .inr ⟨cs ++ [c], rfl, .inl ⟨rfl, by simp⟩⟩⟩
      simp [hp, hc]

theorem isAbsolute_joinText : (p.joinText name).isAbsolute = p.isAbsolute := by
  obtain ⟨front, htext, ⟨rfl, hp⟩ | ⟨cs, rfl, ⟨hp, hcs⟩ | hp⟩⟩ := p.text_joinText h
  · rw [isAbsolute, isAbsolute, htext, hp, List.nil_append]
    exact beq_eq_false_iff_ne.2 h.head?_ne
  · obtain ⟨c, cs, rfl⟩ := List.exists_cons_of_ne_nil hcs
    rw [isAbsolute, isAbsolute, htext, hp]
    rfl
  · rw [isAbsolute, isAbsolute, htext, hp]
    cases cs <;> rfl

theorem segments_joinText : ∃ pieces, (p.joinText name).segments = pieces ++ [name] ∧
    (p.segments = pieces ∨ p.segments = pieces ++ [""]) := by
  have hname : (splitSlashes name.toList).map String.ofList = [name] := by
    rw [h.splitSlashes_toList, List.map_singleton, String.ofList_toList]
  obtain ⟨front, htext, ⟨rfl, hp⟩ | ⟨cs, rfl, hp⟩⟩ := p.text_joinText h
  · refine ⟨[], ?_, .inr ?_⟩
    · rw [segments, htext, List.nil_append, hname, List.nil_append]
    · rw [segments, hp]
      rfl
  · refine ⟨(splitSlashes cs).map String.ofList, ?_, ?_⟩
    · rw [segments, htext, List.append_assoc, List.singleton_append, splitSlashes_append_slash,
        List.map_append, hname]
    · rcases hp with ⟨hp, -⟩ | hp
      · exact .inl (by rw [segments, hp])
      · refine .inr ?_
        rw [segments, hp, splitSlashes_append_slash, List.map_append]
        rfl

end Path

namespace FileTree

variable {t t' : FileTree}

/-! ## Following a path piece by piece -/

theorem walk_append (place : Place) (as bs : List String) :
    t.walk place (as ++ bs) = t.walk place as >>= fun q => t.walk q bs := by
  induction as generalizing place with
  | nil => rfl
  | cons piece as ih =>
    simp only [List.cons_append, walk]
    cases t.node? place with
    | none => rfl
    | some node =>
      cases node with
      | file _ => rfl
      | directory =>
        dsimp only
        split_ifs
        · exact ih place
        · exact ih place.tail
        · cases t.entry? place piece with
          | error e => rfl
          | ok node =>
            cases node with
            | none => rfl
            | some _ => exact ih (piece :: place)

/-- The place itself, if it is a directory. -/
def asDirectory (t : FileTree) (place : Place) : Except FileError Place :=
  match t.node? place with
  | none => .error .notFound
  | some (.file _) => .error .notDirectory
  | some .directory => .ok place

/-- The directory that the pieces of a path lead to. They are followed for an empty path and an
overlong one too, as a path that is joined from it may be neither. -/
def enter (t : FileTree) (p : Path) : Except FileError Place :=
  t.walk (t.origin p) p.segments >>= t.asDirectory

theorem asDirectory_eq_ok {place q : Place} :
    t.asDirectory place = .ok q ↔ q = place ∧ t.node? place = some .directory := by
  unfold asDirectory
  split
  · next h => simp [h]
  · next h => simp [h]
  · next h => simp [h, eq_comm]

theorem asDirectory_bind {place : Place} : t.asDirectory place >>= t.asDirectory =
    t.asDirectory place := by
  cases h : t.asDirectory place with
  | error e => rfl
  | ok q =>
    obtain ⟨rfl, hplace⟩ := asDirectory_eq_ok.1 h
    exact h

theorem walk_idle (place : Place) {piece : String} (h : piece = "" ∨ piece = ".") :
    t.walk place [piece] = t.asDirectory place := by
  rw [walk, asDirectory]
  cases t.node? place with
  | none => rfl
  | some node =>
    cases node with
    | file content => rfl
    | directory => exact if_pos h

theorem walk_up (place : Place) :
    t.walk place [".."] = t.asDirectory place >>= fun q => .ok q.tail := by
  rw [walk, asDirectory]
  cases t.node? place with
  | none => rfl
  | some node =>
    cases node with
    | file content => rfl
    | directory =>
      have hidle : ¬(".." = "" ∨ ".." = ".") := by decide
      exact (if_neg hidle).trans (if_pos rfl)

theorem walk_name (place : Place) {name : String} (h : Step.IsName name) :
    t.walk place [name] = t.asDirectory place >>= fun q => t.entry? q name >>= fun node =>
      match node with
      | none => .error .notFound
      | some _ => .ok (name :: q) := by
  simp only [walk, asDirectory, h.1, h.2.1, h.2.2.1, or_self, if_false]
  cases hplace : t.node? place with
  | none => rfl
  | some node =>
    cases node with
    | file _ => rfl
    | directory =>
      dsimp only
      rw [Except.ok_bind]
      cases t.entry? place name with
      | error e => rfl
      | ok node => cases node <;> rfl

/-! ## Operations at the path of an entry -/

section Operations

variable {p : Path} {name : String} (h : Step.IsName name)

include h

theorem origin_joinText : t.origin (p.joinText name) = t.origin p := by
  rw [origin, origin, p.isAbsolute_joinText h]

/-- The pieces before the name lead to the directory, with or without the empty piece after a slash
at the end. -/
theorem walk_joinText : ∃ pieces, (p.joinText name).segments = pieces ++ [name] ∧
    t.walk (t.origin p) pieces >>= t.asDirectory = t.enter p := by
  obtain ⟨pieces, hjoin, hp | hp⟩ := p.segments_joinText h
  · exact ⟨pieces, hjoin, by rw [enter, hp]⟩
  · refine ⟨pieces, hjoin, ?_⟩
    rw [enter, hp, walk_append]
    simp only [walk_idle _ (.inl rfl), bind_assoc, asDirectory_bind]

theorem entry?_target {place : Place} :
    Target.entry? ⟨place, some name, false⟩ = some name := by
  unfold Target.entry?
  simp [Option.filter, h.2.1, h.2.2.1]

variable (hfault : (p.joinText name).fault? = none)

include hfault

theorem locate_joinText : t.locate (p.joinText name) = t.enter p >>= fun place =>
    t.entry? place name >>= fun node =>
      match node with
      | none => .error .notFound
      | some _ => .ok (name :: place) := by
  obtain ⟨pieces, hjoin, henter⟩ := walk_joinText (t := t) (p := p) h
  rw [locate, hfault]
  dsimp only
  rw [origin_joinText h, hjoin, walk_append, ← henter, bind_assoc]
  simp only [walk_name _ h]

theorem target_joinText : t.target (p.joinText name) = t.enter p >>= fun place =>
    .ok ⟨place, some name, false⟩ := by
  obtain ⟨pieces, hjoin, henter⟩ := walk_joinText (t := t) (p := p) h
  have hname : (name == "") = false := beq_eq_false_iff_ne.2 h.1
  have hslash : (some name == some "") = false := hname
  unfold target
  simp only [hfault, hjoin, List.reverse_append, List.reverse_singleton, List.singleton_append,
    List.dropWhile_cons, hname, Bool.false_eq_true, if_false, List.tail_cons, List.reverse_reverse,
    List.head?_cons, origin_joinText h, hslash]
  rw [← henter, bind_assoc]
  change _ >>= _ = _
  congr 1
  funext place
  rw [asDirectory]
  cases t.node? place with
  | none => rfl
  | some node => cases node <;> rfl

theorem read_joinText : t.read (p.joinText name) = t.enter p >>= fun place =>
    t.entry? place name >>= fun node =>
      match node with
      | none => .error .notFound
      | some .directory => .error .isDirectory
      | some (.file content) => .ok content := by
  rw [read, lookup, locate_joinText h hfault, bind_assoc, bind_assoc]
  congr 1
  funext place
  unfold entry?
  split
  · rfl
  · simp only [Except.ok_bind]
    cases hnode : t.node? (name :: place) with
    | none => rfl
    | some node =>
      simp only [Except.ok_bind, hnode]
      cases node <;> rfl

theorem write_joinText (content : Bytes) : t.write (p.joinText name) content =
    t.enter p >>= fun place => t.entry? place name >>= fun node =>
      match node with
      | some .directory => .error .isDirectory
      | _ => .ok (t.putFile place name content) := by
  rw [write, target_joinText h hfault, bind_assoc]
  congr 1
  funext place
  rw [Except.ok_bind, entry?_target h]
  rfl

theorem remove_joinText : t.remove (p.joinText name) =
    t.enter p >>= fun place => t.entry? place name >>= fun node =>
      match node with
      | none => .error .notFound
      | some .directory => .error .isDirectory
      | some (.file _) => .ok (t.dropFile place name) := by
  rw [remove, target_joinText h hfault, bind_assoc]
  congr 1
  funext place
  rw [Except.ok_bind, entry?_target h]
  rfl

end Operations

/-! ## When they work -/

theorem directory_of_walk {place q : Place} {pieces : List String}
    (h : t.walk place pieces = .ok q) (hq : t.node? q = some .directory) :
    t.node? place = some .directory := by
  cases pieces with
  | nil =>
    cases h
    exact hq
  | cons piece pieces =>
    simp only [walk] at h
    split at h
    · cases h
    · cases h
    · next hplace => exact hplace

theorem entry?_eq_ok {place : Place} {name : String} {node : Option Node} :
    t.entry? place name = .ok node ↔
      name.utf8ByteSize ≤ nameLimit ∧ t.node? (name :: place) = node := by
  unfold entry?
  split
  · next hlong => simp [Nat.not_le.2 hlong]
  · next hshort => simp [Nat.not_lt.1 hshort]

theorem walk_keeps (hkeeps : t.Keeps t') {place q : Place} {pieces : List String}
    (h : t.walk place pieces = .ok q) (hq : t.node? q = some .directory) :
    t'.walk place pieces = .ok q := by
  induction pieces generalizing place with
  | nil => exact h
  | cons piece pieces ih =>
    simp only [walk] at h ⊢
    split at h
    · cases h
    · cases h
    · next hplace =>
      rw [hkeeps.directory place hplace]
      dsimp only
      split_ifs at h ⊢ with hidle hup
      · exact ih h
      · exact ih h
      · split at h
        · cases h
        · cases h
        · next hentry =>
          have hpiece := hkeeps.directory _ (directory_of_walk h hq)
          rw [entry?_eq_ok.2 ⟨(entry?_eq_ok.1 hentry).1, hpiece⟩]
          exact ih h

theorem directory_origin (t : FileTree) (p : Path) : t.node? (t.origin p) = some .directory := by
  unfold origin
  split
  · rfl
  · exact t.cwd_directory

theorem enter_keeps (hkeeps : t.Keeps t') {p : Path} {place : Place}
    (h : t.enter p = .ok place) : t'.enter p = .ok place := by
  obtain ⟨q, hwalk, hq⟩ := Except.bind_eq_ok.1 h
  obtain ⟨rfl, hplace⟩ := asDirectory_eq_ok.1 hq
  have horigin : t'.origin p = t.origin p := by rw [origin, origin, hkeeps.cwd]
  rw [enter, horigin, walk_keeps hkeeps hwalk hplace]
  exact asDirectory_eq_ok.2 ⟨rfl, hkeeps.directory _ hplace⟩

theorem directory_of_enter {p : Path} {place : Place} (h : t.enter p = .ok place) :
    t.node? place = some .directory := by
  obtain ⟨q, -, hq⟩ := Except.bind_eq_ok.1 h
  obtain ⟨rfl, hplace⟩ := asDirectory_eq_ok.1 hq
  exact hplace

section Success

variable {p : Path} {name : String} (h : Step.IsName name) {content : Bytes}

theorem lookup_of_fault {e : FileError} (h : p.fault? = some e) : t.lookup p = .error e := by
  rw [lookup, locate, h]
  rfl

theorem read_of_fault {e : FileError} (h : p.fault? = some e) : t.read p = .error e := by
  rw [read, lookup_of_fault h]
  rfl

theorem target_of_fault {e : FileError} (h : p.fault? = some e) : t.target p = .error e := by
  rw [target, h]
  rfl

/-- A path that can be no path is not made, unless it is empty. -/
theorem makeDirectories_of_fault {e : FileError} (hempty : p.text ≠ "") (h : p.fault? = some e) :
    t.makeDirectories p = (t, .error e) := by
  have hne : e ≠ .notFound := by
    rintro rfl
    rw [Path.fault?, if_neg hempty] at h
    split_ifs at h <;> cases h
  have hsettle : t.settleDirectory p = (t, .error e) := by
    rw [settleDirectory, makeDirectory, target_of_fault h]
    simp [isDirectory, lookup_of_fault h]
  rw [makeDirectories, makeDirectoriesUpTo, if_neg hempty, hsettle]
  cases e with
  | notFound => exact absurd rfl hne
  | _ => rfl

theorem write_of_fault {e : FileError} (h : p.fault? = some e) (content : Bytes) :
    t.write p content = .error e := by
  rw [write, target_of_fault h]
  rfl

theorem remove_of_fault {e : FileError} (h : p.fault? = some e) : t.remove p = .error e := by
  rw [remove, target_of_fault h]
  rfl

include h

theorem read_joinText_eq_ok : t.read (p.joinText name) = .ok content ↔
    (p.joinText name).fault? = none ∧ name.utf8ByteSize ≤ nameLimit ∧
      ∃ place, t.enter p = .ok place ∧ t.fileAt? (name :: place) = some content := by
  cases hfault : (p.joinText name).fault? with
  | some e => simp [read_of_fault hfault]
  | none =>
    simp only [read_joinText h hfault, Except.bind_eq_ok, true_and, entry?_eq_ok,
      fileAt?_eq_some]
    constructor
    · rintro ⟨place, hplace, node, ⟨hsize, rfl⟩, hnode⟩
      refine ⟨hsize, place, hplace, ?_⟩
      split at hnode
      · cases hnode
      · cases hnode
      · next hfile => rw [hfile, Except.ok.inj hnode]
    · rintro ⟨hsize, place, hplace, hfile⟩
      exact ⟨place, hplace, _, ⟨hsize, rfl⟩, by rw [hfile]⟩

theorem write_joinText_eq_ok : t.write (p.joinText name) content = .ok t' ↔
    (p.joinText name).fault? = none ∧ name.utf8ByteSize ≤ nameLimit ∧
      ∃ place, t.enter p = .ok place ∧ t.node? (name :: place) ≠ some .directory ∧
        t' = t.putFile place name content := by
  cases hfault : (p.joinText name).fault? with
  | some e => simp [write_of_fault hfault]
  | none =>
    simp only [write_joinText h hfault, Except.bind_eq_ok, true_and, entry?_eq_ok]
    constructor
    · rintro ⟨place, hplace, node, ⟨hsize, rfl⟩, hnode⟩
      refine ⟨hsize, place, hplace, ?_⟩
      split at hnode
      · cases hnode
      · next hfile => exact ⟨hfile, (Except.ok.inj hnode).symm⟩
    · rintro ⟨hsize, place, hplace, hfile, rfl⟩
      refine ⟨place, hplace, _, ⟨hsize, rfl⟩, ?_⟩
      split
      · next hdirectory => exact absurd hdirectory hfile
      · rfl

theorem remove_joinText_eq_ok : t.remove (p.joinText name) = .ok t' ↔
    (p.joinText name).fault? = none ∧ name.utf8ByteSize ≤ nameLimit ∧
      ∃ place, t.enter p = .ok place ∧ (t.fileAt? (name :: place)).isSome ∧
        t' = t.dropFile place name := by
  cases hfault : (p.joinText name).fault? with
  | some e => simp [remove_of_fault hfault]
  | none =>
    simp only [remove_joinText h hfault, Except.bind_eq_ok, true_and, entry?_eq_ok,
      Option.isSome_iff_exists, fileAt?_eq_some]
    constructor
    · rintro ⟨place, hplace, node, ⟨hsize, rfl⟩, hnode⟩
      refine ⟨hsize, place, hplace, ?_⟩
      split at hnode
      · cases hnode
      · cases hnode
      · next content hfile => exact ⟨⟨content, hfile⟩, (Except.ok.inj hnode).symm⟩
    · rintro ⟨hsize, place, hplace, ⟨content, hfile⟩, rfl⟩
      exact ⟨place, hplace, _, ⟨hsize, rfl⟩, by rw [hfile]⟩

end Success

section Rename

variable {p : Path} {a b : String} (ha : Step.IsName a) (hb : Step.IsName b) (hne : a ≠ b)

include ha hb hne

/-- A file that is renamed within its directory is written under the new name and goes under the old
one. -/
theorem rename_joinText {place : Place} {content : Bytes} (hfault : (p.joinText a).fault? = none)
    (hsize : a.utf8ByteSize ≤ nameLimit) (henter : t.enter p = .ok place)
    (hfile : t.fileAt? (a :: place) = some content) :
    t.rename (p.joinText a) (p.joinText b) =
      (t.write (p.joinText b) content).map fun moved => moved.dropFile place a := by
  have hplaces : a :: place ≠ b :: place := fun h => hne (List.cons.inj h).1
  have hlocate : t.locate (p.joinText a) = .ok (a :: place) := by
    rw [locate_joinText ha hfault, henter, Except.ok_bind,
      entry?_eq_ok.2 ⟨hsize, fileAt?_eq_some.1 hfile⟩]
    rfl
  have hread := (read_joinText_eq_ok ha).2 ⟨hfault, hsize, place, henter, hfile⟩
  rw [rename, hlocate, Except.ok_bind, hread, Except.ok_bind]
  cases hwrite : t.write (p.joinText b) content with
  | error e => rfl
  | ok moved =>
    obtain ⟨hfault', -, place', henter', hnode, rfl⟩ := (write_joinText_eq_ok hb).1 hwrite
    obtain rfl : place' = place := Except.ok.inj (henter'.symm.trans henter)
    -- The two paths are those of different places, so the file at `a` goes in the end.
    have hother : (t.locate (p.joinText b)).toOption ≠ some (a :: place') := by
      rw [locate_joinText hb hfault', henter, Except.ok_bind]
      cases t.entry? place' b with
      | error e => nofun
      | ok node =>
        cases node with
        | none => nofun
        | some _ => exact fun h => hplaces (Option.some.inj h).symm
    rw [Except.ok_bind, if_neg hother]
    refine (remove_joinText_eq_ok ha).2 ⟨hfault, hsize, place',
      enter_keeps (keeps_putFile ..) henter, ?_, rfl⟩
    rw [fileAt?_putFile (directory_of_enter henter) hnode, if_neg hplaces, hfile]
    rfl

theorem rename_joinText_eq_ok : t.rename (p.joinText a) (p.joinText b) = .ok t' ↔
    (p.joinText a).fault? = none ∧ a.utf8ByteSize ≤ nameLimit ∧
      (p.joinText b).fault? = none ∧ b.utf8ByteSize ≤ nameLimit ∧
      ∃ place content, t.enter p = .ok place ∧ t.fileAt? (a :: place) = some content ∧
        t.node? (b :: place) ≠ some .directory ∧
        t' = (t.putFile place b content).dropFile place a := by
  constructor
  · intro h
    obtain ⟨_, -, hread⟩ := Except.bind_eq_ok.1 h
    obtain ⟨content, hread, -⟩ := Except.bind_eq_ok.1 hread
    obtain ⟨hfault, hsize, place, henter, hfile⟩ := (read_joinText_eq_ok ha).1 hread
    rw [rename_joinText ha hb hne hfault hsize henter hfile] at h
    obtain ⟨moved, hwrite, rfl⟩ := Except.map_eq_ok.1 h
    obtain ⟨hfault', hsize', place', henter', hnode, rfl⟩ := (write_joinText_eq_ok hb).1 hwrite
    obtain rfl : place' = place := Except.ok.inj (henter'.symm.trans henter)
    exact ⟨hfault, hsize, hfault', hsize', place', content, henter, hfile, hnode, rfl⟩
  · rintro ⟨hfault, hsize, hfault', hsize', place, content, henter, hfile, hnode, rfl⟩
    rw [rename_joinText ha hb hne hfault hsize henter hfile]
    exact Except.map_eq_ok.2
      ⟨_, (write_joinText_eq_ok hb).2 ⟨hfault', hsize', place, henter, hnode, rfl⟩, rfl⟩

end Rename

/-! ## All that a directory holds -/

section Names

variable {place : Place} {name : Bytes}

@[simp] theorem entryAt?_ofString (t : FileTree) (place : Place) (name : String) :
    t.entryAt? place (Utf8.ofString name) = t.node? (name :: place) := by
  rw [entryAt?, Utf8.text?_ofString]

/-- A file whose name is no text is a stray. -/
theorem entryAt?_of_not_valid (h : ¬ Utf8.Valid name) : t.entryAt? place name ≠ none ↔
    ∃ f ∈ t.strays, f.place = place ∧ f.name = name := by
  rw [entryAt?, Utf8.text?_of_not_valid h]
  simp

/-- The names are those in the directory at the place, each once, in whatever order the directory
is read. -/
structure Lists (t : FileTree) (place : Place) (names : List Bytes) : Prop where
  nodup : names.Nodup
  mem_iff : ∀ name, name ∈ names ↔ t.entryAt? place name ≠ none

theorem Lists.perm {names names' : List Bytes} (h : t.Lists place names)
    (h' : t.Lists place names') : names.Perm names' :=
  (List.perm_ext_iff_of_nodup h.nodup h'.nodup).2 fun name =>
    (h.mem_iff name).trans (h'.mem_iff name).symm

theorem mem_strayNames : name ∈ t.strayNames place ↔
    ∃ f ∈ t.strays, f.place = place ∧ f.name = name := by
  simp [strayNames, and_assoc]

theorem not_valid_of_mem_strayNames (h : name ∈ t.strayNames place) : ¬ Utf8.Valid name := by
  obtain ⟨f, -, -, rfl⟩ := mem_strayNames.1 h
  exact f.notText

theorem nodup_strayNames (t : FileTree) (place : Place) : (t.strayNames place).Nodup := by
  refine List.pairwise_map.2 (List.pairwise_filter.2 (t.strays_distinct.imp ?_))
  intro f g hne hf hg
  exact hne ((of_decide_eq_true hf).trans (of_decide_eq_true hg).symm)

/-- The texts among the names and the names that are no text make up all of them. -/
theorem lists_append {texts : List String} (hnodup : texts.Nodup)
    (hmem : ∀ name, name ∈ texts ↔ t.node? (name :: place) ≠ none) :
    t.Lists place (texts.map Utf8.ofString ++ t.strayNames place) := by
  refine ⟨List.nodup_append.2 ⟨hnodup.map Utf8.ofString_injective, t.nodup_strayNames place, ?_⟩,
    fun name => ?_⟩
  · rintro _ htext name hstray rfl
    obtain ⟨text, -, rfl⟩ := List.mem_map.1 htext
    exact not_valid_of_mem_strayNames hstray (Utf8.valid_ofString text)
  · rw [List.mem_append]
    by_cases hvalid : Utf8.Valid name
    · obtain ⟨text, rfl⟩ : ∃ text, name = Utf8.ofString text :=
        ⟨_, Utf8.text?_eq_some_iff.1 (if_pos hvalid)⟩
      rw [entryAt?_ofString, List.mem_map_of_injective Utf8.ofString_injective, hmem]
      exact or_iff_left fun hstray => not_valid_of_mem_strayNames hstray hvalid
    · rw [entryAt?_of_not_valid hvalid, mem_strayNames]
      refine or_iff_right fun htext => ?_
      obtain ⟨text, -, rfl⟩ := List.mem_map.1 htext
      exact hvalid (Utf8.valid_ofString text)

end Names

/-! ## Directories that are there -/

/-- The path is that of a directory, which stands at the place. -/
def DirectoryAt (t : FileTree) (p : Path) (place : Place) : Prop :=
  t.locate p = .ok place ∧ t.node? place = some .directory

instance (t : FileTree) (p : Path) (place : Place) : Decidable (t.DirectoryAt p place) :=
  inferInstanceAs (Decidable (_ ∧ _))

theorem directoryAt_of_enter {p : Path} {place : Place} (h : t.enter p = .ok place)
    (hfault : p.fault? = none) : t.DirectoryAt p place := by
  obtain ⟨q, hwalk, hq⟩ := Except.bind_eq_ok.1 h
  obtain ⟨rfl, hplace⟩ := asDirectory_eq_ok.1 hq
  exact ⟨by rw [locate, hfault]; exact hwalk, hplace⟩

namespace DirectoryAt

variable {p : Path} {place : Place}

theorem fault?_eq_none (h : t.DirectoryAt p place) : p.fault? = none := by
  have hlocate := h.1
  unfold locate at hlocate
  split at hlocate
  · cases hlocate
  · next hfault => exact hfault

theorem walk_eq_ok (h : t.DirectoryAt p place) : t.walk (t.origin p) p.segments = .ok place := by
  have hlocate := h.1
  rwa [locate, h.fault?_eq_none] at hlocate

theorem enter (h : t.DirectoryAt p place) : t.enter p = .ok place := by
  rw [FileTree.enter, h.walk_eq_ok]
  exact asDirectory_eq_ok.2 ⟨rfl, h.2⟩

theorem keeps (h : t.DirectoryAt p place) (hkeeps : t.Keeps t') : t'.DirectoryAt p place := by
  have horigin : t'.origin p = t.origin p := by rw [origin, origin, hkeeps.cwd]
  refine ⟨?_, hkeeps.directory place h.2⟩
  rw [locate, h.fault?_eq_none, horigin]
  exact walk_keeps hkeeps h.walk_eq_ok h.2

/-- A directory is not made again. -/
theorem makeDirectory (h : t.DirectoryAt p place) :
    t.makeDirectory p = .error .alreadyExists := by
  have hwalk := h.walk_eq_ok
  obtain ⟨idle, hidle⟩ : ∃ idle, p.segments =
      (p.segments.reverse.dropWhile (· == "")).reverse ++ idle := by
    refine ⟨(p.segments.reverse.takeWhile (· == "")).reverse, ?_⟩
    rw [← List.reverse_append, List.takeWhile_append_dropWhile, List.reverse_reverse]
  unfold FileTree.makeDirectory target
  simp only [h.fault?_eq_none]
  rw [hidle] at hwalk
  cases hkept : p.segments.reverse.dropWhile (· == "") with
  | nil =>
    simp only [List.tail_nil, List.reverse_nil, walk, Except.ok_bind, directory_origin,
      List.head?_nil]
    rfl
  | cons name before =>
    have hne : name ≠ "" := by
      have hhead := List.head?_dropWhile_not (· == "") p.segments.reverse
      rw [hkept] at hhead
      simpa using hhead
    rw [hkept, List.reverse_cons, List.append_assoc, walk_append] at hwalk
    obtain ⟨q, hbefore, hname⟩ := Except.bind_eq_ok.1 hwalk
    have hq := directory_of_walk hname h.2
    simp only [List.tail_cons, hbefore, Except.ok_bind, hq, List.head?_cons]
    simp only [List.singleton_append, walk, hq, hne, false_or] at hname
    unfold Target.entry?
    simp only [Option.filter]
    split_ifs at hname with hhere hup
    · rw [hhere]
      rfl
    · rw [hup]
      rfl
    · have hplain : (name != "." && name != "..") = true := by simp [hhere, hup]
      simp only [hplain, if_true]
      split at hname
      · cases hname
      · cases hname
      · next hentry =>
        rw [hentry]
        rfl

theorem makeDirectories (h : t.DirectoryAt p place) : t.makeDirectories p = (t, .ok ()) := by
  have hne : p.text ≠ "" := by
    intro hempty
    have hfault := h.fault?_eq_none
    rw [Path.fault?, if_pos hempty] at hfault
    cases hfault
  have hsettle : t.settleDirectory p = (t, .ok ()) := by
    have hdirectory : t.isDirectory p = true := by
      rw [isDirectory, lookup, h.1, Except.ok_bind, h.2]
    rw [settleDirectory, h.makeDirectory, hdirectory]
    rfl
  rw [FileTree.makeDirectories, makeDirectoriesUpTo, if_neg hne, hsettle]

/-- The names in a directory are those of what stands in it, each once and in order. -/
theorem list (h : t.DirectoryAt p place) : ∃ names, t.list p = .ok names ∧
    (names.Pairwise fun a b => compare a b = .lt) ∧
      ∀ name, name ∈ names ↔ t.node? (name :: place) ≠ none := by
  refine ⟨_, by rw [FileTree.list, h.1, Except.ok_bind, h.2], Table.keys_pairwise _, fun name => ?_⟩
  rw [Table.mem_keys_setOf, List.mem_filterMap]
  have hkey : t.node? (name :: place) ≠ none ↔ name :: place ∈ t.nodes.keys := by
    rw [← Table.contains_iff_mem_keys, Table.contains, Option.isSome_iff_ne_none]
    rfl
  rw [hkey]
  constructor
  · rintro ⟨q, hq, hname⟩
    split at hname
    · split_ifs at hname with hparent
      cases hname
      exact hparent ▸ hq
    · cases hname
  · exact fun hmem => ⟨_, hmem, if_pos rfl⟩

theorem entryNames (h : t.DirectoryAt p place) : ∃ texts : List String,
    t.entryNames p = .ok (texts.map Utf8.ofString ++ t.strayNames place) ∧
      (texts.Pairwise fun a b => compare a b = .lt) ∧
        ∀ name, name ∈ texts ↔ t.node? (name :: place) ≠ none := by
  obtain ⟨texts, hlist, hsorted, hmem⟩ := h.list
  refine ⟨texts, ?_, hsorted, hmem⟩
  rw [FileTree.entryNames, h.1, Except.ok_bind, hlist]
  rfl

end DirectoryAt

end FileTree

end Recompile
