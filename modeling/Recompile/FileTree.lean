import Recompile.Path
import Recompile.Table

/-!
# File trees

The part of the world that builds read and snapshots are written to: a tree of directories and
regular files, without links, and a working directory in it. A place in the tree is the list of
names that lead to it, the innermost name first, so the parent of a place is its tail and the root
is its own parent.

Every place that holds something lies in a directory, and the working directory is one; the changes
that the tree knows (`putFile`, `putDirectory`, `dropFile`, `putStray`) keep that and do nothing
where they would not.

Paths are texts, but a directory can also hold files whose names are none (`Stray`). No path leads
to them; they are seen only by who goes through all names of a directory (`FileTree.entryNames`).

`FileTree.walk` follows a path step by step as the operating system does: each step but the last has
to be a directory that exists. Some paths lead nowhere in any tree (`Path.fault?`), and a directory
has no entry under a name that is too long (`FileTree.entry?`).
-/

namespace Recompile

inductive FileError where
  | notFound
  | alreadyExists
  | notDirectory
  | isDirectory
  /-- What was to be copied is no file. -/
  | notRegular
  /-- The path holds a NUL, which ends a path for the operating system. -/
  | nulInPath
  /-- The path, or one of its names, has too many bytes. -/
  | nameTooLong
  /-- The content was to be read as text and is no UTF-8. -/
  | notText
  | other (message : String)
  deriving DecidableEq, Repr

def FileError.message : FileError → String
  | notFound => "No such file or directory (os error 2)"
  | alreadyExists => "File exists (os error 17)"
  | notDirectory => "Not a directory (os error 20)"
  | isDirectory => "Is a directory (os error 21)"
  | notRegular => "the source path is neither a regular file nor a symlink to a regular file"
  | nulInPath => "file name contained an unexpected NUL byte"
  | nameTooLong => "File name too long (os error 36)"
  | notText => "stream did not contain valid UTF-8"
  | other message => message

/-! ## Limits -/

/-- Every path has fewer bytes than this. -/
def pathLimit : Nat := 4096

/-- No name of an entry has more bytes than this. -/
def nameLimit : Nat := 255

/-- Why a path leads nowhere, whatever the tree: it is empty, holds a NUL or is too long. -/
def Path.fault? (p : Path) : Option FileError :=
  if p.text = "" then some .notFound
  else if '\x00' ∈ p.text.toList then some .nulInPath
  else if pathLimit ≤ p.text.utf8ByteSize then some .nameTooLong
  else none

/-! ## Places -/

inductive Node where
  | directory
  | file (content : Bytes)
  deriving DecidableEq, Repr

/-- The names that lead to a place from the root, the innermost first. -/
abbrev Place := List String

/-- What stands at a place; the root is always a directory. -/
def nodeAt? (nodes : Table Place Node) : Place → Option Node
  | [] => some .directory
  | name :: place => nodes.find? (name :: place)

theorem compare_place_eq {p q : Place} : compare p q = .eq ↔ p = q :=
  Std.LawfulEqCmp.compare_eq_iff_eq

theorem nodeAt?_insert (nodes : Table Place Node) (name : String) (place : Place) (node : Node)
    (q : Place) :
    nodeAt? (nodes.insert (name :: place) node) q =
      if q = name :: place then some node else nodeAt? nodes q := by
  cases q with
  | nil => simp [nodeAt?]
  | cons n q => simp only [nodeAt?, Table.find?_insert, compare_place_eq]

theorem nodeAt?_erase (nodes : Table Place Node) (name : String) (place : Place) (q : Place) :
    nodeAt? (nodes.erase (name :: place)) q =
      if q = name :: place then none else nodeAt? nodes q := by
  cases q with
  | nil => simp [nodeAt?]
  | cons n q => simp only [nodeAt?, Table.find?_erase, compare_place_eq]

section Directories

variable {nodes : Table Place Node} {name : String} {place : Place} {node : Node}

/-- Directories stay when something is put in the place of another thing than a directory. -/
theorem directory_insert (hnew : nodeAt? nodes (name :: place) ≠ some .directory) {q : Place}
    (hq : nodeAt? nodes q = some .directory) :
    nodeAt? (nodes.insert (name :: place) node) q = some .directory := by
  rw [nodeAt?_insert, if_neg, hq]
  rintro rfl
  exact hnew hq

theorem directory_erase (hfile : nodeAt? nodes (name :: place) ≠ some .directory) {q : Place}
    (hq : nodeAt? nodes q = some .directory) :
    nodeAt? (nodes.erase (name :: place)) q = some .directory := by
  rw [nodeAt?_erase, if_neg, hq]
  rintro rfl
  exact hfile hq

/-- What is put into a directory lies in one, and so does all that was there. -/
theorem parent_insert
    (hparent : ∀ n p, nodeAt? nodes (n :: p) ≠ none → nodeAt? nodes p = some .directory)
    (hplace : nodeAt? nodes place = some .directory)
    (hnew : nodeAt? nodes (name :: place) ≠ some .directory) (n : String) (p : Place)
    (hp : nodeAt? (nodes.insert (name :: place) node) (n :: p) ≠ none) :
    nodeAt? (nodes.insert (name :: place) node) p = some .directory := by
  refine directory_insert hnew ?_
  rw [nodeAt?_insert] at hp
  split at hp
  · next h =>
    cases h
    exact hplace
  · exact hparent n p hp

theorem parent_erase
    (hparent : ∀ n p, nodeAt? nodes (n :: p) ≠ none → nodeAt? nodes p = some .directory)
    (hfile : nodeAt? nodes (name :: place) ≠ some .directory) (n : String) (p : Place)
    (hp : nodeAt? (nodes.erase (name :: place)) (n :: p) ≠ none) :
    nodeAt? (nodes.erase (name :: place)) p = some .directory := by
  refine directory_erase hfile ?_
  rw [nodeAt?_erase] at hp
  split at hp
  · exact absurd rfl hp
  · exact hparent n p hp

end Directories

/-- A file whose name is no text, and the directory that it lies in. -/
structure Stray where
  place : Place
  name : Bytes
  content : Bytes
  notText : ¬ Utf8.Valid name

/-- A tree of directories and files with a working directory. -/
structure FileTree where
  nodes : Table Place Node
  /-- The files that no path leads to. -/
  strays : List Stray
  cwd : Place
  parent_directory : ∀ name place, nodeAt? nodes (name :: place) ≠ none →
    nodeAt? nodes place = some .directory
  strays_directory : ∀ f ∈ strays, nodeAt? nodes f.place = some .directory
  strays_distinct : strays.Pairwise fun f g => f.place = g.place → f.name ≠ g.name
  cwd_directory : nodeAt? nodes cwd = some .directory

namespace FileTree

def node? (t : FileTree) (place : Place) : Option Node := nodeAt? t.nodes place

/-! ## Changes -/

def root : FileTree := ⟨∅, [], [], fun _ _ h => absurd rfl h, by simp, .nil, rfl⟩

instance : Inhabited FileTree := ⟨root⟩

/-- Puts a file into a directory, in place of the file of that name. -/
def putFile (t : FileTree) (place : Place) (name : String) (content : Bytes) : FileTree :=
  if h : t.node? place = some .directory ∧ t.node? (name :: place) ≠ some .directory then
    { t with
      nodes := t.nodes.insert (name :: place) (.file content)
      parent_directory := parent_insert t.parent_directory h.1 h.2
      strays_directory := fun f hf => directory_insert h.2 (t.strays_directory f hf)
      cwd_directory := directory_insert h.2 t.cwd_directory }
  else t

/-- Puts an empty directory where nothing stands. -/
def putDirectory (t : FileTree) (place : Place) (name : String) : FileTree :=
  if h : t.node? place = some .directory ∧ t.node? (name :: place) = none then
    have hnew : nodeAt? t.nodes (name :: place) ≠ some .directory :=
      fun hname => Option.some_ne_none _ (hname.symm.trans h.2)
    { t with
      nodes := t.nodes.insert (name :: place) .directory
      parent_directory := parent_insert t.parent_directory h.1 hnew
      strays_directory := fun f hf => directory_insert hnew (t.strays_directory f hf)
      cwd_directory := directory_insert hnew t.cwd_directory }
  else t

def dropFile (t : FileTree) (place : Place) (name : String) : FileTree :=
  if h : t.node? (name :: place) ≠ some .directory then
    { t with
      nodes := t.nodes.erase (name :: place)
      parent_directory := parent_erase t.parent_directory h
      strays_directory := fun f hf => directory_erase h (t.strays_directory f hf)
      cwd_directory := directory_erase h t.cwd_directory }
  else t

/-- Puts a file whose name is no text into a directory, in place of the file of that name. -/
def putStray (t : FileTree) (f : Stray) : FileTree :=
  if h : t.node? f.place = some .directory then
    { t with
      strays := f :: t.strays.filter fun g => f.place = g.place → f.name ≠ g.name
      strays_directory := List.forall_mem_cons.2
        ⟨h, fun g hg => t.strays_directory g (List.mem_filter.1 hg).1⟩
      strays_distinct := List.pairwise_cons.2
        ⟨fun _ hg => of_decide_eq_true (List.mem_filter.1 hg).2, t.strays_distinct.filter _⟩ }
  else t

/-- Moves the working directory, if there is a directory at the place. -/
def changeDirectory (t : FileTree) (place : Place) : FileTree :=
  if h : t.node? place = some .directory then { t with cwd := place, cwd_directory := h } else t

/-- The tree that holds nothing but a working directory, given by its names from the root. -/
def within (names : List String) : FileTree :=
  let (tree, place) := names.foldl
    (fun (t, place) name => (t.putDirectory place name, name :: place)) (root, [])
  tree.changeDirectory place

/-! ## Following a path -/

/-- What a directory holds under a name in bytes. -/
def entryAt? (t : FileTree) (place : Place) (name : Bytes) : Option Node :=
  match Utf8.text? name with
  | some text => t.node? (text :: place)
  | none => (t.strays.find? fun f => f.place = place ∧ f.name = name).map fun f => .file f.content

/-- What a directory holds under a name. -/
def entry? (t : FileTree) (place : Place) (name : String) : Except FileError (Option Node) :=
  if nameLimit < name.utf8ByteSize then .error .nameTooLong else .ok (t.node? (name :: place))

/-- Follows the pieces of a path from a place. An empty piece and a `.` stay, `..` goes to the
parent, and all three want to stand in a directory. -/
def walk (t : FileTree) : Place → List String → Except FileError Place
  | place, [] => .ok place
  | place, piece :: rest =>
    match t.node? place with
    | none => .error .notFound
    | some (.file _) => .error .notDirectory
    | some .directory =>
      if piece = "" ∨ piece = "." then t.walk place rest
      else if piece = ".." then t.walk place.tail rest
      else
        match t.entry? place piece with
        | .error e => .error e
        | .ok none => .error .notFound
        | .ok (some _) => t.walk (piece :: place) rest

/-- Where the pieces of a path start. -/
def origin (t : FileTree) (p : Path) : Place := if p.isAbsolute then [] else t.cwd

def locate (t : FileTree) (p : Path) : Except FileError Place :=
  match p.fault? with
  | some e => .error e
  | none => t.walk (t.origin p) p.segments

def lookup (t : FileTree) (p : Path) : Except FileError Node := do
  let place ← t.locate p
  match t.node? place with
  | some node => .ok node
  | none => .error .notFound

def isFile (t : FileTree) (p : Path) : Bool :=
  match t.lookup p with
  | .ok (.file _) => true
  | _ => false

def isDirectory (t : FileTree) (p : Path) : Bool :=
  match t.lookup p with
  | .ok .directory => true
  | _ => false

def exists? (t : FileTree) (p : Path) : Bool := (t.lookup p).isOk

def read (t : FileTree) (p : Path) : Except FileError Bytes := do
  match ← t.lookup p with
  | .file content => .ok content
  | .directory => .error .isDirectory

def readText (t : FileTree) (p : Path) : Except FileError String := do
  let content ← t.read p
  if Utf8.Valid content then .ok (String.ofList (Utf8.decode content)) else .error .notText

/-- The names in the directory at a path that are text, in order. -/
def list (t : FileTree) (p : Path) : Except FileError (List String) := do
  let place ← t.locate p
  match t.node? place with
  | some .directory =>
    let names := t.nodes.keys.filterMap fun q =>
      match q with
      | name :: parent => if parent = place then some name else none
      | [] => none
    .ok (Table.setOf names).keys
  | some (.file _) => .error .notDirectory
  | none => .error .notFound

/-- The names in a directory that are no text. -/
def strayNames (t : FileTree) (place : Place) : List Bytes :=
  (t.strays.filter fun f => f.place = place).map (·.name)

/-- All names in the directory at a path, those that are text before the others. -/
def entryNames (t : FileTree) (p : Path) : Except FileError (List Bytes) := do
  let place ← t.locate p
  let texts ← t.list p
  .ok (texts.map Utf8.ofString ++ t.strayNames place)

def files (t : FileTree) : List Place :=
  t.nodes.entries.filterMap fun (place, node) =>
    match node with
    | .file _ => some place
    | .directory => none

/-! ## Writing at a path -/

/-- Where an operation that makes or removes an entry takes place. -/
structure Target where
  place : Place
  /-- The last piece of the path that is not empty; none if there is only the root. -/
  name : Option String
  /-- Whether a slash follows the last piece. -/
  slash : Bool
  deriving DecidableEq, Repr

namespace Target

/-- The name of the entry, unless the path ends in the root, a `.` or a `..`. -/
def entry? (g : Target) : Option String := g.name.filter fun n => n != "." && n != ".."

end Target

/-- The directory and the last piece of a path. All pieces before the last have to lead to a
directory. -/
def target (t : FileTree) (p : Path) : Except FileError Target := do
  if let some e := p.fault? then .error e
  let reversed := p.segments.reverse
  let kept := reversed.dropWhile (· == "")
  let place ← t.walk (t.origin p) kept.tail.reverse
  match t.node? place with
  | some .directory => .ok ⟨place, kept.head?, reversed.head? == some ""⟩
  | some (.file _) => .error .notDirectory
  | none => .error .notFound

/-- Writes a file, which is made if there is none. Its directory has to exist. -/
def write (t : FileTree) (p : Path) (content : Bytes) : Except FileError FileTree := do
  let g ← t.target p
  match g.entry? with
  | none => .error .isDirectory
  | some name =>
    if g.slash then .error .isDirectory
    else
      match ← t.entry? g.place name with
      | some .directory => .error .isDirectory
      | _ => .ok (t.putFile g.place name content)

def remove (t : FileTree) (p : Path) : Except FileError FileTree := do
  let g ← t.target p
  match g.entry? with
  | none => .error .isDirectory
  | some name =>
    match ← t.entry? g.place name with
    | none => .error .notFound
    | some .directory => .error .isDirectory
    | some (.file _) =>
      if g.slash then .error .notDirectory else .ok (t.dropFile g.place name)

def makeDirectory (t : FileTree) (p : Path) : Except FileError FileTree := do
  let g ← t.target p
  match g.entry? with
  | none => .error .alreadyExists
  | some name =>
    match ← t.entry? g.place name with
    | none => .ok (t.putDirectory g.place name)
    | some _ => .error .alreadyExists

/-- Moves a file to the path `q`, in place of the file there. -/
def rename (t : FileTree) (p q : Path) : Except FileError FileTree := do
  let place ← t.locate p
  let content ← t.read p
  let moved ← t.write q content
  if (t.locate q).toOption = some place then .ok t else moved.remove p

/-- Whether a directory is at a path after an attempt to make it: an attempt that fails for another
reason than a missing parent does no harm if the directory is there already. -/
def settleDirectory (t : FileTree) (p : Path) : FileTree × Except FileError Unit :=
  match t.makeDirectory p with
  | .ok t => (t, .ok ())
  | .error e => (t, if e ≠ .notFound ∧ t.isDirectory p then .ok () else .error e)

/-- Makes a directory and those it lies in, as far as they are missing. There can be no more of them
than `bound`. What was made stays even if one cannot be made. -/
def makeDirectoriesUpTo (t : FileTree) (bound : Nat) (p : Path) :
    FileTree × Except FileError Unit :=
  if p.text = "" then (t, .ok ())
  else
    match t.settleDirectory p with
    | (t, .error .notFound) =>
      match bound, p.parent with
      | bound + 1, some parent =>
        match t.makeDirectoriesUpTo bound parent with
        | (t, .ok ()) => t.settleDirectory p
        | failed => failed
      | _, _ => (t, .error .notFound)
    | settled => settled

/-- Makes a directory and those it lies in, as far as they are missing. -/
def makeDirectories (t : FileTree) (p : Path) : FileTree × Except FileError Unit :=
  t.makeDirectoriesUpTo p.segments.length p

/-- Makes the directories that a path lies in, as far as they are missing. -/
def makeParents (t : FileTree) (p : Path) : FileTree × Except FileError Unit :=
  match p.parent with
  | some parent => t.makeDirectories parent
  | none => (t, .ok ())

/-- Writes a file and makes the directories it lies in, as far as they are missing. -/
def writeDeep (t : FileTree) (p : Path) (content : Bytes) : FileTree × Except FileError Unit :=
  match t.makeParents p with
  | (t, .error e) => (t, .error e)
  | (t, .ok ()) =>
    match t.write p content with
    | .ok t => (t, .ok ())
    | .error e => (t, .error e)

/-- Copies the file at `p` to `q`. The file at `q` is emptied before `p` is read, so a file that is
copied onto itself ends empty. -/
def copy (t : FileTree) (p q : Path) : Except FileError FileTree := do
  match ← t.lookup p with
  | .directory => .error .notRegular
  | .file _ =>
    let t ← t.write q []
    let content ← t.read p
    t.write q content

end FileTree

end Recompile
