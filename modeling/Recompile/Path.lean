import Recompile.Text.Utf8

/-!
# Paths

A path is a text with `/` between its steps. It keeps the spelling it was given, and two paths are
the same name when their steps agree: repeated and trailing slashes and a `.` that is not the first
step do not count. A path carries its steps beside its text (`Path.ofText` finds them), `==` and
`compare` go by them, and a table keyed by paths therefore holds each name once, in its first
spelling.

`join` and `parent` work on the text, so they keep the spelling of the parts they keep.
-/

namespace Recompile

inductive Step where
  /-- The leading slash of an absolute path. -/
  | root
  /-- A `.` at the beginning of a relative path. -/
  | here
  /-- A `..`. -/
  | up
  | name (text : String)
  deriving DecidableEq, Repr

namespace Step

/-- The place of the kind of a step in the order of paths. -/
def rank : Step → Nat
  | root => 0
  | here => 1
  | up => 2
  | name _ => 3

def text : Step → String
  | root => "/"
  | here => "."
  | up => ".."
  | name s => s

/-- The leading slash comes first, then `.`, then `..`, then the names in the order of their bytes,
which is the order of their characters. -/
instance : Ord Step := ⟨compareLex (compareOn rank) (compareOn text)⟩

instance : Std.TransOrd Step :=
  inferInstanceAs (Std.TransCmp (compareLex (compareOn rank) (compareOn text)))

instance : Std.LawfulEqOrd Step where
  compare_self := Std.ReflCmp.compare_self
  eq_of_compare {a b} h := by
    have h : compareLex (compareOn rank) (compareOn text) a b = .eq := h
    simp only [compareLex, Ordering.then_eq_eq, compareOn, Std.LawfulEqCmp.compare_eq_iff_eq] at h
    cases a <;> cases b <;> simp_all [rank, text]

end Step

/-- The pieces of a text between its slashes, one more than there are slashes. -/
def splitSlashes (cs : List Char) : List (List Char) :=
  cs.foldr (fun c pieces =>
    if c = '/' then [] :: pieces
    else
      match pieces with
      | piece :: rest => (c :: piece) :: rest
      | [] => [[c]]) [[]]

/-- The text of some pieces with a slash between neighbours. -/
def joinSlashes (pieces : List (List Char)) : List Char := (pieces.intersperse ['/']).flatten

namespace Step

/-- The step that a piece stands for, unless it is empty or a `.`. -/
def ofPiece? (piece : String) : Option Step :=
  if piece = "" ∨ piece = "." then none
  else if piece = ".." then some up
  else some (name piece)

def ofText (text : String) : List Step :=
  let cs := text.toList
  let pieces := (splitSlashes cs).map String.ofList
  let body := pieces.filterMap ofPiece?
  if cs.head? = some '/' then root :: body
  else if pieces.head? = some "." then here :: body
  else body

end Step

/-- A path in the spelling it was given. -/
structure Path where
  text : String
  /-- The steps that the text spells, kept because paths are compared far more often than
  they are made. -/
  steps : List Step
  steps_eq : steps = Step.ofText text

namespace Path

def ofText (text : String) : Path := ⟨text, Step.ofText text, rfl⟩

/-- A path is known by its spelling. -/
theorem ext {p q : Path} (h : p.text = q.text) : p = q := by
  obtain ⟨text, steps, rfl⟩ := p
  obtain ⟨text', steps', rfl⟩ := q
  cases h
  rfl

@[simp] theorem text_ofText (text : String) : (ofText text).text = text := rfl

@[simp] theorem steps_ofText (text : String) : (ofText text).steps = Step.ofText text := rfl

@[simp] theorem ofText_text (p : Path) : ofText p.text = p := ext rfl

instance : ToString Path := ⟨text⟩

instance : Repr Path := ⟨fun p => reprPrec p.text⟩

instance : Inhabited Path := ⟨ofText ""⟩

def isAbsolute (p : Path) : Bool := p.text.toList.head? == some '/'

/-- The pieces of the path between its slashes, empty ones included. -/
def segments (p : Path) : List String := (splitSlashes p.text.toList).map String.ofList

/-- Paths are the same when their steps are. -/
instance : BEq Path := ⟨fun p q => p.steps == q.steps⟩

instance : Ord Path := ⟨compareOn steps⟩

instance : Std.TransOrd Path := inferInstanceAs (Std.TransCmp (compareOn steps))

theorem beq_iff {p q : Path} : (p == q) = true ↔ p.steps = q.steps := by
  change (p.steps == q.steps) = true ↔ _
  exact beq_iff_eq

theorem compare_eq_iff {p q : Path} : compare p q = .eq ↔ p.steps = q.steps := by
  change compare p.steps q.steps = .eq ↔ _
  exact Std.LawfulEqCmp.compare_eq_iff_eq

instance : EquivBEq Path where
  symm h := beq_iff.2 (beq_iff.1 h).symm
  trans h₁ h₂ := beq_iff.2 ((beq_iff.1 h₁).trans (beq_iff.1 h₂))
  rfl := beq_iff.2 rfl

/-- The path `q` seen from the directory `p`: an absolute `q` stands for itself, and else a slash
comes between the two unless `p` is empty or ends in one. -/
def join (p q : Path) : Path :=
  if q.isAbsolute then q
  else if p.text.toList.getLast?.all (· == '/') then ofText (p.text ++ q.text)
  else ofText (p.text ++ "/" ++ q.text)

def joinText (p : Path) (q : String) : Path := p.join (ofText q)

/-- Whether a piece between slashes adds no step. -/
def idle (piece : List Char) : Bool := piece == [] || piece == ['.']

/-- The pieces without the idle ones at the end. -/
def dropIdleEnd (pieces : List (List Char)) : List (List Char) :=
  (pieces.reverse.dropWhile idle).reverse

/-- The path without its last step, spelled as before up to there; none for the root and for the
empty path. -/
def parent (p : Path) : Option Path :=
  let cs := p.text.toList
  let start : List Char :=
    if p.isAbsolute then ['/'] else if p.segments.head? = some "." then ['.'] else []
  match (dropIdleEnd (splitSlashes (cs.drop start.length))).reverse with
  | [] => if start = ['.'] then some (ofText "") else none
  | _ :: before => some (ofText (String.ofList (start ++ joinSlashes (dropIdleEnd before.reverse))))

/-- The byte of a dot, which stands before the extension of a name. -/
def dot : UInt8 := 0x2E

/-- The stem and the extension of the name of an entry, which need not be text: the extension is
what follows the last dot, unless the name has no dot or begins with its only one. -/
def splitExtension (name : Bytes) : Bytes × Option Bytes :=
  let reversed := name.reverse
  let extension := reversed.takeWhile (· != dot)
  match reversed.dropWhile (· != dot) with
  | _ :: b :: stem => ((b :: stem).reverse, some extension.reverse)
  | _ => (name, none)

end Path

end Recompile
