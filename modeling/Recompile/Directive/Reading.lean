import Recompile.Directive
import Recompile.Directive.LogicalLine

/-!
# Reading directives

A logical line is a directive when its first character is `#` and the word after that is `include`
or `import`. Its argument is the rest of the line without the blanks around it: a complete header
name in quotes or angle brackets, or else an expression, kept as it is. Conditional lines are not
evaluated, so the directives of every branch are found.

Content that is no text has no directives to find, and says at which byte that shows.
-/

namespace Recompile

/-- Why some content cannot be searched for directives. -/
inductive ContentError where
  /-- It has a zero byte; the first one stands at the offset. -/
  | binary (offset : Nat)
  /-- It is no UTF-8; the valid part ends at the offset. -/
  | invalidUtf8 (offset : Nat)
  deriving DecidableEq, Repr

def ContentError.offset : ContentError → Nat
  | binary n => n
  | invalidUtf8 n => n

def ContentError.message : ContentError → String
  | binary n => "binary content at byte " ++ toString n
  | invalidUtf8 n => "invalid UTF-8 at byte " ++ toString n

namespace Directive

def isWordChar (c : Char) : Bool := c.isAlphanum || c == '_'

def keyword? (word : List Char) : Option Keyword :=
  if word = "include".toList then some .includes
  else if word = "import".toList then some .imports
  else none

/-- The text between `opening` and the first `closing` after it, if there is any. -/
def enclosed? (opening closing : Char) : List Char → Option (List Char)
  | [] => none
  | c :: rest =>
    if c = opening ∧ closing ∈ rest then
      let inner := rest.takeWhile (· != closing)
      if inner = [] then none else some inner
    else none

/-- The value and the form of an argument. -/
def classify (argument : List Char) : List Char × Form :=
  match enclosed? '"' '"' argument with
  | some inner => (inner, .quoted)
  | none =>
    match enclosed? '<' '>' argument with
    | some inner => (inner, .system)
    | none => (argument, .expression)

/-- The directive that a logical line holds. -/
def ofLine? (line : List Char) : Option Directive :=
  match trimStart line with
  | '#' :: rest =>
    let rest := trimStart rest
    match keyword? (rest.takeWhile isWordChar) with
    | some keyword =>
      let (value, form) := classify (trim (rest.dropWhile isWordChar))
      some ⟨String.ofList value, form, keyword⟩
    | none => none
  | _ => none

end Directive

namespace Directives

def ofText (content : Bytes) : List Directive :=
  (logicalLines content).filterMap fun line => Directive.ofLine? (Utf8.decode line)

/-- The directives of some content, or why it is no text: a zero byte is found before a byte that is
no UTF-8. -/
def ofContent (content : Bytes) : Except ContentError (List Directive) :=
  match content.findIdx? (· == 0) with
  | some offset => .error (.binary offset)
  | none =>
    match Utf8.firstInvalid? content with
    | some offset => .error (.invalidUtf8 offset)
    | none => .ok (ofText content)

/-- The directives of some content, with or without its `#import`s. -/
def read (imports : Bool) (content : Bytes) : Directives :=
  let found :=
    match ofContent content with
    | .ok ds => ofList ds
    | .error _ => unparsed
  if imports then found else found.withoutImports

end Directives

end Recompile
