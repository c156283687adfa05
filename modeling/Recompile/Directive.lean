/-!
# Include directives

A directive is one `#include` or `#import` line: how it was spelled, which form its argument has,
and the argument itself. Its text is the line in its plainest spelling.
-/

namespace Recompile

inductive Form where
  /-- `"x.h"`: looked up beside the including file, then in the include roots. -/
  | quoted
  /-- `<x.h>`: looked up in the include roots only. -/
  | system
  /-- Anything else, such as the name of a macro: its header is not known from the text. -/
  | expression
  deriving DecidableEq, Repr

inductive Keyword where
  | includes
  | imports
  deriving DecidableEq, Repr

def Keyword.text : Keyword → String
  | includes => "include"
  | imports => "import"

structure Directive where
  /-- The header name of the quoted and the system form, and else the argument as written. -/
  value : String
  form : Form
  keyword : Keyword
  deriving DecidableEq, Repr

namespace Directive

def isImport (d : Directive) : Bool := d.keyword == .imports

def asImport (d : Directive) : Directive := { d with keyword := .imports }

/-- The argument as it is written in the line. -/
def argument (d : Directive) : String :=
  match d.form with
  | .quoted => "\"" ++ d.value ++ "\""
  | .system => "<" ++ d.value ++ ">"
  | .expression => d.value

def text (d : Directive) : String := "#" ++ d.keyword.text ++ " " ++ d.argument

instance : ToString Directive := ⟨text⟩

end Directive

/-- The directives of one file, in the order of its lines. A file whose content is no text has none
that are known, and is marked. -/
structure Directives where
  all : List Directive
  unreadable : Bool
  deriving DecidableEq, Repr

namespace Directives

def ofList (ds : List Directive) : Directives := ⟨ds, false⟩

/-- The directives of a file that is no text. -/
def unparsed : Directives := ⟨[], true⟩

def hasExpression (ds : Directives) : Bool := ds.all.any fun d => d.form == .expression

def withoutImports (ds : Directives) : Directives :=
  { ds with all := ds.all.filter fun d => !d.isImport }

def size (ds : Directives) : Nat := ds.all.length

def isEmpty (ds : Directives) : Bool := ds.all.isEmpty

end Directives

end Recompile
