/-!
# TOML values

A TOML document is a table of values. A table remembers what made it, because that decides what may
still be added to it: one in braces is closed, one that a header names takes neither a second header
nor dotted keys from outside, one that only lies on the way to another is still open, and one that
dotted keys made takes dotted keys only.

`Entries.enter` follows a path of keys through tables, making those that are missing, and changes
the entries it ends in.
-/

namespace Recompile.Toml

/-- What made a table. -/
inductive Origin where
  /-- It is written between braces. -/
  | inline
  /-- A header names it, or it is the document itself. -/
  | header
  /-- It lies on the way to a table that a header names. -/
  | implied
  /-- It lies on the way of a dotted key. -/
  | dotted
  deriving DecidableEq, Repr

/-- A value. Numbers and dates keep what a reader of settings could ask for: the integer, and else
the text. -/
inductive Value where
  | text (s : String)
  | integer (n : Int)
  | float (literal : String)
  | bool (b : Bool)
  | date (literal : String)
  | array (items : List Value)
  /-- The tables that headers in double brackets add, in order. -/
  | tables (items : List Value)
  | table (origin : Origin) (entries : List (String × Value))

/-- The entries of a table, in the order in which they were made. -/
abbrev Entries := List (String × Value)

namespace Entries

def find? (es : Entries) (key : String) : Option Value :=
  match es with
  | [] => none
  | (k, v) :: rest => if k = key then some v else find? rest key

/-- The entries with another value under a key, which is put at the end if it is new. -/
def set (es : Entries) (key : String) (value : Value) : Entries :=
  match es with
  | [] => [(key, value)]
  | (k, v) :: rest => if k = key then (k, value) :: rest else (k, v) :: set rest key value

/-- Follows a path of keys from a table and changes the table it leads to. Missing tables on the way
are made, as of the kind `made`; an array of tables stands for its last table. No path leads into a
table in braces, and none of dotted keys into a table that a header names. -/
def enter (made : Origin) (change : Origin → Entries → Option Entries) :
    (path : List String) → Origin → Entries → Option Entries
  | [], origin, es => change origin es
  | key :: path, _, es =>
    match es.find? key with
    | none => do
      let inner ← enter made change path made []
      some (es.set key (.table made inner))
    | some (.table origin inner) =>
      if origin = .inline ∨ (made = .dotted ∧ origin = .header) then none
      else do
        let inner ← enter made change path origin inner
        some (es.set key (.table origin inner))
    | some (.tables items) =>
      match items.reverse with
      | .table origin inner :: before => do
        let inner ← enter made change path origin inner
        some (es.set key (.tables (.table origin inner :: before).reverse))
      | _ => none
    | some _ => none

/-- Adds a value under a dotted key to a table of the given origin. The key must be new, and a table
takes either plain keys or, if dotted keys made it, what comes by dotted keys. -/
def add (origin : Origin) (es : Entries) (path : List String) (key : String) (value : Value) :
    Option Entries :=
  enter .dotted (fun origin es =>
    if (origin == .dotted) == path.isEmpty then none
    else if (es.find? key).isSome then none
    else some (es.set key value)) path origin es

/-- Adds several values under dotted keys to a table that a header names or braces enclose. -/
def addAll (es : Entries) : List (List String × String × Value) → Option Entries
  | [] => some es
  | (path, key, value) :: rest => do addAll (← es.add .header path key value) rest

end Entries

end Recompile.Toml
