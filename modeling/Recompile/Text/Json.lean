import Recompile.Bytes

/-!
# JSON text

JSON documents and their indented text: one item to a line, two spaces for each level, and nothing
between the brackets of an empty array or object. In a text the quote, the backslash and the control
characters are escaped, the common ones by a letter.
-/

namespace Recompile

/-- A JSON document. The fields of an object stand in the order in which they are written. -/
inductive Json where
  | number (n : Nat)
  | bool (b : Bool)
  | text (s : String)
  | array (items : List Json)
  | object (fields : List (String × Json))

namespace Json

/-- A character inside a quoted text. -/
def escape (c : Char) : List Char :=
  if c = '"' then ['\\', '"']
  else if c = '\\' then ['\\', '\\']
  else if c = '\n' then ['\\', 'n']
  else if c = '\r' then ['\\', 'r']
  else if c = '\t' then ['\\', 't']
  else if c.toNat = 8 then ['\\', 'b']
  else if c.toNat = 12 then ['\\', 'f']
  else if c.toNat < 32 then
    ['\\', 'u', '0', '0', Bytes.hexDigit (c.toNat / 16), Bytes.hexDigit (c.toNat % 16)]
  else [c]

def quote (s : String) : String := "\"" ++ String.ofList (s.toList.flatMap escape) ++ "\""

def newline (level : Nat) : String := String.ofList ('\n' :: List.replicate (2 * level) ' ')

/-- Items between brackets at some level. -/
def enclose (opening closing : String) (level : Nat) : List String → String
  | [] => opening ++ closing
  | items =>
    opening ++ newline (level + 1) ++ String.intercalate ("," ++ newline (level + 1)) items ++
      newline level ++ closing

mutual

/-- The indented text of a document that stands at some level. -/
def prettyAt (level : Nat) : Json → String
  | number n => toString n
  | bool b => if b then "true" else "false"
  | text s => quote s
  | array items => enclose "[" "]" level (prettyItems (level + 1) items)
  | object fields => enclose "\x7b" "\x7d" level (prettyFields (level + 1) fields)

def prettyItems (level : Nat) : List Json → List String
  | [] => []
  | item :: rest => prettyAt level item :: prettyItems level rest

def prettyFields (level : Nat) : List (String × Json) → List String
  | [] => []
  | (name, item) :: rest => (quote name ++ ": " ++ prettyAt level item) :: prettyFields level rest

end

def pretty (j : Json) : String := prettyAt 0 j

end Json

end Recompile
