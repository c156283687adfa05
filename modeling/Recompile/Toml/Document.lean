import Recompile.Toml.Scalar

/-!
# TOML documents

A document is a list of lines: keys with their values, and headers that say which table the keys
after them go to. Arrays and tables in braces nest up to a fixed depth, and a dotted key has a fixed
greatest number of parts. `Toml.parse?` gives the entries of a document and nothing for a text that
is none.
-/

namespace Recompile.Toml

/-- How deep arrays and tables in braces may nest, and how many parts a key may have. -/
def maxDepth : Nat := 79

/-! ## Keys -/

def isBareKeyChar (c : Char) : Bool := c.isAlphanum || c == '-' || c == '_'

/-- One part of a key: bare, or a string on one line. -/
def simpleKey (cs : List Char) : Option (String × List Char) :=
  match cs with
  | '"' :: rest => lineString '"' (rest.length + 1) [] rest
  | '\'' :: rest => lineString '\'' (rest.length + 1) [] rest
  | _ =>
    let bare := cs.takeWhile isBareKeyChar
    if bare = [] then none else some (String.ofList bare, cs.dropWhile isBareKeyChar)

/-- The parts of a key with dots between them and space around each: those before the last, and the
last. -/
def key : (parts : Nat) → Reader (List String × String)
  | 0, _ => none
  | parts + 1, cs => do
    let (part, rest) ← simpleKey (skipSpace cs)
    match skipSpace rest with
    | '.' :: rest => do
      let ((path, last), rest) ← key parts rest
      some ((part :: path, last), rest)
    | rest => some (([], part), rest)

/-! ## Values -/

/-- Values under dotted keys. -/
abbrev Pairs := List (List String × String × Value)

/-- A key, an equals sign and a value, with the space around the value. -/
def keyValue (value : Reader Value) : Reader (List String × String × Value) := fun cs => do
  let ((path, last), rest) ← key maxDepth cs
  match rest with
  | '=' :: rest => do
    let (v, rest) ← value (skipSpace rest)
    some ((path, last, v), skipSpace rest)
  | _ => none

/-- The rest of an array, after its opening bracket or a comma. -/
def items (value : Reader Value) : (bound : Nat) → (done : List Value) → Reader (List Value)
  | 0, _, _ => none
  | bound + 1, done, cs => do
    match ← skipLines false cs with
    | ']' :: rest => some (done.reverse, rest)
    | cs => do
      let (v, rest) ← value cs
      match ← skipLines false rest with
      | ',' :: rest => items value bound (v :: done) rest
      | ']' :: rest => some ((v :: done).reverse, rest)
      | _ => none

/-- The pairs of a table in braces, from its first key on, up to the closing brace. -/
def pairs (value : Reader Value) : (bound : Nat) → (done : Pairs) → Reader Pairs
  | 0, _, _ => none
  | bound + 1, done, cs => do
    let (pair, rest) ← keyValue value cs
    match rest with
    | ',' :: rest => pairs value bound (pair :: done) rest
    | '\x7d' :: rest => some ((pair :: done).reverse, rest)
    | _ => none

/-- A value in which arrays and tables nest at most `depth` deep. -/
def value : (depth : Nat) → Reader Value
  | depth, cs =>
    match cs with
    | [] => none
    | c :: rest =>
      if c = '"' ∨ c = '\'' then (string cs).map fun (s, rest) => (.text s, rest)
      else if c = '[' then
        match depth with
        | 0 => none
        | depth + 1 =>
          (items (fun cs => value depth cs) (rest.length + 1) [] rest).map fun (vs, rest) =>
            (.array vs, rest)
      else if c = '\x7b' then
        match depth with
        | 0 => none
        | depth + 1 =>
          match skipSpace rest with
          | '\x7d' :: rest => some (.table .inline [], rest)
          | _ => do
            let (ps, rest) ← pairs (fun cs => value depth cs) (rest.length + 1) [] rest
            let entries ← Entries.addAll [] ps
            some (.table .inline entries, rest)
      else if c = '+' ∨ c = '-' ∨ c.isDigit then
        if beginsDate cs ∨ beginsTime cs then date cs else number cs
      else if "true".toList.isPrefixOf cs then some (.bool true, cs.drop 4)
      else if "false".toList.isPrefixOf cs then some (.bool false, cs.drop 5)
      else if "inf".toList.isPrefixOf cs ∨ "nan".toList.isPrefixOf cs then
        some (.float (String.ofList (cs.take 3)), cs.drop 3)
      else none

/-! ## Sections -/

inductive Header where
  | top
  /-- The table under a path and a key. -/
  | table (path : List String) (key : String)
  /-- One more table in the array under a path and a key. -/
  | item (path : List String) (key : String)

/-- Puts what a section says into the document. -/
def Entries.addSection (document : Entries) (header : Header) (pairs : Pairs) : Option Entries :=
  match header with
  | .top => document.addAll pairs
  | .table path key =>
    document.enter .implied (fun _ parent =>
      match parent.find? key with
      | none => do
        let es ← addAll [] pairs
        some (parent.set key (.table .header es))
      | some (.table .implied es) => do
        let es ← addAll es pairs
        some (parent.set key (.table .header es))
      | some _ => none) path .header
  | .item path key =>
    document.enter .implied (fun _ parent => do
      let es ← addAll [] pairs
      match parent.find? key with
      | none => some (parent.set key (.tables [.table .header es]))
      | some (.tables items) => some (parent.set key (.tables (items ++ [.table .header es])))
      | some _ => none) path .header

/-- The closing bracket or brackets of a header and the rest of its line. -/
def closeHeader (brackets : Nat) (cs : List Char) : Option (List Char) :=
  if (cs.take brackets) = List.replicate brackets ']' then skipToLineEnd (cs.drop brackets)
  else none

/-- The entries of the rest of a document, of which `document` holds the sections that have ended;
the pairs of the present section stand in reverse. -/
def sections : (bound : Nat) → (document : Entries) → Header → Pairs → List Char → Option Entries
  | 0, _, _, _, _ => none
  | bound + 1, document, header, pairs, cs => do
    match ← skipLines false cs with
    | [] => document.addSection header pairs.reverse
    | '[' :: '[' :: rest => do
      let ((path, last), rest) ← key maxDepth rest
      let rest ← closeHeader 2 rest
      let document ← document.addSection header pairs.reverse
      sections bound document (.item path last) [] rest
    | '[' :: rest => do
      let ((path, last), rest) ← key maxDepth rest
      let rest ← closeHeader 1 rest
      let document ← document.addSection header pairs.reverse
      sections bound document (.table path last) [] rest
    | cs => do
      let (pair, rest) ← keyValue (value maxDepth) cs
      let rest ← skipToLineEnd rest
      sections bound document header (pair :: pairs) rest

/-- The entries of a document. A byte order mark before it does not count. -/
def parse? (text : String) : Option Entries :=
  let cs := text.toList
  let cs := if cs.head? = some '\uFEFF' then cs.tail else cs
  sections (cs.length + 1) [] .top [] cs

end Recompile.Toml
