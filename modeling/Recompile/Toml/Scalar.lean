import Recompile.Toml.Value

/-!
# TOML scalars

Strings, numbers, dates and the space between them. Each reader takes its value from the front of a
text and gives it with the rest, or fails; what may follow the value is for the caller to say. The
bounds that the loops count down are lengths of the text, which they cannot exceed.
-/

namespace Recompile.Toml

/-- A reader that takes a value from the front of a text. -/
abbrev Reader (α : Type) := List Char → Option (α × List Char)

/-! ## Space -/

def isSpace (c : Char) : Bool := c == ' ' || c == '\t'

/-- The characters that may stand in comments and, quotes and backslashes apart, in strings: all but
the control characters other than the tab. -/
def isPlain (c : Char) : Bool := c == '\t' || (' ' ≤ c && c != '\x7f')

def skipSpace (cs : List Char) : List Char := cs.dropWhile isSpace

def afterNewline? : List Char → Option (List Char)
  | '\n' :: rest => some rest
  | '\r' :: '\n' :: rest => some rest
  | _ => none

/-- Skips space and a comment up to the end of the line, which may be the end of the text. -/
def skipToLineEnd (cs : List Char) : Option (List Char) :=
  let cs := skipSpace cs
  let cs := if cs.head? = some '#' then cs.dropWhile isPlain else cs
  if cs = [] then some [] else afterNewline? cs

/-- Skips space, line ends and comments. -/
def skipLines : (inComment : Bool) → List Char → Option (List Char)
  | _, [] => some []
  | _, '\n' :: rest => skipLines false rest
  | _, '\r' :: '\n' :: rest => skipLines false rest
  | true, c :: rest => if isPlain c then skipLines true rest else none
  | false, c :: rest =>
    if isSpace c then skipLines false rest
    else if c = '#' then skipLines true rest
    else if c = '\r' then none
    else some (c :: rest)

/-! ## Strings -/

def hexValue? (c : Char) : Option Nat :=
  if '0' ≤ c && c ≤ '9' then some (c.toNat - 48)
  else if 'a' ≤ c && c ≤ 'f' then some (c.toNat - 87)
  else if 'A' ≤ c && c ≤ 'F' then some (c.toNat - 55)
  else none

/-- The character whose number is given by exactly `n` hexadecimal digits. -/
def codePoint (n : Nat) (cs : List Char) : Option (Char × List Char) := do
  let digits ← (cs.take n).mapM hexValue?
  if digits.length < n then none
  else
    let code := digits.foldl (fun v d => 16 * v + d) 0
    if code.isValidChar then some (Char.ofNat code, cs.drop n) else none

/-- The character that an escape stands for, from what follows the backslash. -/
def escaped : Reader Char
  | 'b' :: rest => some ('\x08', rest)
  | 't' :: rest => some ('\t', rest)
  | 'n' :: rest => some ('\n', rest)
  | 'f' :: rest => some ('\x0c', rest)
  | 'r' :: rest => some ('\r', rest)
  | '"' :: rest => some ('"', rest)
  | '\\' :: rest => some ('\\', rest)
  | 'u' :: rest => codePoint 4 rest
  | 'U' :: rest => codePoint 8 rest
  | _ => none

/-- The rest of a string on one line, after its opening quote. Only in double quotes are there
escapes. -/
def lineString (quote : Char) : (bound : Nat) → (done : List Char) → Reader String
  | 0, _, _ => none
  | bound + 1, done, cs =>
    match cs with
    | [] => none
    | c :: rest =>
      if c = quote then some (String.ofList done.reverse, rest)
      else if c = '\\' ∧ quote = '"' then
        match escaped rest with
        | some (e, rest) => lineString quote bound (e :: done) rest
        | none => none
      else if isPlain c then lineString quote bound (c :: done) rest
      else none

/-- Skips what an escaped line end swallows: space up to the line end, and then all space and empty
lines. -/
def afterEscapedNewline? (cs : List Char) : Option (List Char) := do
  let rest ← afterNewline? (skipSpace cs)
  let rec swallow : List Char → List Char
    | '\n' :: rest => swallow rest
    | '\r' :: '\n' :: rest => swallow rest
    | ' ' :: rest => swallow rest
    | '\t' :: rest => swallow rest
    | cs => cs
  some (swallow rest)

/-- The rest of a string of several lines, after its opening quotes. Three quotes close it, and of
four or five the ones before the last three belong to it. -/
def blockString (quote : Char) : (bound : Nat) → (done : List Char) → Reader String
  | 0, _, _ => none
  | bound + 1, done, cs =>
    match cs with
    | [] => none
    | c :: rest =>
      if c = quote then
        let run := cs.takeWhile (· == quote)
        let after := cs.dropWhile (· == quote)
        if run.length < 3 then blockString quote bound (run ++ done) after
        else
          let inner := Nat.min (run.length - 3) 2
          some (String.ofList (List.replicate inner quote ++ done).reverse, cs.drop (inner + 3))
      else if c = '\\' ∧ quote = '"' then
        match afterEscapedNewline? rest with
        | some rest => blockString quote bound done rest
        | none =>
          match escaped rest with
          | some (e, rest) => blockString quote bound (e :: done) rest
          | none => none
      else
        match afterNewline? cs with
        | some rest => blockString quote bound ('\n' :: done) rest
        | none => if isPlain c then blockString quote bound (c :: done) rest else none

/-- A string in any of its four forms. A line end right after three opening quotes does not count.
-/
def string : Reader String
  | c :: rest =>
    if c = '"' ∨ c = '\'' then
      match rest with
      | d :: e :: rest' =>
        if d = c ∧ e = c then
          blockString c (rest'.length + 1) [] ((afterNewline? rest').getD rest')
        else lineString c (rest.length + 1) [] rest
      | _ => lineString c (rest.length + 1) [] rest
    else none
  | [] => none

/-! ## Numbers -/

def digitValue? (base : Nat) (c : Char) : Option Nat := (hexValue? c).filter (· < base)

/-- Digits of a base with single underscores between them, at least one digit. -/
def digits (base : Nat) (cs : List Char) : Option (List Nat × List Char) :=
  match cs with
  | [] => none
  | c :: rest =>
    match digitValue? base c with
    | none => none
    | some d => go [d] rest
where
  /-- The digits after the first; an underscore has to be followed by one. -/
  go (done : List Nat) : List Char → Option (List Nat × List Char)
    | [] => some (done.reverse, [])
    | '_' :: c :: rest =>
      match digitValue? base c with
      | some d => go (d :: done) rest
      | none => none
    | ['_'] => none
    | c :: rest =>
      match digitValue? base c with
      | some d => go (d :: done) rest
      | none => some (done.reverse, c :: rest)

def ofDigits (base : Nat) (ds : List Nat) : Nat := ds.foldl (fun n d => base * n + d) 0

/-- A sign, if there is one: whether it is a minus, and the rest. -/
def sign : List Char → Bool × List Char
  | '+' :: rest => (false, rest)
  | '-' :: rest => (true, rest)
  | cs => (false, cs)

/-- Decimal digits that do not begin with a needless zero: a leading zero stands alone. -/
def decimal (cs : List Char) : Option (List Nat × List Char) :=
  match cs with
  | '0' :: rest => some ([0], rest)
  | _ => digits 10 cs

/-- Whether `m` times ten to the power `e` is too great for a number of double precision: at least
half a unit beyond the greatest one. -/
def overflows (m : Nat) (e : Int) : Bool :=
  let width : Int := (Nat.toDigits 10 m).length
  let bound : Nat := 1 <<< 1024 - 1 <<< 970
  if m = 0 ∨ width + e < 300 then false
  else if 320 < width + e then true
  else if 0 ≤ e then bound ≤ m * Nat.pow 10 e.toNat
  else bound * Nat.pow 10 (-e).toNat ≤ m

def exponent? : List Char → Option (Int × List Char)
  | c :: rest =>
    if c = 'e' ∨ c = 'E' then do
      let (minus, rest) := sign rest
      let (ds, rest) ← digits 10 rest
      let n : Int := ofDigits 10 ds
      some (if minus then -n else n, rest)
    else some (0, c :: rest)
  | [] => some (0, [])

/-- The part of a text that a reader has taken. -/
def taken (cs rest : List Char) : String := String.ofList (cs.take (cs.length - rest.length))

/-- A number: an integer of 64 bits in base ten, sixteen, eight or two, or a float. A float that is
too great is refused. -/
def number (cs : List Char) : Option (Value × List Char) :=
  match cs with
  | '0' :: 'x' :: rest => based 16 rest
  | '0' :: 'o' :: rest => based 8 rest
  | '0' :: 'b' :: rest => based 2 rest
  | _ => do
    let (minus, unsigned) := sign cs
    match unsigned with
    | 'i' :: 'n' :: 'f' :: rest => some (.float (taken cs rest), rest)
    | 'n' :: 'a' :: 'n' :: rest => some (.float (taken cs rest), rest)
    | _ =>
      let (whole, rest) ← decimal unsigned
      match rest with
      | '.' :: rest => do
        let (fraction, rest) ← digits 10 rest
        let (e, rest) ← exponent? rest
        float minus (whole ++ fraction) (e - fraction.length) rest
      | _ =>
        let (e, after) ← exponent? rest
        if after.length < rest.length then float minus whole e after
        else
          let n : Int := ofDigits 10 whole
          integer (if minus then -n else n) rest
where
  integer (n : Int) (rest : List Char) : Option (Value × List Char) :=
    if -0x8000000000000000 ≤ n ∧ n < 0x8000000000000000 then some (.integer n, rest) else none
  based (base : Nat) (rest : List Char) : Option (Value × List Char) := do
    let (ds, rest) ← digits base rest
    integer (ofDigits base ds) rest
  float (minus : Bool) (ds : List Nat) (e : Int) (rest : List Char) :
      Option (Value × List Char) :=
    if !minus && overflows (ofDigits 10 ds) e then none
    else some (.float (taken cs rest), rest)

/-! ## Dates and times -/

/-- A number of exactly `n` decimal digits between two bounds. -/
def fixed (n low high : Nat) (cs : List Char) : Option (Nat × List Char) := do
  let ds ← (cs.take n).mapM (digitValue? 10)
  let v := ofDigits 10 ds
  if ds.length = n ∧ low ≤ v ∧ v ≤ high then some (v, cs.drop n) else none

def character (c : Char) : List Char → Option (List Char)
  | d :: rest => if d = c then some rest else none
  | [] => none

def daysIn (year month : Nat) : Nat :=
  if month = 2 then if year % 4 = 0 ∧ (year % 100 ≠ 0 ∨ year % 400 = 0) then 29 else 28
  else if month = 4 ∨ month = 6 ∨ month = 9 ∨ month = 11 then 30
  else 31

def fullDate (cs : List Char) : Option (List Char) := do
  let (year, rest) ← fixed 4 0 9999 cs
  let rest ← character '-' rest
  let (month, rest) ← fixed 2 1 12 rest
  let rest ← character '-' rest
  let (_, rest) ← fixed 2 1 (daysIn year month) rest
  some rest

def timeOfDay (cs : List Char) : Option (List Char) := do
  let (_, rest) ← fixed 2 0 23 cs
  let rest ← character ':' rest
  let (_, rest) ← fixed 2 0 59 rest
  let rest ← character ':' rest
  let (_, rest) ← fixed 2 0 60 rest
  match rest with
  | '.' :: after =>
    let tail := after.dropWhile Char.isDigit
    if tail.length < after.length then some tail else none
  | _ => some rest

/-- The offset of a time from universal time, if there is one. -/
def zoneOffset (cs : List Char) : Option (List Char) :=
  match cs with
  | [] => some []
  | c :: rest =>
    if c = 'Z' ∨ c = 'z' then some rest
    else if c = '+' ∨ c = '-' then do
      let (_, rest) ← fixed 2 0 23 rest
      let rest ← character ':' rest
      let (_, rest) ← fixed 2 0 59 rest
      some rest
    else some cs

/-- Whether a text begins like a date: four digits and a dash. -/
def beginsDate (cs : List Char) : Bool :=
  match fixed 4 0 9999 cs with
  | some (_, '-' :: _) => true
  | _ => false

/-- Whether a text begins like a time of day: an hour and a colon. -/
def beginsTime (cs : List Char) : Bool :=
  match fixed 2 0 23 cs with
  | some (_, ':' :: _) => true
  | _ => false

/-- A date, a time, or both with or without an offset; from a text that begins like one. -/
def date (cs : List Char) : Option (Value × List Char) := do
  let rest ← if beginsDate cs then do
      let rest ← fullDate cs
      match rest with
      | c :: after =>
        if (c = 'T' ∨ c = 't' ∨ c = ' ') ∧ beginsTime after then
          zoneOffset (← timeOfDay after)
        else some rest
      | [] => some []
    else timeOfDay cs
  some (.date (taken cs rest), rest)

end Recompile.Toml
