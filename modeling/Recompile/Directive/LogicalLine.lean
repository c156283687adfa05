import Recompile.Text.Utf8
import Recompile.Text.Blank

/-!
# Logical lines

A source text is cut into logical lines before directives are looked for: a backslash at the end of
a line joins the next line to it, a comment becomes one space or nothing, and string and character
literals are copied so that comment marks inside them are not misread.

`Scanner.step` takes one byte. A byte whose meaning hangs on what follows (a backslash, a slash, the
star that may close a comment) is held back in the mode, so the scanner never looks ahead, and what
it does on a text is what it does on the rest from where the beginning left it
(`Scanner.run_append`). Marks of two bytes are recognised only where the bytes stand side by side: a
joined line end between them breaks the mark.
-/

namespace Recompile

inductive Mode where
  | code
  | codeBackslash
  /-- After a backslash and a carriage return in code. -/
  | codeReturn
  | slash
  /-- In a comment that ends with its line. -/
  | lineComment
  /-- After a backslash in such a comment. -/
  | lineBackslash
  /-- After a backslash and a carriage return in such a comment. -/
  | lineReturn
  /-- In a comment that ends with a star and a slash. -/
  | blockComment
  /-- After a star in such a comment. -/
  | blockStar
  /-- In a literal that the given quote closes. -/
  | literal (quote : UInt8)
  /-- After a backslash in a literal. -/
  | literalBackslash (quote : UInt8)
  /-- After a backslash and a carriage return in a literal. -/
  | literalReturn (quote : UInt8)
  deriving DecidableEq, Repr

structure Scanner where
  mode : Mode
  /-- The bytes of the present line, the last one first. -/
  line : Bytes
  /-- The lines that have ended, the last one first. -/
  done : List Bytes
  deriving DecidableEq, Repr

namespace Scanner

def newline : UInt8 := 10
def carriageReturn : UInt8 := 13
def space : UInt8 := 32
def doubleQuote : UInt8 := 34
def singleQuote : UInt8 := 39
def star : UInt8 := 42
def solidus : UInt8 := 47
def backslash : UInt8 := 92

def start : Scanner := ⟨.code, [], []⟩

/-- Puts a byte at the end of the present line. -/
def push (s : Scanner) (b : UInt8) : Scanner := { s with line := b :: s.line }

def enter (s : Scanner) (mode : Mode) : Scanner := { s with mode }

/-- Ends the present line; the next one begins in code. -/
def endLine (s : Scanner) : Scanner := ⟨.code, [], s.line.reverse :: s.done⟩

def stepCode (s : Scanner) (b : UInt8) : Scanner :=
  if b = newline then s.endLine
  else if b = backslash then s.enter .codeBackslash
  else if b = solidus then s.enter .slash
  else if b = doubleQuote ∨ b = singleQuote then (s.push b).enter (.literal b)
  else (s.push b).enter .code

/-- A byte of a comment that ends with its line. -/
def stepLineComment (s : Scanner) (b : UInt8) : Scanner :=
  if b = newline then s.endLine
  else if b = backslash then s.enter .lineBackslash
  else s.enter .lineComment

def stepLiteral (s : Scanner) (quote b : UInt8) : Scanner :=
  if b = newline then s.endLine
  else if b = backslash then s.enter (.literalBackslash quote)
  else if b = quote then (s.push b).enter .code
  else (s.push b).enter (.literal quote)

def step (s : Scanner) (b : UInt8) : Scanner :=
  match s.mode with
  | .code => s.stepCode b
  | .codeBackslash =>
    if b = newline then s.enter .code
    else if b = carriageReturn then s.enter .codeReturn
    else (s.push backslash).stepCode b
  | .codeReturn =>
    if b = newline then s.enter .code
    else ((s.push backslash).push carriageReturn).stepCode b
  | .slash =>
    if b = solidus then s.enter .lineComment
    else if b = star then s.enter .blockComment
    else (s.push solidus).stepCode b
  | .lineComment => s.stepLineComment b
  | .lineBackslash =>
    if b = newline then s.enter .lineComment
    else if b = carriageReturn then s.enter .lineReturn
    else s.stepLineComment b
  | .lineReturn =>
    if b = newline then s.enter .lineComment else s.stepLineComment b
  | .blockComment => if b = star then s.enter .blockStar else s
  | .blockStar =>
    if b = solidus then (s.push space).enter .code
    else if b = star then s
    else s.enter .blockComment
  | .literal quote => s.stepLiteral quote b
  | .literalBackslash quote =>
    if b = newline then s.enter (.literal quote)
    else if b = carriageReturn then s.enter (.literalReturn quote)
    else ((s.push backslash).push b).enter (.literal quote)
  | .literalReturn quote =>
    if b = newline then s.enter (.literal quote)
    else ((s.push backslash).push carriageReturn).stepLiteral quote b

def run (s : Scanner) (bs : Bytes) : Scanner := bs.foldl step s

/-- The bytes held back when the text ends belong to the last line, and a comment left open is one
space. -/
def finish (s : Scanner) : Scanner :=
  match s.mode with
  | .codeBackslash | .literalBackslash _ => s.push backslash
  | .codeReturn | .literalReturn _ => (s.push backslash).push carriageReturn
  | .slash => s.push solidus
  | .blockComment | .blockStar => s.push space
  | _ => s

/-- All lines, the present one last. -/
def lines (s : Scanner) : List Bytes := s.finish.endLine.done.reverse

theorem run_append (s : Scanner) (as bs : Bytes) : s.run (as ++ bs) = (s.run as).run bs :=
  List.foldl_append

end Scanner

/-- The logical lines of a text, as bytes. -/
def logicalLines (content : Bytes) : List Bytes := (Scanner.start.run content).lines

end Recompile
