/-!
# Blank characters

The characters with the Unicode property `White_Space`, and the text between blanks. Lines and
configured values are trimmed of all of them, not only of the ASCII ones.
-/

namespace Recompile

/-- The characters with the property `White_Space`. -/
def isBlank (c : Char) : Bool :=
  let n := c.toNat
  (9 ≤ n && n ≤ 13) || n == 0x20 || n == 0x85 || n == 0xA0 || n == 0x1680 ||
    (0x2000 ≤ n && n ≤ 0x200A) || n == 0x2028 || n == 0x2029 || n == 0x202F || n == 0x205F ||
    n == 0x3000

/-- The text from its first character that is no blank. -/
def trimStart (cs : List Char) : List Char := cs.dropWhile isBlank

/-- The text up to its last character that is no blank. -/
def trimEnd (cs : List Char) : List Char := (cs.reverse.dropWhile isBlank).reverse

def trim (cs : List Char) : List Char := trimEnd (trimStart cs)

theorem trimStart_head (cs : List Char) (c : Char) (h : (trimStart cs).head? = some c) :
    isBlank c = false := by
  have := List.head?_dropWhile_not isBlank cs
  rw [show cs.dropWhile isBlank = trimStart cs from rfl, h] at this
  simpa using this

end Recompile
