import Mathlib.Data.List.TakeWhile
import Recompile.Text.Blank

/-!
# Text between blanks

What trimming takes off and what it leaves: a blank in front of a text or behind it does not change
the trimmed text, a text that neither begins nor ends with a blank is trimmed already, and what is
left is a piece of the text.
-/

namespace Recompile

variable {c : Char} {cs : List Char}

theorem trimStart_cons (h : isBlank c = false) (cs : List Char) : trimStart (c :: cs) = c :: cs :=
  List.dropWhile_cons_of_neg (by simp [h])

theorem trimStart_cons_blank (h : isBlank c = true) (cs : List Char) :
    trimStart (c :: cs) = trimStart cs :=
  List.dropWhile_cons_of_pos h

theorem trimEnd_concat (h : isBlank c = false) (cs : List Char) :
    trimEnd (cs ++ [c]) = cs ++ [c] := by
  simp [trimEnd, h]

theorem trimEnd_append {blanks : List Char} (h : ∀ c ∈ blanks, isBlank c = true) (cs : List Char) :
    trimEnd (cs ++ blanks) = trimEnd cs := by
  have hreverse : ∀ c ∈ blanks.reverse, isBlank c = true := fun c hc => h c (List.mem_reverse.1 hc)
  rw [trimEnd, List.reverse_append, List.dropWhile_append_of_pos hreverse]
  rfl

/-- Blanks behind a text are trimmed off. -/
theorem trim_append {blanks : List Char} (h : ∀ c ∈ blanks, isBlank c = true) (cs : List Char) :
    trim (cs ++ blanks) = trim cs := by
  rw [trim, trim, trimStart, List.dropWhile_append]
  split_ifs with hnil
  · rw [List.dropWhile_eq_nil_iff.2 h, trimStart, List.isEmpty_iff.1 hnil]
  · exact trimEnd_append h _

theorem trim_infix (cs : List Char) : trim cs <:+: cs := by
  have hend : trimEnd (trimStart cs) <+: trimStart cs := by
    rw [← List.reverse_suffix, trimEnd, List.reverse_reverse]
    exact List.dropWhile_suffix isBlank
  exact hend.isInfix.trans (List.dropWhile_suffix isBlank).isInfix

theorem isBlank_of_getLast?_trim (h : (trim cs).getLast? = some c) : isBlank c = false := by
  rw [trim, trimEnd, List.getLast?_reverse] at h
  exact trimStart_head _ c h

end Recompile
