import Recompile.Proofs.Directive.Splice

/-!
# Lines are independent

A newline resets the scanner: whatever is left open before it, a literal or a comment that ends
with its line, the next line begins in code. Only a block comment that is still open takes the
newline in, and only a backslash before it joins the next line (`Scanner.Closed` excludes both). As
what the scanner does with a byte hangs on the mode alone (`Scanner.acts_step`), the lines before
some point do not count for those after it (`Scanner.exists_lines_run`). So the logical lines of two
texts with a newline between them are those of the one and then those of the other
(`logicalLines_newline`), and so are their directives (`Directives.ofContent_newline`).
-/

namespace Recompile

/-- Whether the scanner stands in a comment that ends with a star and a slash. -/
def Mode.inBlockComment : Mode → Bool
  | blockComment | blockStar => true
  | _ => false

namespace Scanner

/-! ## What a byte does to the lines -/

/-- The function puts some bytes at the end of the present line. -/
def Extends (f : Scanner → Scanner) : Prop :=
  ∃ mode held, ∀ s : Scanner, f s = ⟨mode, held ++ s.line, s.done⟩

/-- The function puts some bytes at the end of the present line and ends it. -/
def Ends (f : Scanner → Scanner) : Prop :=
  ∃ held, ∀ s : Scanner, f s = ⟨.code, [], (held ++ s.line).reverse :: s.done⟩

variable {f : Scanner → Scanner} {b : UInt8}

theorem extends_enter (mode : Mode) : Extends (·.enter mode) := ⟨mode, [], fun _ => rfl⟩

theorem Extends.push (h : Extends f) (c : UInt8) : Extends fun s => f (s.push c) := by
  obtain ⟨mode, held, h⟩ := h
  exact ⟨mode, held ++ [c], fun s => by simp [h, Scanner.push]⟩

theorem Ends.push (h : Ends f) (c : UInt8) : Ends fun s => f (s.push c) := by
  obtain ⟨held, h⟩ := h
  exact ⟨held ++ [c], fun s => by simp [h, Scanner.push]⟩

/-- What a byte can do, whatever stands in the lines before it. -/
def Acts (b : UInt8) (f : Scanner → Scanner) : Prop := Extends f ∨ b = newline ∧ Ends f

theorem acts_enter (b : UInt8) (mode : Mode) : Acts b (·.enter mode) := .inl (extends_enter mode)

theorem Acts.push (h : Acts b f) (c : UInt8) : Acts b fun s => f (s.push c) :=
  h.imp (·.push c) fun h => ⟨h.1, h.2.push c⟩

theorem acts_endLine (hb : b = newline) : Acts b endLine := .inr ⟨hb, [], fun _ => rfl⟩

theorem acts_stepCode (b : UInt8) : Acts b (·.stepCode b) := by
  unfold stepCode
  split_ifs with hb
  · exact acts_endLine hb
  · exact acts_enter ..
  · exact acts_enter ..
  · exact (acts_enter ..).push b
  · exact (acts_enter ..).push b

theorem acts_stepLineComment (b : UInt8) : Acts b (·.stepLineComment b) := by
  unfold stepLineComment
  split_ifs with hb
  · exact acts_endLine hb
  · exact acts_enter ..
  · exact acts_enter ..

theorem acts_stepLiteral (quote b : UInt8) : Acts b (·.stepLiteral quote b) := by
  unfold stepLiteral
  split_ifs with hb
  · exact acts_endLine hb
  · exact acts_enter ..
  · exact (acts_enter ..).push b
  · exact (acts_enter ..).push b

theorem Acts.enter (h : Acts b f) (mode : Mode) : Acts b fun s => f (s.enter mode) := by
  rcases h with ⟨mode', held, h⟩ | ⟨hb, held, h⟩
  · exact .inl ⟨mode', held, fun s => h (s.enter mode)⟩
  · exact .inr ⟨hb, held, fun s => h (s.enter mode)⟩

theorem mode_enter (s : Scanner) (mode : Mode) : (s.enter mode).mode = mode := rfl

/-- A step looks at nothing but the mode, and ends a line at a newline only. -/
theorem acts_step (mode : Mode) (b : UInt8) : Acts b fun s => (s.enter mode).step b := by
  cases mode with
  | code => exact (acts_stepCode b).enter _
  | lineComment => exact (acts_stepLineComment b).enter _
  | literal quote => exact (acts_stepLiteral quote b).enter _
  | codeBackslash =>
    simp only [step, mode_enter]
    split_ifs
    · exact (acts_enter b _).enter _
    · exact (acts_enter b _).enter _
    · exact ((acts_stepCode b).push backslash).enter _
  | codeReturn =>
    simp only [step, mode_enter]
    split_ifs
    · exact (acts_enter b _).enter _
    · exact (((acts_stepCode b).push carriageReturn).push backslash).enter _
  | slash =>
    simp only [step, mode_enter]
    split_ifs
    · exact (acts_enter b _).enter _
    · exact (acts_enter b _).enter _
    · exact ((acts_stepCode b).push solidus).enter _
  | lineBackslash =>
    simp only [step, mode_enter]
    split_ifs
    · exact (acts_enter b _).enter _
    · exact (acts_enter b _).enter _
    · exact (acts_stepLineComment b).enter _
  | lineReturn =>
    simp only [step, mode_enter]
    split_ifs
    · exact (acts_enter b _).enter _
    · exact (acts_stepLineComment b).enter _
  | blockComment =>
    simp only [step, mode_enter]
    split_ifs
    · exact (acts_enter b _).enter _
    · exact acts_enter b _
  | blockStar =>
    simp only [step, mode_enter]
    split_ifs
    · exact ((acts_enter b _).push space).enter _
    · exact acts_enter b _
    · exact (acts_enter b _).enter _
  | literalBackslash quote =>
    simp only [step, mode_enter]
    split_ifs
    · exact (acts_enter b _).enter _
    · exact (acts_enter b _).enter _
    · exact (((acts_enter b _).push b).push backslash).enter _
  | literalReturn quote =>
    simp only [step, mode_enter]
    split_ifs
    · exact (acts_enter b _).enter _
    · exact (((acts_stepLiteral quote b).push carriageReturn).push backslash).enter _

/-- The end of the text ends the present line with what is held back for it. -/
theorem ends_finish (mode : Mode) : Ends fun s => (s.enter mode).finish.endLine := by
  cases mode with
  | code | lineComment | lineBackslash | lineReturn | literal => exact ⟨[], fun _ => rfl⟩
  | codeBackslash | literalBackslash => exact ⟨[backslash], fun _ => rfl⟩
  | codeReturn | literalReturn => exact ⟨[carriageReturn, backslash], fun _ => rfl⟩
  | slash => exact ⟨[solidus], fun _ => rfl⟩
  | blockComment | blockStar => exact ⟨[space], fun _ => rfl⟩

/-- What is found after some point depends on the mode at that point only: the first line found goes
on from the present one, and the others are whole. -/
theorem exists_lines_run (mode : Mode) (bs : Bytes) : ∃ first rest, ∀ line done,
    (run ⟨mode, line, done⟩ bs).lines = done.reverse ++ (line.reverse ++ first) :: rest := by
  induction bs generalizing mode with
  | nil =>
    obtain ⟨held, h⟩ := ends_finish mode
    refine ⟨held.reverse, [], fun line done => ?_⟩
    have hfinish : (finish ⟨mode, line, done⟩).endLine =
        ⟨.code, [], (held ++ line).reverse :: done⟩ := h ⟨mode, line, done⟩
    rw [lines, run, List.foldl_nil, hfinish]
    simp
  | cons b bs ih =>
    rcases acts_step mode b with ⟨mode', held, h⟩ | ⟨-, held, h⟩
    · obtain ⟨first, rest, hrun⟩ := ih mode'
      refine ⟨held.reverse ++ first, rest, fun line done => ?_⟩
      have hstep : step ⟨mode, line, done⟩ b = ⟨mode', held ++ line, done⟩ := h ⟨mode, line, done⟩
      rw [run, List.foldl_cons, hstep]
      simpa [run] using hrun (held ++ line) done
    · obtain ⟨first, rest, hrun⟩ := ih .code
      refine ⟨held.reverse, first :: rest, fun line done => ?_⟩
      have hstep : step ⟨mode, line, done⟩ b = ⟨.code, [], (held ++ line).reverse :: done⟩ :=
        h ⟨mode, line, done⟩
      rw [run, List.foldl_cons, hstep]
      simpa [run] using hrun [] ((held ++ line).reverse :: done)

/-! ## Lines that have ended -/

/-- The scanner with some more lines ended before its own, the last one first. -/
def behind (s : Scanner) (before : List Bytes) : Scanner := { s with done := s.done ++ before }

/-- The lines that have ended do not count for what follows. -/
theorem lines_run_behind (before : List Bytes) (bs : Bytes) :
    ((start.behind before).run bs).lines = before.reverse ++ logicalLines bs := by
  obtain ⟨first, rest, h⟩ := exists_lines_run .code bs
  have hstart : logicalLines bs = first :: rest := h [] []
  rw [hstart]
  exact h [] ([] ++ before)

/-! ## A newline -/

/-- The text leaves no block comment open and does not end in what may begin a joined line end, so a
newline after it ends a line. -/
structure Closed (as : Bytes) : Prop where
  comment : (start.run as).mode.inBlockComment = false
  notBackslash : ¬[backslash] <:+ as
  notReturn : ¬[backslash, carriageReturn] <:+ as

/-- A newline ends the line with all that is held back for it, and the next line begins in code. -/
theorem step_newline {s : Scanner} (hcomment : s.mode.inBlockComment = false)
    (hbackslash : s.mode.afterBackslash = false) (hreturn : s.mode.afterReturn = false) :
    s.step newline = start.behind s.lines.reverse := by
  rw [lines, List.reverse_reverse]
  obtain ⟨mode, line, done⟩ := s
  cases mode with
  | blockComment | blockStar => cases hcomment
  | codeBackslash | lineBackslash | literalBackslash => cases hbackslash
  | codeReturn | lineReturn | literalReturn => cases hreturn
  | code | slash | lineComment | literal => rfl

theorem Closed.step_newline {as : Bytes} (h : Closed as) :
    (start.run as).step newline = start.behind (logicalLines as).reverse :=
  Scanner.step_newline h.comment (Bool.eq_false_iff.2 (h.notBackslash ∘ suffix_of_afterBackslash))
    (Bool.eq_false_iff.2 (h.notReturn ∘ suffix_of_afterReturn))

/-! ## A single line -/

variable (s : Scanner)

/-- Nothing but a newline ends a line. -/
theorem done_step (hb : b ≠ newline) : (s.step b).done = s.done := by
  rcases acts_step s.mode b with ⟨mode, held, h⟩ | ⟨heq, -⟩
  · have hstep : s.step b = ⟨mode, held ++ s.line, s.done⟩ := h s
    rw [hstep]
  · exact absurd heq hb

theorem done_run {bs : Bytes} (h : newline ∉ bs) : (s.run bs).done = s.done := by
  induction bs generalizing s with
  | nil => rfl
  | cons b bs ih =>
    change ((s.step b).run bs).done = s.done
    rw [ih _ (List.not_mem_of_not_mem_cons h), done_step s (List.ne_of_not_mem_cons h).symm]

theorem done_finish : s.finish.done = s.done := by
  obtain ⟨mode, line, done⟩ := s
  cases mode <;> rfl

end Scanner

variable {as bs line : Bytes}

/-- The logical lines before a newline and after it are found apart. -/
theorem logicalLines_newline (h : Scanner.Closed as) :
    logicalLines (as ++ Scanner.newline :: bs) = logicalLines as ++ logicalLines bs := by
  calc logicalLines (as ++ Scanner.newline :: bs)
    _ = (((Scanner.start.run as).step Scanner.newline).run bs).lines := by
        rw [logicalLines, Scanner.run_append]
        rfl
    _ = logicalLines as ++ logicalLines bs := by
        rw [h.step_newline, Scanner.lines_run_behind, List.reverse_reverse]

/-- A text without newlines is one logical line. -/
theorem logicalLines_eq (h : Scanner.newline ∉ line) :
    logicalLines line = [(Scanner.start.run line).finish.line.reverse] := by
  change ((_ :: (Scanner.start.run line).finish.done)).reverse = _
  rw [Scanner.done_finish, Scanner.done_run _ h]
  rfl

namespace Directives

theorem ofText_newline (h : Scanner.Closed as) :
    ofText (as ++ Scanner.newline :: bs) = ofText as ++ ofText bs := by
  rw [ofText, logicalLines_newline h, List.filterMap_append]
  rfl

/-- A line holds one directive or none. -/
theorem exists_ofText_eq (h : Scanner.newline ∉ line) : ∃ d : Option Directive,
    ofText line = d.toList := by
  let l := (Scanner.start.run line).finish.line.reverse
  refine ⟨Directive.ofLine? (Utf8.decode l), ?_⟩
  rw [ofText, logicalLines_eq h, List.filterMap_cons, List.filterMap_nil]
  cases Directive.ofLine? (Utf8.decode l) <;> rfl

theorem zero_notMem_newline (has : 0 ∉ as) (hbs : 0 ∉ bs) : 0 ∉ as ++ Scanner.newline :: bs := by
  simp only [List.mem_append, List.mem_cons, not_or]
  exact ⟨has, by decide, hbs⟩

theorem valid_newline (has : Utf8.Valid as) (hbs : Utf8.Valid bs) :
    Utf8.Valid (as ++ Scanner.newline :: bs) := by
  have hnewline : Utf8.Valid [Scanner.newline] := by decide
  rw [Utf8.valid_append_iff has, ← List.singleton_append, Utf8.valid_append_iff hnewline]
  exact hbs

/-- **Lines are independent.** Where a newline ends a line, the directives of a text are those of
what stands before the newline and then those of what stands after it. So a line in the middle,
whatever it holds, adds its own directive if it has one and changes nothing else, as long as it
leaves no block comment open and is not joined to the next line. -/
theorem ofContent_newline (hzero : 0 ∉ as) (hvalid : Utf8.Valid as) (hzero' : 0 ∉ bs)
    (hvalid' : Utf8.Valid bs) (hclosed : Scanner.Closed as) :
    ∃ ds es, ofContent as = .ok ds ∧ ofContent bs = .ok es ∧
      ofContent (as ++ Scanner.newline :: bs) = .ok (ds ++ es) ∧
      ∀ line, 0 ∉ line → Utf8.Valid line → Scanner.newline ∉ line → Scanner.Closed line →
        ∃ d : Option Directive, ofContent line = .ok d.toList ∧
          ofContent (as ++ Scanner.newline :: (line ++ Scanner.newline :: bs)) =
            .ok (ds ++ (d.toList ++ es)) := by
  refine ⟨ofText as, ofText bs, ofContent_eq_ok hzero hvalid, ofContent_eq_ok hzero' hvalid',
    ?_, ?_⟩
  · rw [ofContent_eq_ok (zero_notMem_newline hzero hzero') (valid_newline hvalid hvalid'),
      ofText_newline hclosed]
  · intro line hline hlineValid hnewline hlineClosed
    obtain ⟨d, hd⟩ := exists_ofText_eq hnewline
    have hrestZero := zero_notMem_newline hline hzero'
    have hrestValid := valid_newline hlineValid hvalid'
    refine ⟨d, hd ▸ ofContent_eq_ok hline hlineValid, ?_⟩
    rw [ofContent_eq_ok (zero_notMem_newline hzero hrestZero) (valid_newline hvalid hrestValid),
      ofText_newline hclosed, ofText_newline hlineClosed, hd]

/-- A literal that is never closed and a conditional line between two directives. -/
theorem ofContent_newline_unclosed :
    let opened : Bytes := Utf8.ofString "#include \"a.h"
    let conditional : Bytes := Utf8.ofString "#else // '"
    let rest : Bytes := Utf8.ofString "#include \"b.h\"\n"
    ofContent (opened ++ Scanner.newline :: (conditional ++ Scanner.newline :: rest)) =
      .ok [⟨"\"a.h", .expression, .includes⟩, ⟨"b.h", .quoted, .includes⟩] := by
  intro opened conditional rest
  have hopened : Scanner.Closed opened :=
    ⟨by decide +kernel, by decide +kernel, by decide +kernel⟩
  have hconditional : Scanner.Closed conditional :=
    ⟨by decide +kernel, by decide +kernel, by decide +kernel⟩
  obtain ⟨ds, es, hds, hes, -, hlines⟩ := @ofContent_newline opened rest
    (by decide +kernel) (by decide +kernel) (by decide +kernel) (by decide +kernel) hopened
  obtain ⟨d, hd, hall⟩ := hlines conditional (by decide +kernel) (by decide +kernel)
    (by decide +kernel) hconditional
  have hfirst : ofContent opened = .ok [⟨"\"a.h", .expression, .includes⟩] := by decide +kernel
  have hlast : ofContent rest = .ok [⟨"b.h", .quoted, .includes⟩] := by decide +kernel
  have hnone : ofContent conditional = .ok [] := by decide +kernel
  rw [hall, ← Except.ok.inj (hfirst.symm.trans hds), ← Except.ok.inj (hlast.symm.trans hes),
    ← Except.ok.inj (hnone.symm.trans hd)]
  rfl

end Directives

end Recompile
