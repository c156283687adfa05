import Mathlib.Data.List.GetD
import Mathlib.Logic.Function.Iterate
import Recompile.Proofs.Directive.Splice

/-!
# The logical lines by position

The scanner takes one byte at a time and holds back what it cannot decide yet. The same lines are
found by a cursor that goes through the text by position and looks ahead, up to two bytes behind the
one it stands at (`Cursor.lines_eq_logicalLines`). It takes in a joined line end or a comment mark
at once, and in a literal a backslash together with the byte after it.

Behind the end of the text the cursor sees a zero byte. As no mark has one, whatever it takes for a
mark stands in the text (`Cursor.drop_eq_of_peek`), so it goes on by bytes of the text only
(`Cursor.moves_step`) and never beyond its end (`Cursor.pos_le_length`). All that one step can do
is listed in `Cursor.Reads`, and what is to hold of every cursor is shown once for each entry
(`Cursor.after_induction`).
-/

namespace Recompile

open Scanner (newline carriageReturn space doubleQuote singleQuote star solidus backslash)

theorem IsSplice.length_pos {splice : Bytes} (h : IsSplice splice) : 0 < splice.length := by
  rcases h with rfl | rfl <;> exact Nat.zero_lt_succ _

/-- No joined line end stands in front of the bytes. -/
def NoSplice (bs : Bytes) : Prop := ∀ splice, IsSplice splice → ¬ splice <+: bs

theorem NoSplice.ne_newline {b : UInt8} {rest : Bytes} (h : NoSplice (backslash :: b :: rest)) :
    b ≠ newline := by
  rintro rfl
  exact h _ (.inl rfl) (List.prefix_append _ rest)

theorem NoSplice.head?_ne_newline {rest : Bytes}
    (h : NoSplice (backslash :: carriageReturn :: rest)) : rest.head? ≠ some newline := by
  intro hhead
  obtain ⟨rest, rfl⟩ := List.head?_eq_some_iff.1 hhead
  exact h _ (.inr rfl) (List.prefix_append _ rest)

/-! ## What is held back for no mark -/

namespace Scanner

variable {s : Scanner} {b : UInt8} {rest : Bytes}

/-- The scanner without what it holds back for a joined line end. -/
def unhold (s : Scanner) : Scanner :=
  match s.mode with
  | .codeBackslash => (s.push backslash).enter .code
  | .codeReturn => ((s.push backslash).push carriageReturn).enter .code
  | .lineBackslash | .lineReturn => s.enter .lineComment
  | .literalReturn quote => ((s.push backslash).push carriageReturn).enter (.literal quote)
  | _ => s

theorem lines_unhold : s.unhold.lines = s.lines := by
  obtain ⟨mode, line, done⟩ := s
  cases mode <;> rfl

/-- What is held back counts only before a newline, or before a carriage return that a newline may
follow. -/
theorem step_unhold (hnewline : b ≠ newline) (hmode : s.mode.afterReturn = true ∨
    (s.mode = .codeBackslash ∨ s.mode = .lineBackslash) ∧ b ≠ carriageReturn) :
    s.unhold.step b = s.step b := by
  obtain ⟨mode, line, done⟩ := s
  cases mode with
  | codeReturn | lineReturn | literalReturn =>
    simp only [step, unhold, if_neg hnewline]
    rfl
  | codeBackslash | lineBackslash =>
    have hreturn : b ≠ carriageReturn := (hmode.resolve_left Bool.false_ne_true).2
    simp only [step, unhold, if_neg hnewline, if_neg hreturn]
    rfl
  | code | slash | lineComment | blockComment | blockStar | literal | literalBackslash =>
    rcases hmode with hmode | ⟨hmode | hmode, -⟩ <;> cases hmode

theorem lines_run_unhold_of_return (hmode : s.mode.afterReturn = true)
    (hrest : rest.head? ≠ some newline) : (s.unhold.run rest).lines = (s.run rest).lines :=
  lines_run_congr lines_unhold fun _ hb =>
    step_unhold (fun hnewline => hrest (hnewline ▸ hb)) (.inl hmode)

/-- In code and in a comment a backslash that begins no joined line end is a byte like others. -/
theorem lines_run_unhold (hmode : s.mode = .codeBackslash ∨ s.mode = .lineBackslash)
    (hno : NoSplice (backslash :: rest)) : (s.unhold.run rest).lines = (s.run rest).lines := by
  by_cases hreturn : rest.head? = some carriageReturn
  · obtain ⟨rest, rfl⟩ := List.head?_eq_some_iff.1 hreturn
    have hheld : (s.step carriageReturn).mode.afterReturn = true ∧
        (s.step carriageReturn).unhold = s.unhold.step carriageReturn := by
      obtain ⟨mode, line, done⟩ := s
      rcases hmode with rfl | rfl <;> exact ⟨rfl, rfl⟩
    change ((s.unhold.step carriageReturn).run rest).lines = _
    rw [← hheld.2, lines_run_unhold_of_return hheld.1 hno.head?_ne_newline]
    rfl
  · refine lines_run_congr lines_unhold fun b hb => step_unhold ?_ (.inr ⟨hmode, ?_⟩)
    · obtain ⟨rest, rfl⟩ := List.head?_eq_some_iff.1 hb
      exact hno.ne_newline
    · rintro rfl
      exact hreturn hb

/-- In a literal a backslash that begins no joined line end is copied with the byte after it. -/
theorem lines_run_escape {quote : UInt8} (hmode : s.mode = .literal quote)
    (hno : NoSplice (backslash :: b :: rest)) :
    (s.run (backslash :: b :: rest)).lines = (((s.push backslash).push b).run rest).lines := by
  obtain ⟨mode, line, done⟩ := s
  subst hmode
  have hnewline := hno.ne_newline
  by_cases hreturn : b = carriageReturn
  · subst hreturn
    exact (lines_run_unhold_of_return (s := ⟨.literalReturn quote, line, done⟩) rfl
      hno.head?_ne_newline).symm
  · have hstep : step ⟨.literalBackslash quote, line, done⟩ b =
        ⟨.literal quote, b :: backslash :: line, done⟩ := by
      simp only [step, if_neg hnewline, if_neg hreturn]
      rfl
    exact congrArg (fun s => (run s rest).lines) hstep

/-- A byte that begins no mark is copied. -/
theorem lines_run_codeByte (hmode : s.mode = .code) (hnewline : b ≠ newline)
    (hquote : ¬ (b = doubleQuote ∨ b = singleQuote)) (hsplice : NoSplice (b :: rest))
    (hmark : b = solidus → rest.head? ≠ some solidus ∧ rest.head? ≠ some star) :
    (s.run (b :: rest)).lines = ((s.push b).run rest).lines := by
  obtain ⟨mode, line, done⟩ := s
  subst hmode
  by_cases hbackslash : b = backslash
  · subst hbackslash
    exact (lines_run_unhold (s := ⟨.codeBackslash, line, done⟩) (.inl rfl) hsplice).symm
  by_cases hsolidus : b = solidus
  · subst hsolidus
    refine (lines_run_release (s := ⟨.slash, line, done⟩) fun b hb => ?_).symm
    obtain ⟨hline, hblock⟩ := hmark rfl
    have hb : rest.head? = some b := hb
    rw [hb, Ne, Option.some.injEq] at hline hblock
    rw [Mode.marksWith, beq_eq_false_iff_ne.2 hline, beq_eq_false_iff_ne.2 hblock]
    rfl
  · have hstep : step ⟨.code, line, done⟩ b = ⟨.code, b :: line, done⟩ := by
      simp only [step, stepCode, if_neg hnewline, if_neg hbackslash, if_neg hsolidus,
        if_neg hquote]
      rfl
    exact congrArg (fun s => (run s rest).lines) hstep

theorem lines_run_lineByte (hmode : s.mode = .lineComment) (hnewline : b ≠ newline)
    (hsplice : NoSplice (b :: rest)) : (s.run (b :: rest)).lines = (s.run rest).lines := by
  obtain ⟨mode, line, done⟩ := s
  subst hmode
  by_cases hbackslash : b = backslash
  · subst hbackslash
    exact (lines_run_unhold (s := ⟨.lineBackslash, line, done⟩) (.inr rfl) hsplice).symm
  · have hstep : step ⟨.lineComment, line, done⟩ b = ⟨.lineComment, line, done⟩ := by
      simp only [step, stepLineComment, if_neg hnewline, if_neg hbackslash]
      rfl
    exact congrArg (fun s => (run s rest).lines) hstep

theorem lines_run_blockByte (hmode : s.mode = .blockComment)
    (hmark : ¬ [star, solidus] <+: b :: rest) : (s.run (b :: rest)).lines = (s.run rest).lines := by
  obtain ⟨mode, line, done⟩ := s
  subst hmode
  by_cases hstar : b = star
  · subst hstar
    refine (lines_run_release (s := ⟨.blockStar, line, done⟩) fun b hb => ?_).symm
    obtain ⟨rest, rfl⟩ := List.head?_eq_some_iff.1 hb
    refine beq_eq_false_iff_ne.2 ?_
    rintro rfl
    exact hmark (List.prefix_append [star, solidus] rest)
  · have hstep : step ⟨.blockComment, line, done⟩ b = ⟨.blockComment, line, done⟩ :=
      if_neg hstar
    exact congrArg (fun s => (run s rest).lines) hstep

end Scanner

/-! ## The cursor -/

/-- Where a cursor stands. -/
inductive Region where
  | code
  /-- A comment that ends with its line. -/
  | lineComment
  /-- A comment that ends with a star and a slash. -/
  | blockComment
  /-- A literal that the given quote closes. -/
  | literal (quote : UInt8)
  deriving DecidableEq, Repr

def Region.mode : Region → Mode
  | code => .code
  | lineComment => .lineComment
  | blockComment => .blockComment
  | literal quote => .literal quote

structure Cursor where
  pos : Nat
  region : Region
  /-- The bytes of the present line, the last one first. -/
  line : Bytes
  /-- The lines that have ended, the last one first. -/
  done : List Bytes
  deriving DecidableEq, Repr

namespace Cursor

def start : Cursor := ⟨0, .code, [], []⟩

/-- The byte at a position, and zero behind the end. -/
def peek (content : Bytes) (i : Nat) : UInt8 := content.getD i 0

/-- The length of the joined line end at a position, and zero where there is none. -/
def spliceLength (content : Bytes) (i : Nat) : Nat :=
  if peek content i = backslash then
    if peek content (i + 1) = newline then 2
    else if peek content (i + 1) = carriageReturn ∧ peek content (i + 2) = newline then 3
    else 0
  else 0

def skip (c : Cursor) (n : Nat) : Cursor := { c with pos := c.pos + n }

/-- Puts the byte at the position at the end of the present line. -/
def copy (c : Cursor) (b : UInt8) : Cursor := { c with pos := c.pos + 1, line := b :: c.line }

def push (c : Cursor) (b : UInt8) : Cursor := { c with line := b :: c.line }

def enter (c : Cursor) (region : Region) : Cursor := { c with region }

/-- Ends the present line at a newline; the next one begins in code. -/
def endLine (c : Cursor) : Cursor := ⟨c.pos + 1, .code, [], c.line.reverse :: c.done⟩

variable (content : Bytes) (c : Cursor)

def stepCode : Cursor :=
  let b := peek content c.pos
  let next := peek content (c.pos + 1)
  if 0 < spliceLength content c.pos then c.skip (spliceLength content c.pos)
  else if b = newline then c.endLine
  else if b = solidus ∧ next = solidus then (c.skip 2).enter .lineComment
  else if b = solidus ∧ next = star then (c.skip 2).enter .blockComment
  else if b = doubleQuote ∨ b = singleQuote then (c.copy b).enter (.literal b)
  else c.copy b

def stepLineComment : Cursor :=
  if peek content c.pos = newline then c.endLine
  else c.skip (max (spliceLength content c.pos) 1)

def stepBlockComment : Cursor :=
  if peek content c.pos = star ∧ peek content (c.pos + 1) = solidus then
    ((c.skip 2).push space).enter .code
  else c.skip 1

def stepLiteral (quote : UInt8) : Cursor :=
  let b := peek content c.pos
  let next := peek content (c.pos + 1)
  if 0 < spliceLength content c.pos then c.skip (spliceLength content c.pos)
  else if b = newline then c.endLine
  else if b = backslash then
    if c.pos + 1 < content.length ∧ next ≠ newline then (c.copy b).copy next else c.copy b
  else if b = quote then (c.copy b).enter .code
  else c.copy b

def step : Cursor :=
  if content.length ≤ c.pos then c
  else
    match c.region with
    | .code => c.stepCode content
    | .lineComment => c.stepLineComment content
    | .blockComment => c.stepBlockComment content
    | .literal quote => c.stepLiteral content quote

/-- The cursor after some steps through a text. -/
def after (n : Nat) : Cursor := (step content)^[n] start

/-- All lines, the present one last; a comment left open is one space. -/
def lines : List Bytes :=
  let last :=
    match c.region with
    | .blockComment => c.push space
    | _ => c
  last.endLine.done.reverse

/-! ## What stands at a position -/

variable {content} {c} {i : Nat} {b : UInt8} {rest : Bytes}

theorem peek_add (content : Bytes) (i k : Nat) :
    peek content (i + k) = peek (content.drop i) k := by
  simp only [peek, List.getD_eq_getElem?_getD, List.getElem?_drop]

theorem drop_eq_cons (h : i < content.length) :
    content.drop i = peek content i :: content.drop (i + 1) := by
  rw [List.drop_eq_getElem_cons h, peek, List.getD_eq_getElem content 0 h]

/-- What is not zero stands in the text. -/
theorem drop_eq_of_peek (h : peek content i = b) (hb : b ≠ 0) :
    content.drop i = b :: content.drop (i + 1) := by
  have hlt : i < content.length := by
    by_contra hge
    refine hb ?_
    rw [← h, peek, List.getD_eq_default content 0 (Nat.not_lt.1 hge)]
  rw [drop_eq_cons hlt, h]

theorem drop_eq_pair {b' : UInt8} (h : peek content i = b) (h' : peek content (i + 1) = b')
    (hb : b ≠ 0) (hb' : b' ≠ 0) : content.drop i = [b, b'] ++ content.drop (i + 2) := by
  rw [drop_eq_of_peek h hb, drop_eq_of_peek h' hb']
  rfl

theorem head?_drop_ne {x : UInt8} (hx : peek content i ≠ x) : (content.drop i).head? ≠ some x := by
  intro h
  obtain ⟨rest, hrest⟩ := List.head?_eq_some_iff.1 h
  refine hx ?_
  rw [← Nat.add_zero i, peek_add, hrest]
  rfl

theorem spliceLength_cases (content : Bytes) (i : Nat) :
    (spliceLength content i = 0 ∧ NoSplice (content.drop i)) ∨
      ∃ splice, IsSplice splice ∧ spliceLength content i = splice.length ∧
        content.drop i = splice ++ content.drop (i + splice.length) := by
  by_cases hbackslash : peek content i = backslash
  · by_cases hnewline : peek content (i + 1) = newline
    · right
      refine ⟨[backslash, newline], .inl rfl, ?_, ?_⟩
      · rw [spliceLength, if_pos hbackslash, if_pos hnewline]
        rfl
      · exact drop_eq_pair hbackslash hnewline (by decide) (by decide)
    · by_cases hreturn : peek content (i + 1) = carriageReturn ∧ peek content (i + 2) = newline
      · right
        refine ⟨[backslash, carriageReturn, newline], .inr rfl, ?_, ?_⟩
        · rw [spliceLength, if_pos hbackslash, if_neg hnewline, if_pos hreturn]
          rfl
        · rw [drop_eq_pair hbackslash hreturn.1 (by decide) (by decide),
            drop_eq_of_peek hreturn.2 (by decide)]
          rfl
      · left
        refine ⟨?_, ?_⟩
        · rw [spliceLength, if_pos hbackslash, if_neg hnewline, if_neg hreturn]
        · rintro splice (rfl | rfl) ⟨rest, hrest⟩
          · refine hnewline ?_
            rw [peek_add, ← hrest]
            rfl
          · refine hreturn ⟨?_, ?_⟩
            · rw [peek_add, ← hrest]
              rfl
            · rw [peek_add, ← hrest]
              rfl
  · left
    refine ⟨if_neg hbackslash, ?_⟩
    rintro splice hsplice ⟨rest, hrest⟩
    refine hbackslash ?_
    rw [← Nat.add_zero i, peek_add, ← hrest]
    rcases hsplice with rfl | rfl <;> rfl

/-! ## What a step does -/

/-- How a cursor goes on where `piece` stands at its position and `rest` behind that. -/
inductive Reads (c : Cursor) : Bytes → Bytes → Cursor → Prop
  | splice {splice rest : Bytes} (hregion : c.region ≠ .blockComment) (hsplice : IsSplice splice) :
      Reads c splice rest (c.skip splice.length)
  | newline {rest : Bytes} (hregion : c.region ≠ .blockComment) :
      Reads c [Scanner.newline] rest c.endLine
  | openLineComment {rest : Bytes} (hregion : c.region = .code) :
      Reads c [solidus, solidus] rest ((c.skip 2).enter .lineComment)
  | openBlockComment {rest : Bytes} (hregion : c.region = .code) :
      Reads c [solidus, star] rest ((c.skip 2).enter .blockComment)
  | openLiteral {quote : UInt8} {rest : Bytes} (hregion : c.region = .code)
      (hquote : quote = doubleQuote ∨ quote = singleQuote) :
      Reads c [quote] rest ((c.copy quote).enter (.literal quote))
  | code {b : UInt8} {rest : Bytes} (hregion : c.region = .code) (hnewline : b ≠ Scanner.newline)
      (hquote : ¬ (b = doubleQuote ∨ b = singleQuote)) (hsplice : NoSplice (b :: rest))
      (hmark : b = solidus → rest.head? ≠ some solidus ∧ rest.head? ≠ some star) :
      Reads c [b] rest (c.copy b)
  | lineComment {b : UInt8} {rest : Bytes} (hregion : c.region = .lineComment)
      (hnewline : b ≠ Scanner.newline) (hsplice : NoSplice (b :: rest)) :
      Reads c [b] rest (c.skip 1)
  | blockComment {b : UInt8} {rest : Bytes} (hregion : c.region = .blockComment)
      (hmark : ¬ [star, solidus] <+: b :: rest) : Reads c [b] rest (c.skip 1)
  | closeBlockComment {rest : Bytes} (hregion : c.region = .blockComment) :
      Reads c [star, solidus] rest (((c.skip 2).push space).enter .code)
  | literal {quote b : UInt8} {rest : Bytes} (hregion : c.region = .literal quote)
      (hnewline : b ≠ Scanner.newline) (hbackslash : b ≠ backslash) (hquote : b ≠ quote) :
      Reads c [b] rest (c.copy b)
  | escape {quote b : UInt8} {rest : Bytes} (hregion : c.region = .literal quote)
      (hsplice : NoSplice (backslash :: b :: rest)) :
      Reads c [backslash, b] rest ((c.copy backslash).copy b)
  | lastBackslash {quote : UInt8} (hregion : c.region = .literal quote) :
      Reads c [backslash] [] (c.copy backslash)
  | closeLiteral {quote : UInt8} {rest : Bytes} (hregion : c.region = .literal quote)
      (hnewline : quote ≠ Scanner.newline) (hbackslash : quote ≠ backslash) :
      Reads c [quote] rest ((c.copy quote).enter .code)

theorem Reads.pos_eq {piece : Bytes} {c' : Cursor} (h : Reads c piece rest c') :
    c'.pos = c.pos + piece.length := by
  cases h <;> rfl

theorem Reads.length_pos {piece : Bytes} {c' : Cursor} (h : Reads c piece rest c') :
    0 < piece.length := by
  cases h with
  | splice _ hsplice => exact hsplice.length_pos
  | newline | openLineComment | openBlockComment | openLiteral | code | lineComment | blockComment
  | closeBlockComment | literal | escape | lastBackslash | closeLiteral => exact Nat.zero_lt_succ _

/-- The cursor goes from one to the other over bytes of the text. -/
def Moves (content : Bytes) (c c' : Cursor) : Prop :=
  ∃ piece, content.drop c.pos = piece ++ content.drop c'.pos ∧
    Reads c piece (content.drop c'.pos) c'

theorem moves_stepCode (hlt : c.pos < content.length) (hregion : c.region = .code) :
    Moves content c (c.stepCode content) := by
  unfold stepCode
  dsimp only
  rcases spliceLength_cases content c.pos with ⟨hzero, hno⟩ | ⟨splice, hsplice, hlength, hdrop⟩
  · have hcons := drop_eq_cons hlt
    rw [if_neg (Nat.not_lt.2 (Nat.le_zero.2 hzero))]
    split_ifs with hnewline hline hblock hquote
    · exact ⟨_, hnewline ▸ hcons, .newline (by simp [hregion])⟩
    · exact ⟨_, drop_eq_pair hline.1 hline.2 (by decide) (by decide), .openLineComment hregion⟩
    · exact ⟨_, drop_eq_pair hblock.1 hblock.2 (by decide) (by decide), .openBlockComment hregion⟩
    · exact ⟨_, hcons, .openLiteral hregion hquote⟩
    · refine ⟨_, hcons, .code hregion hnewline hquote (hcons ▸ hno) fun hb => ⟨?_, ?_⟩⟩
      · exact head?_drop_ne fun hnext => hline ⟨hb, hnext⟩
      · exact head?_drop_ne fun hnext => hblock ⟨hb, hnext⟩
  · rw [hlength, if_pos hsplice.length_pos]
    exact ⟨splice, hdrop, .splice (by simp [hregion]) hsplice⟩

theorem moves_stepLineComment (hlt : c.pos < content.length) (hregion : c.region = .lineComment) :
    Moves content c (c.stepLineComment content) := by
  have hcons := drop_eq_cons hlt
  unfold stepLineComment
  split_ifs with hnewline
  · exact ⟨_, hnewline ▸ hcons, .newline (by simp [hregion])⟩
  · rcases spliceLength_cases content c.pos with ⟨hzero, hno⟩ | ⟨splice, hsplice, hlength, hdrop⟩
    · rw [hzero]
      exact ⟨_, hcons, .lineComment hregion hnewline (hcons ▸ hno)⟩
    · rw [hlength, Nat.max_eq_left hsplice.length_pos]
      exact ⟨splice, hdrop, .splice (by simp [hregion]) hsplice⟩

theorem moves_stepBlockComment (hlt : c.pos < content.length) (hregion : c.region = .blockComment) :
    Moves content c (c.stepBlockComment content) := by
  have hcons := drop_eq_cons hlt
  unfold stepBlockComment
  split_ifs with hmark
  · exact ⟨_, drop_eq_pair hmark.1 hmark.2 (by decide) (by decide), .closeBlockComment hregion⟩
  · refine ⟨_, hcons, .blockComment hregion ?_⟩
    rintro ⟨rest, hrest⟩
    have hmarks : content.drop c.pos = star :: solidus :: rest := hcons.trans hrest.symm
    refine hmark ⟨(List.cons.inj hrest).1.symm, ?_⟩
    rw [peek_add, hmarks]
    rfl

theorem moves_stepLiteral {quote : UInt8} (hlt : c.pos < content.length)
    (hregion : c.region = .literal quote) : Moves content c (c.stepLiteral content quote) := by
  unfold stepLiteral
  dsimp only
  rcases spliceLength_cases content c.pos with ⟨hzero, hno⟩ | ⟨splice, hsplice, hlength, hdrop⟩
  · have hcons := drop_eq_cons hlt
    rw [if_neg (Nat.not_lt.2 (Nat.le_zero.2 hzero))]
    split_ifs with hnewline hbackslash hnext hquote
    · exact ⟨_, hnewline ▸ hcons, .newline (by simp [hregion])⟩
    · have hpair : content.drop c.pos = [backslash, peek content (c.pos + 1)] ++
          content.drop (c.pos + 2) := by
        rw [hcons, hbackslash, drop_eq_cons hnext.1]
        rfl
      rw [hpair] at hno
      rw [hbackslash]
      exact ⟨_, hpair, .escape hregion hno⟩
    · have hlast : content.drop (c.pos + 1) = [] := by
        refine List.drop_eq_nil_of_le (Nat.not_lt.1 fun hmore => hnext ⟨hmore, fun hsplit => ?_⟩)
        refine hno _ (.inl rfl) ⟨content.drop (c.pos + 2), ?_⟩
        rw [hcons, hbackslash, drop_eq_cons hmore, hsplit]
        rfl
      rw [hbackslash] at hcons ⊢
      refine ⟨[backslash], hcons, ?_⟩
      rw [show content.drop (c.copy backslash).pos = [] from hlast]
      exact .lastBackslash hregion
    · rw [hquote]
      exact ⟨_, hquote ▸ hcons, .closeLiteral hregion (hquote ▸ hnewline) (hquote ▸ hbackslash)⟩
    · exact ⟨_, hcons, .literal hregion hnewline hbackslash hquote⟩
  · rw [hlength, if_pos hsplice.length_pos]
    exact ⟨splice, hdrop, .splice (by simp [hregion]) hsplice⟩

/-- **What a step can do.** A step before the end goes over bytes of the text, by one of the ways
that are listed. -/
theorem moves_step (hlt : c.pos < content.length) : Moves content c (c.step content) := by
  unfold step
  rw [if_neg (Nat.not_le.2 hlt)]
  cases hregion : c.region with
  | code => exact moves_stepCode hlt hregion
  | lineComment => exact moves_stepLineComment hlt hregion
  | blockComment => exact moves_stepBlockComment hlt hregion
  | literal quote => exact moves_stepLiteral hlt hregion

theorem step_of_le (hle : content.length ≤ c.pos) : c.step content = c := if_pos hle

theorem after_succ (content : Bytes) (n : Nat) :
    after content (n + 1) = (after content n).step content :=
  Function.iterate_succ_apply' ..

/-- What holds at the beginning and is kept by all that a step can do holds after every step. -/
theorem after_induction {P : Cursor → Prop} (hstart : P start)
    (hmoves : ∀ c c', Moves content c c' → P c → P c') (n : Nat) : P (after content n) := by
  induction n with
  | zero => exact hstart
  | succ n ih =>
    rw [after_succ]
    rcases Nat.lt_or_ge (after content n).pos content.length with hlt | hge
    · exact hmoves _ _ (moves_step hlt) ih
    · rwa [step_of_le hge]

/-! ## The position -/

theorem Moves.pos_le {c' : Cursor} (h : Moves content c c') (hle : c.pos ≤ content.length) :
    c'.pos ≤ content.length := by
  obtain ⟨piece, hdrop, hreads⟩ := h
  have hlength := congrArg List.length hdrop
  rw [List.length_append, List.length_drop, List.length_drop] at hlength
  have := hreads.pos_eq
  omega

/-- The cursor stays in the text. -/
theorem pos_le_length (content : Bytes) (n : Nat) : (after content n).pos ≤ content.length :=
  after_induction (P := fun c => c.pos ≤ content.length) (Nat.zero_le _)
    (fun _ _ h hle => h.pos_le hle) n

/-- Every step before the end goes on, so the text is at its end after as many steps as it has
bytes. -/
theorem min_le_pos (content : Bytes) (n : Nat) : min n content.length ≤ (after content n).pos := by
  induction n with
  | zero => exact Nat.min_le_left ..
  | succ n ih =>
    rw [after_succ]
    rcases Nat.lt_or_ge (after content n).pos content.length with hlt | hge
    · obtain ⟨piece, -, hreads⟩ := moves_step hlt
      have := hreads.pos_eq
      have := hreads.length_pos
      omega
    · rw [step_of_le hge]
      omega

/-- The cursor at the end of the text. -/
def last (content : Bytes) : Cursor := after content content.length

theorem pos_last (content : Bytes) : (last content).pos = content.length := by
  have hle := pos_le_length content content.length
  have hge := min_le_pos content content.length
  rw [Nat.min_self] at hge
  exact Nat.le_antisymm hle hge

/-! ## The same lines -/

/-- The scanner where the cursor stands; it holds nothing back. -/
def scanner (c : Cursor) : Scanner := ⟨c.region.mode, c.line, c.done⟩

/-- A step of the cursor and the bytes that it goes over do the same to the lines. -/
theorem Reads.lines_run {piece : Bytes} {c' : Cursor} (h : Reads c piece rest c') :
    (c.scanner.run (piece ++ rest)).lines = (c'.scanner.run rest).lines := by
  obtain ⟨pos, region, line, done⟩ := c
  cases h with
  | splice hregion hsplice =>
    cases region with
    | blockComment => exact absurd rfl hregion
    | code | lineComment | literal =>
      exact Scanner.lines_run_splice hsplice rfl rfl fun _ _ => rfl
  | newline hregion =>
    cases region with
    | blockComment => exact absurd rfl hregion
    | code | lineComment | literal => rfl
  | openLineComment hregion | openBlockComment hregion | closeBlockComment hregion
  | lastBackslash hregion =>
    obtain rfl := hregion
    rfl
  | openLiteral hregion hquote =>
    obtain rfl := hregion
    rcases hquote with rfl | rfl <;> rfl
  | code hregion hnewline hquote hsplice hmark =>
    exact Scanner.lines_run_codeByte (congrArg Region.mode hregion) hnewline hquote hsplice hmark
  | lineComment hregion hnewline hsplice =>
    exact Scanner.lines_run_lineByte (congrArg Region.mode hregion) hnewline hsplice
  | blockComment hregion hmark =>
    exact Scanner.lines_run_blockByte (congrArg Region.mode hregion) hmark
  | @literal quote b _ hregion hnewline hbackslash hquote =>
    obtain rfl := hregion
    have hstep : Scanner.step ⟨.literal quote, line, done⟩ b =
        ⟨.literal quote, b :: line, done⟩ := by
      simp only [Scanner.step, Scanner.stepLiteral, if_neg hnewline, if_neg hbackslash,
        if_neg hquote]
      rfl
    exact congrArg (fun s => (Scanner.run s rest).lines) hstep
  | escape hregion hsplice => exact Scanner.lines_run_escape (congrArg Region.mode hregion) hsplice
  | @closeLiteral quote _ hregion hnewline hbackslash =>
    obtain rfl := hregion
    have hstep : Scanner.step ⟨.literal quote, line, done⟩ quote =
        ⟨.code, quote :: line, done⟩ := by
      simp only [Scanner.step, Scanner.stepLiteral, if_neg hnewline, if_neg hbackslash, if_true]
      rfl
    exact congrArg (fun s => (Scanner.run s rest).lines) hstep

theorem Moves.lines_run {c' : Cursor} (h : Moves content c c') :
    (c'.scanner.run (content.drop c'.pos)).lines = (c.scanner.run (content.drop c.pos)).lines := by
  obtain ⟨piece, hdrop, hreads⟩ := h
  rw [hdrop, hreads.lines_run]

theorem mem_lines {line : Bytes} : line ∈ c.lines ↔ line ∈ c.done ∨
    line = if c.region = .blockComment then c.line.reverse ++ [space] else c.line.reverse := by
  obtain ⟨pos, region, line, done⟩ := c
  cases region <;> simp [lines, endLine, push]

theorem lines_scanner (c : Cursor) : c.scanner.lines = c.lines := by
  obtain ⟨pos, region, line, done⟩ := c
  cases region <;> rfl

/-- **The cursor finds the logical lines.** What it finds with the bytes behind its position is
always the same, and at the end it has found all. -/
theorem lines_eq_logicalLines (content : Bytes) : (last content).lines = logicalLines content := by
  have hlast : ((last content).scanner.run (content.drop (last content).pos)).lines =
      logicalLines content :=
    after_induction (P := fun c => (c.scanner.run (content.drop c.pos)).lines =
      logicalLines content) rfl (fun _ _ h ih => h.lines_run.trans ih) content.length
  rw [pos_last, List.drop_length] at hlast
  rw [← lines_scanner]
  exact hlast

end Cursor

end Recompile
