import Recompile.Proofs.Directive.Splice

/-!
# Comments are transparent

In code a block comment does to the scanner what one space does (`Scanner.run_blockComment`), and a
comment that ends with its line does nothing to the lines (`Scanner.lines_run_lineComment`),
whatever the comments hold: in a comment the scanner waits for the mark that closes it and keeps
neither bytes nor quotes. So putting a comment into a text, or taking it out, changes none of its
directives (`Directives.ofContent_comment`).

A comment begins where the scanner stands in code and holds back no slash
(`Scanner.suffix_of_slash`): after a slash the mark would begin one byte earlier.
-/

namespace Recompile

/-! ## Texts -/

/-- A text that is looked through for directives: no byte of it is zero, and it is UTF-8. -/
structure IsText (content : Bytes) : Prop where
  noZero : 0 ∉ content
  valid : Utf8.Valid content

instance (content : Bytes) : Decidable (IsText content) :=
  decidable_of_iff (0 ∉ content ∧ Utf8.Valid content)
    ⟨fun h => ⟨h.1, h.2⟩, fun h => ⟨h.noZero, h.valid⟩⟩

theorem IsText.append {as bs : Bytes} (ha : IsText as) (hb : IsText bs) : IsText (as ++ bs) where
  noZero := List.not_mem_append ha.noZero hb.noZero
  valid := (Utf8.valid_append_iff ha.valid bs).2 hb.valid

theorem IsText.ofContent_eq {content : Bytes} (h : IsText content) :
    Directives.ofContent content = .ok (Directives.ofText content) :=
  Directives.ofContent_eq_ok h.noZero h.valid

namespace Mode

/-- Whether the scanner stands in code, outside every comment and literal. -/
def inCode : Mode → Bool
  | code | codeBackslash | codeReturn | slash => true
  | _ => false

/-- Whether the scanner stands in a comment that ends with its line. -/
def inLineComment : Mode → Bool
  | lineComment | lineBackslash | lineReturn => true
  | _ => false

end Mode

namespace Scanner

/-- A comment between a slash and a star and a star and a slash. -/
def blockComment (body : Bytes) : Bytes := [solidus, star] ++ body ++ [star, solidus]

/-- A comment that ends with its line. -/
def lineComment (body : Bytes) : Bytes := [solidus, solidus] ++ body

variable {s : Scanner} {b : UInt8}

/-! ## A slash that is held back -/

theorem eq_solidus_of_stepCode (h : (s.stepCode b).mode = .slash) : b = solidus := by
  unfold stepCode at h
  split_ifs at h with _ _ hsolidus
  · cases h
  · cases h
  · exact hsolidus
  · cases h
  · cases h

theorem stepLineComment_ne_slash : (s.stepLineComment b).mode ≠ .slash := by
  unfold stepLineComment
  split_ifs <;> exact nofun

theorem stepLiteral_ne_slash (quote : UInt8) : (s.stepLiteral quote b).mode ≠ .slash := by
  unfold stepLiteral
  split_ifs <;> exact nofun

/-- Only a slash is held back as one. -/
theorem eq_solidus_of_step (h : (s.step b).mode = .slash) : b = solidus := by
  obtain ⟨mode, line, done⟩ := s
  cases mode with
  | code => exact eq_solidus_of_stepCode h
  | lineComment => exact absurd h stepLineComment_ne_slash
  | literal quote => exact absurd h (stepLiteral_ne_slash quote)
  | codeBackslash | codeReturn | slash =>
    simp only [step] at h
    split_ifs at h <;> first | exact eq_solidus_of_stepCode h | cases h
  | lineBackslash | lineReturn =>
    simp only [step] at h
    split_ifs at h <;> first | exact absurd h stepLineComment_ne_slash | cases h
  | blockComment | blockStar | literalBackslash =>
    simp only [step] at h
    split_ifs at h <;> cases h
  | literalReturn quote =>
    simp only [step] at h
    split_ifs at h
    · cases h
    · exact absurd h (stepLiteral_ne_slash quote)

theorem suffix_of_run_slash (hs : s.mode ≠ .slash) {as : Bytes} (h : (s.run as).mode = .slash) :
    [solidus] <:+ as := by
  cases as using List.reverseRecOn with
  | nil => exact absurd h hs
  | append_singleton as b _ =>
    rw [run_concat] at h
    rw [eq_solidus_of_step h]
    exact List.suffix_append as _

theorem suffix_of_slash {as : Bytes} (h : (start.run as).mode = .slash) : [solidus] <:+ as :=
  suffix_of_run_slash (s := start) (by decide) h

/-! ## Block comments -/

/-- Until the mark that closes it, a block comment keeps nothing but a star that may begin the
mark. -/
theorem run_inBlockComment (hmode : s.mode = .blockComment) {body : Bytes}
    (hbody : ¬ [star, solidus] <:+: body) :
    s.run body = s ∨ s.run body = s.enter .blockStar ∧ [star] <:+ body := by
  obtain ⟨mode, line, done⟩ := s
  subst hmode
  induction body using List.reverseRecOn with
  | nil => exact .inl rfl
  | append_singleton body b ih =>
    rw [run_concat]
    rcases ih fun h => hbody (h.trans (List.prefix_append body [b]).isInfix) with h | ⟨h, hstar⟩
    · rw [h]
      by_cases hb : b = star
      · subst hb
        exact .inr ⟨rfl, List.suffix_append body _⟩
      · exact .inl (if_neg hb)
    · rw [h]
      have hsolidus : b ≠ solidus := by
        rintro rfl
        obtain ⟨front, rfl⟩ := hstar
        exact hbody ⟨front, [], by simp⟩
      by_cases hb : b = star
      · subst hb
        exact .inr ⟨rfl, List.suffix_append body _⟩
      · left
        simp only [enter, step, if_neg hsolidus, if_neg hb]

theorem run_closeBlock (hmode : s.mode = .blockComment) {body : Bytes}
    (hbody : ¬ [star, solidus] <:+: body) :
    s.run (body ++ [star, solidus]) = (s.push space).enter .code := by
  rw [run_append]
  rcases run_inBlockComment hmode hbody with h | ⟨h, -⟩
  · rw [h]
    obtain ⟨mode, line, done⟩ := s
    subst hmode
    rfl
  · rw [h]
    rfl

/-- A block comment in code does what a space does. -/
theorem run_blockComment (hcode : s.mode.inCode = true) (hslash : s.mode ≠ .slash) {body : Bytes}
    (hbody : ¬ [star, solidus] <:+: body) : s.run (blockComment body) = s.run [space] := by
  have hopen : (s.run [solidus, star]).mode = .blockComment ∧
      ((s.run [solidus, star]).push space).enter .code = s.run [space] := by
    obtain ⟨mode, line, done⟩ := s
    cases mode with
    | code | codeBackslash | codeReturn => exact ⟨rfl, rfl⟩
    | slash => exact absurd rfl hslash
    | lineComment | lineBackslash | lineReturn | blockComment | blockStar | literal
    | literalBackslash | literalReturn => cases hcode
  rw [blockComment, List.append_assoc, run_append, run_closeBlock hopen.1 hbody, hopen.2]

/-! ## Comments that end with their line -/

theorem exists_stepLineComment_eq (hb : b ≠ newline) :
    ∃ mode : Mode, mode.inLineComment = true ∧ s.stepLineComment b = s.enter mode := by
  unfold stepLineComment
  rw [if_neg hb]
  split_ifs
  · exact ⟨.lineBackslash, rfl, rfl⟩
  · exact ⟨.lineComment, rfl, rfl⟩

/-- Nothing but a newline leads out of a comment that ends with its line. -/
theorem exists_step_eq (hmode : s.mode.inLineComment = true) (hb : b ≠ newline) :
    ∃ mode : Mode, mode.inLineComment = true ∧ s.step b = s.enter mode := by
  obtain ⟨mode, line, done⟩ := s
  cases mode with
  | lineComment => exact exists_stepLineComment_eq hb
  | lineBackslash =>
    simp only [step, if_neg hb]
    split_ifs
    · exact ⟨.lineReturn, rfl, rfl⟩
    · exact exists_stepLineComment_eq hb
  | lineReturn =>
    simp only [step, if_neg hb]
    exact exists_stepLineComment_eq hb
  | code | codeBackslash | codeReturn | slash | blockComment | blockStar | literal
  | literalBackslash | literalReturn => cases hmode

theorem exists_run_eq (hmode : s.mode.inLineComment = true) {body : Bytes}
    (hbody : newline ∉ body) :
    ∃ mode : Mode, mode.inLineComment = true ∧ s.run body = s.enter mode := by
  induction body using List.reverseRecOn with
  | nil => exact ⟨s.mode, hmode, rfl⟩
  | append_singleton body b ih =>
    obtain ⟨mode, hin, h⟩ := ih fun hmem => hbody (List.mem_append_left _ hmem)
    have hb : b ≠ newline := fun heq => hbody (heq ▸ List.mem_append_right _ List.mem_cons_self)
    obtain ⟨mode', hin', h'⟩ := exists_step_eq (s := s.enter mode) hin hb
    refine ⟨mode', hin', ?_⟩
    rw [run_concat, h, h']
    rfl

/-- The same lines come of code and of code with such a comment at the end of a line. -/
theorem lines_run_lineComment (hmode : s.mode = .code) {body bs : Bytes} (hbody : newline ∉ body)
    (hbackslash : ¬ [backslash] <:+ body) (hreturn : ¬ [backslash, carriageReturn] <:+ body)
    (hbs : bs = [] ∨ bs.head? = some newline) :
    (s.run (lineComment body ++ bs)).lines = (s.run bs).lines := by
  obtain ⟨mode, line, done⟩ := s
  subst hmode
  let t : Scanner := ⟨.lineComment, line, done⟩
  obtain ⟨mode, hin, h⟩ := t.exists_run_eq rfl hbody
  have hheld : (t.run body).mode.afterBackslash = false :=
    Bool.eq_false_iff.2 (hbackslash ∘ suffix_of_run_afterBackslash rfl)
  have hheld' : (t.run body).mode.afterReturn = false :=
    Bool.eq_false_iff.2 (hreturn ∘ suffix_of_run_afterReturn rfl rfl)
  have hopen : run ⟨.code, line, done⟩ (lineComment body ++ bs) = (t.run body).run bs := by
    rw [lineComment, run_append, run_append]
    rfl
  rw [h] at hheld hheld' hopen
  rw [hopen]
  cases mode with
  | lineBackslash => cases hheld
  | lineReturn => cases hheld'
  | lineComment =>
    -- Neither the end of the text nor a newline asks whether a comment came before.
    cases bs with
    | nil => rfl
    | cons b bs =>
      obtain rfl : b = newline := by simpa using hbs
      rfl
  | code | codeBackslash | codeReturn | slash | blockComment | blockStar | literal
  | literalBackslash | literalReturn => cases hin

end Scanner

/-! ## Lines -/

section Lines

variable {as bs body : Bytes}

/-- Code that holds nothing back. -/
theorem Scanner.mode_eq_code (hcode : (Scanner.start.run as).mode.inCode = true)
    (hslash : ¬ [Scanner.solidus] <:+ as) (hbackslash : ¬ [Scanner.backslash] <:+ as)
    (hreturn : ¬ [Scanner.backslash, Scanner.carriageReturn] <:+ as) :
    (Scanner.start.run as).mode = .code := by
  have hslash := hslash ∘ Scanner.suffix_of_slash
  have hbackslash := hbackslash ∘ Scanner.suffix_of_afterBackslash
  have hreturn := hreturn ∘ Scanner.suffix_of_afterReturn
  revert hcode hslash hbackslash hreturn
  cases (Scanner.start.run as).mode with
  | code => exact fun _ _ _ _ => rfl
  | slash => exact fun _ h _ _ => absurd rfl h
  | codeBackslash => exact fun _ _ h _ => absurd rfl h
  | codeReturn => exact fun _ _ _ h => absurd rfl h
  | lineComment | lineBackslash | lineReturn | blockComment | blockStar | literal
  | literalBackslash | literalReturn => exact fun h => nomatch h

theorem logicalLines_blockComment (hcode : (Scanner.start.run as).mode.inCode = true)
    (hslash : ¬ [Scanner.solidus] <:+ as) (hbody : ¬ [Scanner.star, Scanner.solidus] <:+: body) :
    logicalLines (as ++ Scanner.blockComment body ++ bs) =
      logicalLines (as ++ [Scanner.space] ++ bs) := by
  have hcomment := Scanner.run_blockComment hcode (hslash ∘ Scanner.suffix_of_slash) hbody
  rw [logicalLines, logicalLines, Scanner.run_append, Scanner.run_append, hcomment,
    Scanner.run_append, Scanner.run_append]

theorem logicalLines_lineComment (hmode : (Scanner.start.run as).mode = .code)
    (hbody : Scanner.newline ∉ body) (hbackslash : ¬ [Scanner.backslash] <:+ body)
    (hreturn : ¬ [Scanner.backslash, Scanner.carriageReturn] <:+ body)
    (hbs : bs = [] ∨ bs.head? = some Scanner.newline) :
    logicalLines (as ++ Scanner.lineComment body ++ bs) = logicalLines (as ++ bs) := by
  rw [logicalLines, logicalLines, List.append_assoc, Scanner.run_append, Scanner.run_append _ as bs]
  exact Scanner.lines_run_lineComment hmode hbody hbackslash hreturn hbs

end Lines

/-! ## Directives -/

namespace IsText

variable {as bs : Bytes}

theorem space : IsText [Scanner.space] := by decide

theorem blockComment (h : IsText bs) : IsText (Scanner.blockComment bs) := by
  have hopen : IsText [Scanner.solidus, Scanner.star] := by decide
  have hclose : IsText [Scanner.star, Scanner.solidus] := by decide
  exact (hopen.append h).append hclose

theorem lineComment (h : IsText bs) : IsText (Scanner.lineComment bs) := by
  have hopen : IsText [Scanner.solidus, Scanner.solidus] := by decide
  exact hopen.append h

end IsText

namespace Directives

/-- **Comments are transparent.** Where a text leaves the scanner in code and does not end in a
slash, a block comment after it counts as a space, wherever that is in a directive and whatever the
comment holds. If no line end can be joined there either, a comment up to the end of the line counts
as nothing. -/
theorem ofContent_comment {as : Bytes} (has : IsText as)
    (hcode : (Scanner.start.run as).mode.inCode = true) (hslash : ¬ [Scanner.solidus] <:+ as) :
    (∀ body bs, IsText body → IsText bs → ¬ [Scanner.star, Scanner.solidus] <:+: body →
      ∃ ds, ofContent (as ++ Scanner.blockComment body ++ bs) = .ok ds ∧
        ofContent (as ++ [Scanner.space] ++ bs) = .ok ds) ∧
    (¬ [Scanner.backslash] <:+ as → ¬ [Scanner.backslash, Scanner.carriageReturn] <:+ as →
      ∀ body bs, IsText body → IsText bs → Scanner.newline ∉ body →
        ¬ [Scanner.backslash] <:+ body → ¬ [Scanner.backslash, Scanner.carriageReturn] <:+ body →
        bs = [] ∨ bs.head? = some Scanner.newline →
        ∃ ds, ofContent (as ++ Scanner.lineComment body ++ bs) = .ok ds ∧
          ofContent (as ++ bs) = .ok ds) := by
  refine ⟨fun body bs hbody hbs hmark => ?_,
    fun hbackslash hreturn body bs hbody hbs hnewline hbackslash' hreturn' hend => ?_⟩
  · refine ⟨ofText (as ++ [Scanner.space] ++ bs), ?_, ((has.append .space).append hbs).ofContent_eq⟩
    rw [((has.append hbody.blockComment).append hbs).ofContent_eq, ofText, ofText,
      logicalLines_blockComment hcode hslash hmark]
  · refine ⟨ofText (as ++ bs), ?_, (has.append hbs).ofContent_eq⟩
    have hmode := Scanner.mode_eq_code hcode hslash hbackslash hreturn
    rw [((has.append hbody.lineComment).append hbs).ofContent_eq, ofText, ofText,
      logicalLines_lineComment hmode hnewline hbackslash' hreturn' hend]

/-- A comment in the middle of a directive, which holds a directive of its own, a quote, and the
marks of other comments; and a comment behind a directive. -/
theorem ofContent_comment_inDirective :
    let before : Bytes := Utf8.ofString "#import"
    let body : Bytes := Utf8.ofString "\n#include \"b.h\" // ' /* \\\n**"
    let after : Bytes := Utf8.ofString "<a.h>"
    let trailing : Bytes := Utf8.ofString " it's /* \""
    let rest : Bytes := Utf8.ofString "\n#include \"c.h\"\n"
    ofContent (before ++ Scanner.blockComment body ++ after) = .ok [⟨"a.h", .system, .imports⟩] ∧
      ofContent (before ++ after ++ Scanner.lineComment trailing ++ rest) =
        .ok [⟨"a.h", .system, .imports⟩, ⟨"c.h", .quoted, .includes⟩] := by
  intro before body after trailing rest
  have hspace : ofContent (before ++ [Scanner.space] ++ after) =
      .ok [⟨"a.h", .system, .imports⟩] := by decide +kernel
  have hnothing : ofContent (before ++ after ++ rest) =
      .ok [⟨"a.h", .system, .imports⟩, ⟨"c.h", .quoted, .includes⟩] := by decide +kernel
  obtain ⟨ds, hds, hds'⟩ := (@ofContent_comment before (by decide +kernel) (by decide +kernel)
    (by decide +kernel)).1 body after (by decide +kernel) (by decide +kernel) (by decide +kernel)
  obtain ⟨es, hes, hes'⟩ := (@ofContent_comment (before ++ after) (by decide +kernel)
    (by decide +kernel) (by decide +kernel)).2 (by decide +kernel) (by decide +kernel) trailing rest
    (by decide +kernel) (by decide +kernel) (by decide +kernel) (by decide +kernel)
    (by decide +kernel) (.inr (by decide +kernel))
  exact ⟨hds.trans (hds'.symm.trans hspace), hes.trans (hes'.symm.trans hnothing)⟩

end Directives

end Recompile
