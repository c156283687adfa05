import Mathlib.Data.List.Induction
import Recompile.Directive.Reading
import Recompile.Proofs.Text.Utf8

/-!
# Joined line ends

A backslash at the end of a line joins the next line to it. Such a joined line end can stand almost
anywhere: `Directives.ofContent_splice` says that putting one into a text changes none of its
directives, in code, in a comment or in a literal.

The exception is the inside of a comment mark. The scanner holds back a slash or a star only until
the next byte, so a joined line end between the two bytes of a mark releases the first of them
(`Scanner.run_splice`), and the mark is not seen. A comment that is meant to end there takes in what
follows it (`Directives.ofContent_splitMark`).
-/

namespace Recompile

/-- A backslash and a line end, with or without a carriage return. -/
def IsSplice (bs : Bytes) : Prop :=
  bs = [Scanner.backslash, Scanner.newline] ∨
    bs = [Scanner.backslash, Scanner.carriageReturn, Scanner.newline]

namespace Mode

/-- Whether a backslash was just read that may begin a joined line end. -/
def afterBackslash : Mode → Bool
  | codeBackslash | lineBackslash | literalBackslash _ => true
  | _ => false

/-- Whether a backslash and a carriage return were just read. -/
def afterReturn : Mode → Bool
  | codeReturn | lineReturn | literalReturn _ => true
  | _ => false

/-- Whether the byte makes a comment mark of the byte that is held back. -/
def marksWith : Mode → UInt8 → Bool
  | slash, b => b == Scanner.solidus || b == Scanner.star
  | blockStar, b => b == Scanner.solidus
  | _, _ => false

/-- The modes after a backslash are entered by a backslash only, and those after a return by a
return and from one of them only. -/
def Follows (before : Mode) (b : UInt8) (after : Mode) : Prop :=
  (after.afterBackslash = true → b = Scanner.backslash) ∧
    (after.afterReturn = true → b = Scanner.carriageReturn ∧ before.afterBackslash = true)

theorem Follows.of_false {before after : Mode} {b : UInt8} (hbackslash : after.afterBackslash = false)
    (hreturn : after.afterReturn = false) : before.Follows b after :=
  ⟨fun h => absurd h (by simp [hbackslash]), fun h => absurd h (by simp [hreturn])⟩

theorem Follows.of_backslash {before after : Mode} {b : UInt8} (hb : b = Scanner.backslash)
    (hreturn : after.afterReturn = false) : before.Follows b after :=
  ⟨fun _ => hb, fun h => absurd h (by simp [hreturn])⟩

end Mode

namespace Scanner

/-! ## Which bytes lead to a mode -/

variable (s : Scanner) (before : Mode) (b : UInt8)

theorem follows_stepCode : before.Follows b (s.stepCode b).mode := by
  unfold stepCode
  split_ifs with _ hbackslash
  · exact .of_false rfl rfl
  · exact .of_backslash hbackslash rfl
  · exact .of_false rfl rfl
  · exact .of_false rfl rfl
  · exact .of_false rfl rfl

theorem follows_stepLineComment : before.Follows b (s.stepLineComment b).mode := by
  unfold stepLineComment
  split_ifs with _ hbackslash
  · exact .of_false rfl rfl
  · exact .of_backslash hbackslash rfl
  · exact .of_false rfl rfl

theorem follows_stepLiteral (quote : UInt8) :
    before.Follows b (s.stepLiteral quote b).mode := by
  unfold stepLiteral
  split_ifs with _ hbackslash
  · exact .of_false rfl rfl
  · exact .of_backslash hbackslash rfl
  · exact .of_false rfl rfl
  · exact .of_false rfl rfl

theorem follows_step : s.mode.Follows b (s.step b).mode := by
  obtain ⟨mode, line, done⟩ := s
  cases mode with
  | code => exact follows_stepCode ..
  | lineComment => exact follows_stepLineComment ..
  | literal quote => exact follows_stepLiteral ..
  | codeBackslash =>
    simp only [step]
    split_ifs with _ hreturn
    · exact .of_false rfl rfl
    · exact ⟨nofun, fun _ => ⟨hreturn, rfl⟩⟩
    · exact follows_stepCode ..
  | lineBackslash =>
    simp only [step]
    split_ifs with _ hreturn
    · exact .of_false rfl rfl
    · exact ⟨nofun, fun _ => ⟨hreturn, rfl⟩⟩
    · exact follows_stepLineComment ..
  | literalBackslash quote =>
    simp only [step]
    split_ifs with _ hreturn
    · exact .of_false rfl rfl
    · exact ⟨nofun, fun _ => ⟨hreturn, rfl⟩⟩
    · exact .of_false rfl rfl
  | codeReturn =>
    simp only [step]
    split_ifs
    · exact .of_false rfl rfl
    · exact follows_stepCode ..
  | lineReturn =>
    simp only [step]
    split_ifs
    · exact .of_false rfl rfl
    · exact follows_stepLineComment ..
  | literalReturn quote =>
    simp only [step]
    split_ifs
    · exact .of_false rfl rfl
    · exact follows_stepLiteral ..
  | slash =>
    simp only [step]
    split_ifs
    · exact .of_false rfl rfl
    · exact .of_false rfl rfl
    · exact follows_stepCode ..
  | blockComment =>
    simp only [step]
    split_ifs
    · exact .of_false rfl rfl
    · exact .of_false rfl rfl
  | blockStar =>
    simp only [step]
    split_ifs
    · exact .of_false rfl rfl
    · exact .of_false rfl rfl
    · exact .of_false rfl rfl

theorem run_concat (as : Bytes) : s.run (as ++ [b]) = (s.run as).step b :=
  run_append s as [b]

/-- A scanner that holds no backslash back comes to hold one back at a backslash only. -/
theorem suffix_of_run_afterBackslash {s : Scanner} (hs : s.mode.afterBackslash = false) {as : Bytes}
    (h : (s.run as).mode.afterBackslash = true) : [backslash] <:+ as := by
  cases as using List.reverseRecOn with
  | nil => cases hs.symm.trans h
  | append_singleton as b _ =>
    rw [run_concat] at h
    rw [(follows_step _ b).1 h]
    exact List.suffix_append as _

theorem suffix_of_run_afterReturn {s : Scanner} (hs : s.mode.afterBackslash = false)
    (hs' : s.mode.afterReturn = false) {as : Bytes} (h : (s.run as).mode.afterReturn = true) :
    [backslash, carriageReturn] <:+ as := by
  cases as using List.reverseRecOn with
  | nil => cases hs'.symm.trans h
  | append_singleton as b _ =>
    rw [run_concat] at h
    obtain ⟨rfl, hbefore⟩ := (follows_step _ b).2 h
    obtain ⟨front, rfl⟩ := suffix_of_run_afterBackslash hs hbefore
    exact ⟨front, by simp⟩

theorem suffix_of_afterBackslash {as : Bytes} (h : (start.run as).mode.afterBackslash = true) :
    [backslash] <:+ as :=
  suffix_of_run_afterBackslash rfl h

theorem suffix_of_afterReturn {as : Bytes} (h : (start.run as).mode.afterReturn = true) :
    [backslash, carriageReturn] <:+ as :=
  suffix_of_run_afterReturn rfl rfl h

/-! ## A joined line end -/

variable {s} {b} {splice : Bytes} (hsplice : IsSplice splice)
  (hbackslash : s.mode.afterBackslash = false) (hreturn : s.mode.afterReturn = false)

/-- The scanner without the byte of a possible comment mark that it holds back: a slash is a byte of
the line, and a star is one of the comment. -/
def release (s : Scanner) : Scanner :=
  match s.mode with
  | .slash => (s.push solidus).enter .code
  | .blockStar => s.enter .blockComment
  | _ => s

include hsplice hbackslash hreturn in
/-- A joined line end does nothing but release what is held back for a comment mark. -/
theorem run_splice : s.run splice = s.release := by
  obtain ⟨mode, line, done⟩ := s
  cases mode with
  | codeBackslash | lineBackslash | literalBackslash => cases hbackslash
  | codeReturn | lineReturn | literalReturn => cases hreturn
  | code | slash | lineComment | blockComment | blockStar | literal =>
    rcases hsplice with rfl | rfl <;> rfl

theorem stepCode_enter (mode : Mode) : (s.enter mode).stepCode b = s.stepCode b := rfl

/-- Releasing changes nothing when the next byte makes no comment mark. -/
theorem step_release (h : s.mode.marksWith b = false) : s.release.step b = s.step b := by
  obtain ⟨mode, line, done⟩ := s
  cases mode with
  | slash =>
    simp only [Mode.marksWith, Bool.or_eq_false_iff, beq_eq_false_iff_ne] at h
    simp only [release, step, enter, h, if_false]
    exact stepCode_enter .code
  | blockStar =>
    simp only [Mode.marksWith, beq_eq_false_iff_ne] at h
    simp only [release, step, enter, h, if_false]
  | code | codeBackslash | codeReturn | lineComment | lineBackslash | lineReturn | blockComment
  | literal | literalBackslash | literalReturn => rfl

theorem lines_release : s.release.lines = s.lines := by
  obtain ⟨mode, line, done⟩ := s
  cases mode <;> rfl

/-- Two scanners that do the same with the next byte, and at the end, find the same lines. -/
theorem lines_run_congr {s s' : Scanner} {bs : Bytes} (hlines : s.lines = s'.lines)
    (hstep : ∀ b, bs.head? = some b → s.step b = s'.step b) :
    (s.run bs).lines = (s'.run bs).lines := by
  cases bs with
  | nil => exact hlines
  | cons b bs => exact congrArg (fun s => (run s bs).lines) (hstep b rfl)

/-- Releasing changes none of the lines when no comment mark can come of what is held back. -/
theorem lines_run_release {bs : Bytes}
    (hmark : ∀ b, bs.head? = some b → s.mode.marksWith b = false) :
    (s.release.run bs).lines = (s.run bs).lines :=
  lines_run_congr lines_release fun b hb => step_release (hmark b hb)

include hsplice hbackslash hreturn in
/-- The same lines come of a text with a joined line end and without it, unless it parts a comment
mark. -/
theorem lines_run_splice {bs : Bytes}
    (hmark : ∀ b, bs.head? = some b → s.mode.marksWith b = false) :
    (s.run (splice ++ bs)).lines = (s.run bs).lines := by
  rw [run_append, run_splice hsplice hbackslash hreturn]
  exact lines_run_release hmark

/-- The place between two texts parts the two bytes of a comment mark: the first text ends with a
byte that is held back for a mark, and the second begins with the byte that makes one of it. -/
def SplitsMark (as bs : Bytes) : Prop :=
  ∃ b, bs.head? = some b ∧ (start.run as).mode.marksWith b = true

end Scanner

variable {as bs splice : Bytes}

theorem logicalLines_splice (hsplice : IsSplice splice) (hbackslash : ¬ [Scanner.backslash] <:+ as)
    (hreturn : ¬ [Scanner.backslash, Scanner.carriageReturn] <:+ as)
    (hmark : ¬ Scanner.SplitsMark as bs) :
    logicalLines (as ++ splice ++ bs) = logicalLines (as ++ bs) := by
  rw [logicalLines, logicalLines, List.append_assoc, Scanner.run_append,
    Scanner.run_append _ as bs]
  refine Scanner.lines_run_splice hsplice ?_ ?_ fun b hb => ?_
  · exact Bool.eq_false_iff.2 (hbackslash ∘ Scanner.suffix_of_afterBackslash)
  · exact Bool.eq_false_iff.2 (hreturn ∘ Scanner.suffix_of_afterReturn)
  · exact Bool.eq_false_iff.2 fun h => hmark ⟨b, hb, h⟩

/-! ## Directives -/

namespace IsSplice

theorem zero_notMem (h : IsSplice splice) : 0 ∉ splice := by
  rcases h with rfl | rfl <;> decide

theorem valid (h : IsSplice splice) : Utf8.Valid splice := by
  rcases h with rfl | rfl <;> decide

end IsSplice

namespace Directives

theorem ofContent_eq_ok {content : Bytes} (hzero : 0 ∉ content) (hvalid : Utf8.Valid content) :
    ofContent content = .ok (ofText content) := by
  have hfind : content.findIdx? (· == 0) = none := by
    rw [List.findIdx?_eq_none_iff]
    intro b hb
    rw [beq_eq_false_iff_ne]
    rintro rfl
    exact hzero hb
  rw [ofContent, hfind]
  dsimp only
  rw [show Utf8.firstInvalid? content = none from hvalid]

/-- **Joined line ends are invisible outside comment marks.** In a text without zero bytes, a joined
line end between two characters changes none of the directives, wherever the scanner is there,
unless it stands between the two bytes of a comment mark or behind the beginning of another joined
line end. -/
theorem ofContent_splice (hsplice : IsSplice splice) (hzero : 0 ∉ as ++ bs)
    (hvalid : Utf8.Valid (as ++ bs)) (hboundary : Utf8.Valid as)
    (hbackslash : ¬ [Scanner.backslash] <:+ as)
    (hreturn : ¬ [Scanner.backslash, Scanner.carriageReturn] <:+ as)
    (hmark : ¬ Scanner.SplitsMark as bs) :
    ofContent (as ++ splice ++ bs) = ofContent (as ++ bs) := by
  have hrest : Utf8.Valid bs := (Utf8.valid_append_iff hboundary bs).1 hvalid
  have hvalid' : Utf8.Valid (as ++ splice ++ bs) := by
    rw [List.append_assoc, Utf8.valid_append_iff hboundary, Utf8.valid_append_iff hsplice.valid]
    exact hrest
  have hzero' : 0 ∉ as ++ splice ++ bs := by
    simp only [List.mem_append, not_or] at hzero ⊢
    exact ⟨⟨hzero.1, hsplice.zero_notMem⟩, hzero.2⟩
  rw [ofContent_eq_ok hzero' hvalid', ofContent_eq_ok hzero hvalid, ofText, ofText,
    logicalLines_splice hsplice hbackslash hreturn hmark]

theorem ofContent_splice_keyword :
    ofContent (Utf8.ofString "#inc\\\r\nlude \"a.h\"\n") =
      .ok [⟨"a.h", .quoted, .includes⟩] := by
  have hsplice : IsSplice (Utf8.ofString "\\\r\n") := .inr (by decide +kernel)
  have hmark : ¬ Scanner.SplitsMark (Utf8.ofString "#inc") (Utf8.ofString "lude \"a.h\"\n") := by
    rintro ⟨b, _, h⟩
    have hmode : (Scanner.start.run (Utf8.ofString "#inc")).mode = .code := by decide +kernel
    rw [hmode] at h
    cases h
  calc ofContent (Utf8.ofString "#inc\\\r\nlude \"a.h\"\n")
    _ = ofContent (Utf8.ofString "#inc" ++ Utf8.ofString "\\\r\n" ++
          Utf8.ofString "lude \"a.h\"\n") := congrArg ofContent (by decide +kernel)
    _ = ofContent (Utf8.ofString "#inc" ++ Utf8.ofString "lude \"a.h\"\n") :=
        ofContent_splice hsplice (by decide +kernel) (by decide +kernel) (by decide +kernel)
          (by decide +kernel) (by decide +kernel) hmark
    _ = .ok [⟨"a.h", .quoted, .includes⟩] := by decide +kernel

/-- A comment is to end before a line that includes `b.h`. With a joined line end between the star
and the slash it takes that line in. -/
theorem ofContent_splitMark :
    ofContent (Utf8.ofString "/* a *" ++ Utf8.ofString "/\n#include \"b.h\"\n") =
        .ok [⟨"b.h", .quoted, .includes⟩] ∧
      ofContent (Utf8.ofString "/* a *" ++ [Scanner.backslash, Scanner.newline] ++
        Utf8.ofString "/\n#include \"b.h\"\n") = .ok [] := by
  decide +kernel

end Directives

end Recompile
