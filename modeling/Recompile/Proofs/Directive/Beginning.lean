import Recompile.Proofs.Directive.Comments
import Recompile.Proofs.Directive.Lines
import Recompile.Proofs.Text.Ascii
import Recompile.Proofs.Text.Blank

/-!
# The beginning of a text

White space and comments in front of a text change none of its directives: they put lines without a
directive before the first logical line, or blanks in front of it. That holds for any text, as what
is found after them goes on from the present line only (`Scanner.exists_lines_run`).

A byte order mark is neither. It stands for a character that is no blank, so the first logical line
does not begin with a `#` and its directive is not found; the directives below it are
(`Directives.ofContent_gaps`). Only a line end between the mark and the text saves the first one.
-/

namespace Recompile

/-- The bytes that mark a text as UTF-8, in front of it. -/
def byteOrderMark : Bytes := [0xEF, 0xBB, 0xBF]

/-- Tabs, line ends, a form feed and a space. -/
def blankBytes : Bytes := [9, 10, 11, 12, 13, 32]

theorem forall_blankBytes {P : UInt8 → Prop} :
    (∀ b ∈ blankBytes, P b) ↔ P 9 ∧ P 10 ∧ P 11 ∧ P 12 ∧ P 13 ∧ P 32 := by
  simp [blankBytes]

/-- A piece of what a compiler ignores between two lines. -/
inductive Gap where
  | blank (b : UInt8)
  /-- A comment with the text between its two marks. -/
  | comment (body : Bytes)
  deriving DecidableEq, Repr

namespace Gap

def bytes : Gap → Bytes
  | blank b => [b]
  | comment body => Scanner.blockComment body

/-- A comment must not end before its second mark. -/
def Ignorable : Gap → Prop
  | blank b => b ∈ blankBytes
  | comment body => IsText body ∧ ¬ [Scanner.star, Scanner.solidus] <:+: body

instance (g : Gap) : Decidable g.Ignorable :=
  match g with
  | blank _ => inferInstanceAs (Decidable (_ ∈ _))
  | comment _ => inferInstanceAs (Decidable (_ ∧ _))

def endsLine : Gap → Bool
  | blank b => b == Scanner.newline
  | comment _ => false

end Gap

/-- The bytes of all gaps. -/
def gapBytes (gaps : List Gap) : Bytes := gaps.flatMap Gap.bytes

namespace Directives

/-- The directives of some logical lines. -/
def ofLines (lines : List Bytes) : List Directive :=
  lines.filterMap fun line => Directive.ofLine? (Utf8.decode line)

/-- The directive in the first logical line, if it holds one. -/
def first? (content : Bytes) : Option Directive :=
  (logicalLines content).head?.bind fun line => Directive.ofLine? (Utf8.decode line)

/-- The directives below the first logical line. -/
def belowFirst (content : Bytes) : List Directive := ofLines (logicalLines content).tail

end Directives

/-! ## In front of the first line -/

variable {content front : Bytes} {b : UInt8} {g : Gap} {gaps : List Gap}

/-- Bytes that are kept in front of a text stand at the beginning of its first logical line. -/
theorem logicalLines_kept (h : Scanner.start.run front = ⟨.code, front.reverse, []⟩) :
    ∃ first rest, logicalLines content = first :: rest ∧
      logicalLines (front ++ content) = (front ++ first) :: rest := by
  obtain ⟨first, rest, hrun⟩ := Scanner.exists_lines_run .code content
  refine ⟨first, rest, hrun [] [], ?_⟩
  rw [logicalLines, Scanner.run_append, h, hrun, List.reverse_reverse]
  rfl

namespace Directives

theorem ofText_eq (content : Bytes) :
    ofText content = (first? content).toList ++ belowFirst content := by
  obtain ⟨first, rest, h, -⟩ := @logicalLines_kept content [] rfl
  rw [ofText, first?, belowFirst, h, List.filterMap_cons]
  simp only [List.head?_cons, Option.bind_some, List.tail_cons]
  cases Directive.ofLine? (Utf8.decode first) <;> rfl

/-- A blank in front of a line keeps its directive. -/
theorem ofLine?_decode_blank (hb : b ∈ blankBytes) (line : Bytes) :
    Directive.ofLine? (Utf8.decode (b :: line)) = Directive.ofLine? (Utf8.decode line) := by
  have hblank : ∀ b ∈ blankBytes, b < 0x80 ∧ isBlank (Char.ofNat b.toNat) = true :=
    forall_blankBytes.2 (by decide)
  obtain ⟨hascii, hblank⟩ := hblank b hb
  rw [Utf8.decode_cons_ascii hascii, Directive.ofLine?, trimStart_cons_blank hblank]
  rfl

/-- A line that begins with a byte order mark holds no directive. -/
theorem ofLine?_decode_mark (line : Bytes) :
    Directive.ofLine? (Utf8.decode (byteOrderMark ++ line)) = none := by
  have hmark : Utf8.Completes none byteOrderMark '\uFEFF' := Utf8.completes_encode '\uFEFF'
  rw [Utf8.decode_of_completes hmark, Directive.ofLine?, trimStart_cons (by decide)]
  rfl

theorem ofText_blank (hb : b ∈ blankBytes) (hnewline : b ≠ Scanner.newline) :
    ofText ([b] ++ content) = ofText content ∧ belowFirst ([b] ++ content) = belowFirst content := by
  have hkept : ∀ b ∈ blankBytes, b ≠ Scanner.newline →
      Scanner.start.run [b] = ⟨.code, [b], []⟩ := forall_blankBytes.2 (by decide)
  obtain ⟨first, rest, h, hfront⟩ := @logicalLines_kept content [b] (hkept b hb hnewline)
  have hbelow : belowFirst ([b] ++ content) = belowFirst content := by
    rw [belowFirst, belowFirst, h, hfront]
    rfl
  have hfirst : first? ([b] ++ content) = first? content := by
    rw [first?, first?, h, hfront]
    exact ofLine?_decode_blank hb first
  exact ⟨by rw [ofText_eq, hfirst, hbelow, ← ofText_eq], hbelow⟩

theorem ofText_newline_cons : ofText (Scanner.newline :: content) = ofText content ∧
    belowFirst (Scanner.newline :: content) = ofText content := by
  have hempty : Scanner.Closed [] := ⟨by decide, by decide, by decide⟩
  have hlines : logicalLines (Scanner.newline :: content) = [] :: logicalLines content :=
    logicalLines_newline hempty
  constructor
  · rw [ofText, hlines]
    rfl
  · rw [belowFirst, hlines]
    rfl

/-- A gap in front of a text keeps its directives. If it ends a line, all of them are below the
first line then. -/
theorem ofText_gap (hg : g.Ignorable) : ofText (g.bytes ++ content) = ofText content ∧
    belowFirst (g.bytes ++ content) =
      if g.endsLine then ofText content else belowFirst content := by
  cases g with
  | blank b =>
    by_cases hb : b = Scanner.newline
    · subst hb
      exact ofText_newline_cons
    · simp only [Gap.endsLine, beq_eq_false_iff_ne.2 hb]
      exact ofText_blank hg hb
  | comment body =>
    have hlines : logicalLines (Scanner.blockComment body ++ content) =
        logicalLines ([Scanner.space] ++ content) :=
      @logicalLines_blockComment [] content body (by decide) (by decide) hg.2
    have hspace := @ofText_blank content Scanner.space (by decide) (by decide)
    constructor
    · rw [Gap.bytes, ofText, hlines]
      exact hspace.1
    · rw [Gap.bytes, belowFirst, hlines]
      exact hspace.2

theorem ofText_gaps (h : ∀ g ∈ gaps, g.Ignorable) :
    ofText (gapBytes gaps ++ content) = ofText content ∧ belowFirst (gapBytes gaps ++ content) =
      if gaps.any Gap.endsLine then ofText content else belowFirst content := by
  induction gaps with
  | nil => exact ⟨rfl, rfl⟩
  | cons g gaps ih =>
    obtain ⟨hg, hgaps⟩ := List.forall_mem_cons.1 h
    obtain ⟨htext, hbelow⟩ := ih hgaps
    have hbytes : gapBytes (g :: gaps) ++ content = g.bytes ++ (gapBytes gaps ++ content) := by
      rw [gapBytes, List.flatMap_cons, List.append_assoc]
      rfl
    obtain ⟨htext', hbelow'⟩ := @ofText_gap (gapBytes gaps ++ content) g hg
    rw [hbytes, htext', hbelow', htext, hbelow, List.any_cons]
    refine ⟨rfl, ?_⟩
    cases g.endsLine <;> rfl

/-- A byte order mark hides the directive of the first line and no other one. -/
theorem ofText_mark : ofText (byteOrderMark ++ content) = belowFirst content := by
  obtain ⟨first, rest, h, hfront⟩ := @logicalLines_kept content byteOrderMark (by decide)
  rw [ofText, hfront, List.filterMap_cons, ofLine?_decode_mark, belowFirst, h]
  rfl

end Directives

/-! ## Texts with something in front -/

theorem Gap.Ignorable.isText (h : g.Ignorable) : IsText g.bytes := by
  cases g with
  | blank b =>
    have hblank : ∀ b ∈ blankBytes, IsText [b] := forall_blankBytes.2 (by decide)
    exact hblank b h
  | comment body => exact h.1.blockComment

theorem isText_gapBytes (h : ∀ g ∈ gaps, g.Ignorable) : IsText (gapBytes gaps) := by
  induction gaps with
  | nil => decide
  | cons g gaps ih =>
    obtain ⟨hg, hgaps⟩ := List.forall_mem_cons.1 h
    exact hg.isText.append (ih hgaps)

namespace Directives

/-- **What stands in front of a text.** White space and comments in front of a text change none of
its directives. A byte order mark before them hides the directive of the first logical line, unless
a line ends between the mark and the text. -/
theorem ofContent_gaps (hgaps : ∀ g ∈ gaps, g.Ignorable) (hc : IsText content) :
    ofContent content = .ok ((first? content).toList ++ belowFirst content) ∧
      ofContent (gapBytes gaps ++ content) = ofContent content ∧
      ofContent (byteOrderMark ++ gapBytes gaps ++ content) =
        if gaps.any Gap.endsLine then ofContent content else .ok (belowFirst content) := by
  have hmark : IsText byteOrderMark := by decide
  have htext := isText_gapBytes hgaps
  obtain ⟨hkept, hbelow⟩ := @ofText_gaps content gaps hgaps
  refine ⟨?_, ?_, ?_⟩
  · rw [hc.ofContent_eq, ofText_eq]
  · rw [(htext.append hc).ofContent_eq, hkept, hc.ofContent_eq]
  · rw [((hmark.append htext).append hc).ofContent_eq, List.append_assoc, ofText_mark, hbelow,
      hc.ofContent_eq]
    split_ifs <;> rfl

/-- A comment and blanks between a byte order mark and the text, with and without a line end. -/
theorem ofContent_gaps_marked :
    let remark : Gap := .comment (Utf8.ofString "* it's \"free\"\n#include <x.h> *")
    let content := Utf8.ofString "# include \"a.h\"\n#import <b.h>\n"
    ofContent (gapBytes [remark, .blank 9] ++ content) =
        .ok [⟨"a.h", .quoted, .includes⟩, ⟨"b.h", .system, .imports⟩] ∧
      ofContent (byteOrderMark ++ gapBytes [remark, .blank 9] ++ content) =
        .ok [⟨"b.h", .system, .imports⟩] ∧
      ofContent (byteOrderMark ++ gapBytes [remark, .blank 13, .blank 10] ++ content) =
        .ok [⟨"a.h", .quoted, .includes⟩, ⟨"b.h", .system, .imports⟩] := by
  intro remark content
  have hall : ofContent content =
      .ok [⟨"a.h", .quoted, .includes⟩, ⟨"b.h", .system, .imports⟩] := by decide +kernel
  have hbelow : belowFirst content = [⟨"b.h", .system, .imports⟩] := by decide +kernel
  obtain ⟨-, hopen, hhidden⟩ :=
    @ofContent_gaps content [remark, .blank 9] (by decide +kernel) (by decide +kernel)
  obtain ⟨-, -, hended⟩ :=
    @ofContent_gaps content [remark, .blank 13, .blank 10] (by decide +kernel) (by decide +kernel)
  exact ⟨hopen.trans hall, hhidden.trans (congrArg Except.ok hbelow), hended.trans hall⟩

/-- A file that consists of a byte order mark and one directive has none. -/
theorem ofContent_mark :
    let content := Utf8.ofString "#include \"a.h\"\n"
    ofContent (byteOrderMark ++ content) = .ok [] ∧
      ofContent content = .ok [⟨"a.h", .quoted, .includes⟩] := by
  decide +kernel

end Directives

end Recompile
