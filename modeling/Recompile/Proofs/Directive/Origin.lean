import Recompile.Proofs.Directive.Copied
import Recompile.Proofs.Directive.Cursor
import Recompile.Proofs.Text.Blank

/-!
# Where the values of directives come from

The scanner works on bytes, and in a literal it copies the byte after a backslash whatever it is,
which may be the first one of several that make a character. No text is broken by that
(`Directives.ofContent_copied`): what a line keeps of the text is all of it but joined line ends and
comments (`Cursor.Kept`), which begin and end with ASCII characters, and a line begins behind a
newline and ends before an ASCII byte (`IsSegment`). So a line has whole characters of the text and
spaces only (`IsText.of_mem_logicalLines`), and decoding it finds no others.

The value of a directive is a piece of its line (`Directive.value_infix`), and so the copy of a
piece of the text. The last line may end with a space that stands for a comment left open, which is
no whole comment; no value reaches that far (`Directive.ofLine?_space`).
-/

namespace Recompile

open Scanner (newline space star solidus backslash)

/-! ## The value in its line -/

namespace Directive

variable {line argument inner : List Char} {opening closing : Char} {d : Directive}

theorem enclosed?_infix (h : enclosed? opening closing argument = some inner) :
    inner <:+: argument := by
  cases argument with
  | nil => cases h
  | cons c rest =>
    simp only [enclosed?] at h
    split_ifs at h
    obtain rfl := Option.some.inj h
    exact (List.takeWhile_prefix _).isInfix.trans (List.suffix_cons c rest).isInfix

theorem classify_infix (argument : List Char) : (classify argument).1 <:+: argument := by
  unfold classify
  split
  · next h => exact enclosed?_infix h
  · split
    · next h => exact enclosed?_infix h
    · exact List.infix_rfl

/-- The value of a directive is a piece of its line. -/
theorem value_infix (h : ofLine? line = some d) : d.value.toList <:+: line := by
  unfold ofLine? at h
  split at h
  · next rest hrest =>
    dsimp only at h
    split at h
    · next keyword _ =>
      obtain rfl := Option.some.inj h
      rw [String.toList_ofList]
      calc (classify (trim ((trimStart rest).dropWhile isWordChar))).1
        _ <:+: trim ((trimStart rest).dropWhile isWordChar) := classify_infix _
        _ <:+: (trimStart rest).dropWhile isWordChar := trim_infix _
        _ <:+: trimStart rest := (List.dropWhile_suffix _).isInfix
        _ <:+: rest := (List.dropWhile_suffix _).isInfix
        _ <:+: '#' :: rest := (List.suffix_cons ..).isInfix
        _ <:+: line := hrest ▸ (List.dropWhile_suffix _).isInfix
    · cases h
  · cases h

theorem takeWhile_space (cs : List Char) :
    (cs ++ [' ']).takeWhile isWordChar = cs.takeWhile isWordChar := by
  induction cs with
  | nil => rfl
  | cons c cs ih => rw [List.cons_append, List.takeWhile_cons, List.takeWhile_cons, ih]

theorem dropWhile_space (cs : List Char) :
    (cs ++ [' ']).dropWhile isWordChar = cs.dropWhile isWordChar ++ [' '] := by
  induction cs with
  | nil => rfl
  | cons c cs ih =>
    rw [List.cons_append, List.dropWhile_cons, List.dropWhile_cons, ih]
    split_ifs <;> rfl

/-- A space behind a line does not count for its directive. -/
theorem ofLine?_space (line : List Char) : ofLine? (line ++ [' ']) = ofLine? line := by
  have hblank : ∀ c ∈ [' '], isBlank c = true := by simp [isBlank]
  have hstart (cs : List Char) : trimStart (cs ++ [' ']) = trimStart cs ∨
      trimStart (cs ++ [' ']) = trimStart cs ++ [' '] := by
    rw [trimStart, List.dropWhile_append]
    split_ifs with hnil
    · exact .inl (List.isEmpty_iff.1 hnil).symm
    · exact .inr rfl
  have hword (cs : List Char) : (trimStart (cs ++ [' '])).takeWhile isWordChar =
      (trimStart cs).takeWhile isWordChar := by
    rcases hstart cs with h | h
    · rw [h]
    · rw [h, takeWhile_space]
  have hargument (cs : List Char) : trim ((trimStart (cs ++ [' '])).dropWhile isWordChar) =
      trim ((trimStart cs).dropWhile isWordChar) := by
    rcases hstart cs with h | h
    · rw [h]
    · rw [h, dropWhile_space, trim_append hblank]
  unfold ofLine?
  rcases hstart line with h | h
  · rw [h]
  · rw [h]
    cases hline : trimStart line with
    | nil => rfl
    | cons c rest =>
      by_cases hc : c = '#'
      · subst hc
        simp only [List.cons_append, hword, hargument]
      · simp [hc]

end Directive

/-! ## Lines of the text -/

/-- The piece begins a line of the content, and behind it the content ends or goes on with an ASCII
byte. -/
def IsSegment (content piece : Bytes) : Prop :=
  ∃ before after, content = before ++ (piece ++ after) ∧ (before = [] ∨ [newline] <:+ before) ∧
    ∀ b ∈ after.head?, b < 0x80

/-- No character is broken up where a segment begins or ends. -/
theorem IsSegment.exists_chars {cs : List Char} {piece : Bytes}
    (h : IsSegment (Utf8.encode cs) piece) : ∃ ds, piece = Utf8.encode ds ∧ ∀ d ∈ ds, d ∈ cs := by
  obtain ⟨before, after, hcontent, hbefore, hafter⟩ := h
  obtain ⟨gs, hgs, hmem⟩ : ∃ gs, piece ++ after = Utf8.encode gs ∧ ∀ d ∈ gs, d ∈ cs := by
    rcases hbefore with rfl | ⟨us, rfl⟩
    · exact ⟨cs, hcontent.symm, fun _ => id⟩
    · rw [List.append_assoc] at hcontent
      obtain ⟨fs, gs, rfl, -, hgs⟩ := Utf8.exists_of_encode_eq_cons (by decide) hcontent
      exact ⟨gs, hgs, fun d hd => List.mem_append_right fs (List.mem_cons_of_mem _ hd)⟩
  cases after with
  | nil => exact ⟨gs, (List.append_nil piece).symm.trans hgs, hmem⟩
  | cons b after =>
    obtain ⟨ds, gs, rfl, hds, -⟩ := Utf8.exists_of_encode_eq_cons (hafter b rfl) hgs.symm
    exact ⟨ds, hds, fun d hd => hmem d (List.mem_append_left _ hd)⟩

/-- The line is the copy of a segment. -/
def CopiedLine (content line : Bytes) : Prop := ∃ piece, IsSegment content piece ∧ Copied piece line

theorem CopiedLine.exists_chars {cs : List Char} {line : Bytes}
    (h : CopiedLine (Utf8.encode cs) line) :
    ∃ ds, line = Utf8.encode ds ∧ ∀ d ∈ ds, d ∈ cs ∨ d = ' ' := by
  obtain ⟨piece, hsegment, hcopied⟩ := h
  obtain ⟨ds, rfl, hds⟩ := hsegment.exists_chars
  obtain ⟨es, rfl, hes⟩ := hcopied.exists_chars
  exact ⟨es, rfl, fun e he => (hes e he).imp_left (hds e)⟩

/-! ## What a cursor has copied -/

theorem Copied.push {raw line : Bytes} (h : Copied raw line.reverse) (b : UInt8) :
    Copied (raw ++ [b]) (b :: line).reverse := by
  rw [List.reverse_cons]
  exact h.append (.single b)

namespace Cursor

variable {content raw rest line : Bytes} {c c' : Cursor}

/-- What the present line keeps of `raw`, the text from where it begins: all of it is copied but for
the comment that the cursor stands in. A block comment has not been closed, not even with the byte
at the position. -/
def Kept (rest : Bytes) : Region → Bytes → Bytes → Prop
  | .code, raw, line => Copied raw line
  | .literal _, raw, line => Copied raw line
  | .lineComment, raw, line => ∃ piece body, raw = piece ++ Scanner.lineComment body ∧
      Copied piece line
  | .blockComment, raw, line => ∃ piece body, raw = piece ++ ([solidus, star] ++ body) ∧
      ¬ [star, solidus] <:+: body ++ rest.take 1 ∧ Copied piece line

theorem Kept.exists_piece {region : Region} (h : Kept rest region raw line) :
    ∃ piece comment, raw = piece ++ comment ∧ (∀ b ∈ comment.head?, b = solidus) ∧
      Copied piece line := by
  cases region with
  | code | literal => exact ⟨raw, [], (List.append_nil raw).symm, nofun, h⟩
  | lineComment =>
    obtain ⟨piece, body, hraw, hcopied⟩ := h
    exact ⟨piece, _, hraw, fun b hb => (Option.some.inj hb).symm, hcopied⟩
  | blockComment =>
    obtain ⟨piece, body, hraw, -, hcopied⟩ := h
    exact ⟨piece, _, hraw, fun b hb => (Option.some.inj hb).symm, hcopied⟩

theorem Kept.copiedLine {region : Region} {before : Bytes} (h : Kept rest region raw line)
    (hcontent : content = before ++ (raw ++ rest)) (hbefore : before = [] ∨ [newline] <:+ before)
    (hrest : ∀ b ∈ rest.head?, b < 0x80) : CopiedLine content line := by
  obtain ⟨piece, comment, rfl, hcomment, hcopied⟩ := h.exists_piece
  refine ⟨piece, ⟨before, comment ++ rest, ?_, hbefore, ?_⟩, hcopied⟩
  · rw [hcontent, List.append_assoc]
  · cases comment with
    | nil => exact hrest
    | cons b comment =>
      obtain rfl := hcomment b rfl
      exact fun b hb => Option.some.inj hb ▸ (by decide)

/-- A byte of a block comment that does not begin the mark that closes it. -/
theorem notInfix_concat {body : Bytes} {b : UInt8}
    (hbody : ¬ [star, solidus] <:+: body ++ [b]) (hmark : ¬ [star, solidus] <+: b :: rest) :
    ¬ [star, solidus] <:+: body ++ [b] ++ rest.take 1 := by
  cases rest with
  | nil => simpa using hbody
  | cons b' rest =>
    intro hinside
    rcases List.infix_concat_iff.1 hinside with ⟨front, hfront⟩ | hinside
    · have hlast := List.append_inj' (hfront.trans (List.append_assoc body [b] [b'])) rfl
      obtain ⟨rfl, hrest⟩ := List.cons.inj hlast.2
      obtain ⟨rfl, -⟩ := List.cons.inj hrest
      exact hmark (List.prefix_append _ rest)
    · exact hbody hinside

/-- A step that does not end the line adds what it goes over to what is kept. -/
theorem Reads.kept {piece : Bytes} (h : Reads c piece rest c')
    (hkept : Kept (piece ++ rest) c.region raw c.line.reverse) :
    (Kept rest c'.region (raw ++ piece) c'.line.reverse ∧ c'.done = c.done) ∨
      (piece = [Scanner.newline] ∧ c' = c.endLine) := by
  obtain ⟨pos, region, line, done⟩ := c
  cases h with
  | newline => exact .inr ⟨rfl, rfl⟩
  | splice hregion hsplice =>
    refine .inl ⟨?_, rfl⟩
    have hcode (h : Copied raw line.reverse) : Copied (raw ++ piece) line.reverse := by
      simpa using h.append (.of_splice hsplice)
    cases region with
    | code | literal => exact hcode hkept
    | lineComment =>
      obtain ⟨front, body, rfl, hcopied⟩ := hkept
      exact ⟨front, body ++ piece, by simp [Scanner.lineComment], hcopied⟩
    | blockComment => exact absurd rfl hregion
  | openLineComment hregion =>
    obtain rfl := hregion
    exact .inl ⟨⟨raw, [], rfl, hkept⟩, rfl⟩
  | openBlockComment hregion =>
    obtain rfl := hregion
    have hone : ¬ [star, solidus] <:+: [] ++ rest.take 1 := fun hinside => by
      have hlength := hinside.length_le.trans (List.length_take_le 1 rest)
      exact absurd hlength (by decide)
    exact .inl ⟨⟨raw, [], rfl, hone, hkept⟩, rfl⟩
  | openLiteral hregion | code hregion | literal hregion | lastBackslash hregion
  | closeLiteral hregion =>
    obtain rfl := hregion
    exact .inl ⟨hkept.push _, rfl⟩
  | @lineComment b _ hregion =>
    obtain rfl := hregion
    obtain ⟨piece, body, rfl, hcopied⟩ := hkept
    exact .inl ⟨⟨piece, body ++ [b], by simp [Scanner.lineComment], hcopied⟩, rfl⟩
  | @blockComment b _ hregion hmark =>
    obtain rfl := hregion
    obtain ⟨piece, body, rfl, hbody, hcopied⟩ := hkept
    exact .inl ⟨⟨piece, body ++ [b], by simp, notInfix_concat hbody hmark, hcopied⟩, rfl⟩
  | closeBlockComment hregion =>
    obtain rfl := hregion
    obtain ⟨piece, body, rfl, hbody, hcopied⟩ := hkept
    have hbody' : ¬ [star, solidus] <:+: body := fun hinside =>
      hbody (hinside.trans (List.prefix_append ..).isInfix)
    have hclosed : Copied (piece ++ Scanner.blockComment body) (space :: line).reverse := by
      rw [List.reverse_cons]
      exact hcopied.append (.of_comment hbody')
    have hraw : piece ++ ([solidus, star] ++ body) ++ [star, solidus] =
        piece ++ Scanner.blockComment body := by simp [Scanner.blockComment]
    exact .inl ⟨hraw ▸ hclosed, rfl⟩
  | @escape quote b _ hregion =>
    obtain rfl := hregion
    have hpair : raw ++ [backslash] ++ [b] = raw ++ [backslash, b] := List.append_assoc ..
    exact .inl ⟨hpair ▸ (hkept.push backslash).push b, rfl⟩

/-- What a cursor has found is copied from the text. -/
structure Origin (content : Bytes) (c : Cursor) : Prop where
  done : ∀ line ∈ c.done, CopiedLine content line
  present : ∃ before raw, content = before ++ (raw ++ content.drop c.pos) ∧
    (before = [] ∨ [newline] <:+ before) ∧
    Kept (content.drop c.pos) c.region raw c.line.reverse

theorem Moves.origin (h : Moves content c c') (horigin : Origin content c) : Origin content c' := by
  obtain ⟨piece, hdrop, hreads⟩ := h
  obtain ⟨hdone, before, raw, hcontent, hbefore, hkept⟩ := horigin
  rw [hdrop] at hkept hcontent
  rcases hreads.kept hkept with ⟨hkept', hdone'⟩ | ⟨rfl, rfl⟩
  · refine ⟨hdone' ▸ hdone, before, raw ++ piece, ?_, hbefore, hkept'⟩
    rw [List.append_assoc, ← hcontent]
  · have hline : CopiedLine content c.line.reverse :=
      hkept.copiedLine hcontent hbefore fun b hb => Option.some.inj hb ▸ (by decide)
    exact ⟨List.forall_mem_cons.2 ⟨hline, hdone⟩, before ++ (raw ++ [newline]), [],
      hcontent.trans (by simp), .inr ⟨before ++ raw, List.append_assoc ..⟩, .nil⟩

theorem origin_after (content : Bytes) (n : Nat) : Origin content (after content n) :=
  after_induction (P := Origin content) ⟨nofun, [], [], rfl, .inl rfl, .nil⟩
    (fun _ _ h horigin => h.origin horigin) n

end Cursor

/-- A logical line is copied from the text, but for the space that stands for an open comment. -/
theorem copiedLine_of_mem {content line : Bytes} (h : line ∈ logicalLines content) :
    CopiedLine content line ∨ ∃ front, line = front ++ [space] ∧ CopiedLine content front := by
  obtain ⟨hdone, before, raw, hcontent, hbefore, hkept⟩ : Cursor.Origin content (.last content) :=
    Cursor.origin_after content content.length
  rw [Cursor.pos_last, List.drop_length] at hcontent hkept
  have hpresent : CopiedLine content (Cursor.last content).line.reverse :=
    hkept.copiedLine hcontent hbefore nofun
  rw [← Cursor.lines_eq_logicalLines, Cursor.mem_lines] at h
  rcases h with h | rfl
  · exact .inl (hdone line h)
  · split_ifs
    · exact .inr ⟨_, rfl, hpresent⟩
    · exact .inl hpresent

/-- The characters of a logical line are those of the text and spaces. -/
theorem exists_chars_of_mem {cs : List Char} {line : Bytes}
    (h : line ∈ logicalLines (Utf8.encode cs)) :
    ∃ ds, line = Utf8.encode ds ∧ ∀ d ∈ ds, d ∈ cs ∨ d = ' ' := by
  rcases copiedLine_of_mem h with hline | ⟨front, rfl, hfront⟩
  · exact hline.exists_chars
  · obtain ⟨ds, rfl, hds⟩ := hfront.exists_chars
    refine ⟨ds ++ [' '], (Utf8.encode_append ds [' ']).symm, fun d hd => ?_⟩
    rcases List.mem_append.1 hd with hd | hd
    · exact hds d hd
    · exact .inr (List.mem_singleton.1 hd)

/-! ## Texts -/

namespace IsText

variable {content line : Bytes}

theorem exists_encode_eq (h : IsText content) : ∃ cs, content = Utf8.encode cs :=
  ⟨Utf8.decode content, (Utf8.encode_decode h.valid).symm⟩

theorem of_encode {cs ds : List Char} (h : IsText (Utf8.encode cs))
    (hds : ∀ d ∈ ds, d ∈ cs ∨ d = ' ') : IsText (Utf8.encode ds) where
  noZero hzero := by
    have hmem : '\x00' ∈ ds := Utf8.mem_of_encode (by decide) hzero
    have hmem' : '\x00' ∈ cs := (hds _ hmem).resolve_right (by decide)
    exact h.noZero (List.mem_flatMap.2 ⟨_, hmem', by decide⟩)
  valid := Utf8.valid_encode ds

/-- A logical line of a text is a text, with characters of that text and spaces. -/
theorem of_mem_logicalLines (h : IsText content) (hline : line ∈ logicalLines content) :
    IsText line ∧ Utf8.encode (Utf8.decode line) = line ∧
      ∀ c ∈ Utf8.decode line, c ∈ Utf8.decode content ∨ c = ' ' := by
  obtain ⟨cs, rfl⟩ := h.exists_encode_eq
  obtain ⟨ds, rfl, hds⟩ := exists_chars_of_mem hline
  rw [Utf8.decode_encode_chars, Utf8.decode_encode_chars]
  exact ⟨h.of_encode hds, rfl, hds⟩

/-- The value of a directive is copied from a piece of the text: the space that stands for a comment
left open is behind every value. -/
theorem exists_copied_value (h : IsText content) (hline : line ∈ logicalLines content)
    {d : Directive} (hd : Directive.ofLine? (Utf8.decode line) = some d) :
    ∃ piece, piece <:+: content ∧ Copied piece (Utf8.ofString d.value) := by
  obtain ⟨cs, rfl⟩ := h.exists_encode_eq
  obtain ⟨ds, ⟨piece, hpiece, hcopied⟩, hvalue⟩ :
      ∃ ds, CopiedLine (Utf8.encode cs) (Utf8.encode ds) ∧ Directive.ofLine? ds = some d := by
    rcases copiedLine_of_mem hline with hline | ⟨front, rfl, hfront⟩
    · obtain ⟨ds, rfl, -⟩ := hline.exists_chars
      rw [Utf8.decode_encode_chars] at hd
      exact ⟨ds, hline, hd⟩
    · obtain ⟨ds, rfl, -⟩ := hfront.exists_chars
      have hdecode : Utf8.decode (Utf8.encode ds ++ [Scanner.space]) = ds ++ [' '] := by
        rw [← Utf8.decode_encode_chars (ds ++ [' ']), Utf8.encode_append]
        rfl
      rw [hdecode, Directive.ofLine?_space] at hd
      exact ⟨ds, hfront, hd⟩
  obtain ⟨before, after, hcontent, -, -⟩ := hpiece
  obtain ⟨front, back, rfl⟩ := Directive.value_infix hvalue
  rw [Utf8.encode_append, Utf8.encode_append, List.append_assoc] at hcopied
  obtain ⟨before', piece', after', rfl, hcopied'⟩ := hcopied.exists_middle
  exact ⟨piece', ⟨before ++ before', after' ++ after, by rw [hcontent]; simp⟩, hcopied'⟩

end IsText

namespace Directives

/-- **Scanning breaks no text.** The lines of a text are found by a cursor that stays in it and goes
over its own bytes only: the zero byte seen behind the end is never one of them. Every line is a
text that decoding and encoding give back, with no character, not even a replacement mark, that is
neither in the content nor a space. The bytes of every value stand in the content, in the same
order, with joined line ends between them left out and each comment turned into one space. -/
theorem ofContent_copied {content : Bytes} (h : IsText content) :
    ((Cursor.last content).lines = logicalLines content ∧
      ∀ n, (Cursor.after content n).pos ≤ content.length ∧
        ((Cursor.after content n).pos < content.length →
          Cursor.Moves content (Cursor.after content n) (Cursor.after content (n + 1)))) ∧
      (∀ line ∈ logicalLines content, IsText line ∧ Utf8.encode (Utf8.decode line) = line ∧
        ∀ c ∈ Utf8.decode line, c ∈ Utf8.decode content ∨ c = ' ') ∧
      ∃ ds, ofContent content = .ok ds ∧
        ∀ d ∈ ds, ∃ piece, piece <:+: content ∧ Copied piece (Utf8.ofString d.value) := by
  refine ⟨⟨Cursor.lines_eq_logicalLines content, fun n => ⟨Cursor.pos_le_length content n, ?_⟩⟩,
    fun line hline => h.of_mem_logicalLines hline, ofText content, h.ofContent_eq, fun d hd => ?_⟩
  · intro hlt
    rw [Cursor.after_succ]
    exact Cursor.moves_step hlt
  · obtain ⟨line, hline, hvalue⟩ := List.mem_filterMap.1 hd
    exact h.exists_copied_value hline hvalue

/-- A literal with a backslash in front of a character of two bytes, a name with a joined line end
and a comment in it, and a literal that the end of the text leaves open behind a backslash. -/
theorem ofContent_copied_backslash :
    let content := Utf8.ofString
      "#include \"a\\é.h\"\n#include <b\\\n/* ü */c.h>\n#import \"d\\"
    ofContent content = .ok [⟨"a\\é.h", .quoted, .includes⟩, ⟨"b c.h", .system, .includes⟩,
        ⟨"\"d\\", .expression, .imports⟩] ∧
      (∀ line ∈ logicalLines content, Utf8.replacement ∉ Utf8.decode line) ∧
      ∃ piece, piece <:+: content ∧ Copied piece (Utf8.ofString "b c.h") := by
  intro content
  obtain ⟨-, hlines, ds, hds, hvalues⟩ := @ofContent_copied content (by decide +kernel)
  have hall : ofContent content = .ok [⟨"a\\é.h", .quoted, .includes⟩,
      ⟨"b c.h", .system, .includes⟩, ⟨"\"d\\", .expression, .imports⟩] := by decide +kernel
  obtain rfl := Except.ok.inj (hds.symm.trans hall)
  have hmark : Utf8.replacement ∉ Utf8.decode content := by decide +kernel
  refine ⟨hall, fun line hline hmem => ?_, ?_⟩
  · rcases (hlines line hline).2.2 _ hmem with hmem | hspace
    · exact hmark hmem
    · exact absurd hspace (by decide)
  · exact hvalues ⟨"b c.h", .system, .includes⟩ (by simp)

end Directives

end Recompile
