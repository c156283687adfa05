import Recompile.Proofs.Directive.Comments
import Recompile.Proofs.Directive.Lines
import Recompile.Proofs.Text.Ascii
import Recompile.Proofs.Text.Blank

/-!
# Directives are read back from their texts

The text of a directive stands for the directive when its value can be told from the rest of the
line (`Directive.Printable`): a name in quotes or brackets must not hold what closes it, and an
expression must not look like a name. Then the lines of some directives are read back as these
directives, in order, with either kind of line end (`Directives.read_print`).

The scanner copies such a line byte by byte (`Scanner.Holds`), although quotes inside it may begin
literals and a backslash may keep the closing quote from closing one: a line is copied whole when no
comment begins in it, and a literal that is still open at its end is given up there
(`Directive.closed_lineBytes`). What is left to see is that the argument is classified as it was
written (`Directive.ofLine?_text`).
-/

namespace Recompile

/-! ## Directives that can be printed -/

/-- No comment begins in the text, if it begins in code. -/
def Unmarked (cs : List Char) : Prop := ¬ ['/', '/'] <:+: cs ∧ ¬ ['/', '*'] <:+: cs

instance (cs : List Char) : Decidable (Unmarked cs) := inferInstanceAs (Decidable (_ ∧ _))

/-- The text begins with a name between two marks. -/
def BeginsWithName (opening closing : Char) (cs : List Char) : Prop :=
  ∃ name rest, name ≠ [] ∧ closing ∉ name ∧ cs = opening :: (name ++ closing :: rest)

/-- The values that a line with a directive of this form can hold. -/
def Form.Admits : Form → List Char → Prop
  | quoted, cs => cs ≠ [] ∧ '"' ∉ cs
  | system, cs => cs ≠ [] ∧ '>' ∉ cs ∧ Unmarked cs
  | expression, cs => trim cs = cs ∧ Unmarked cs ∧ ¬ ['\\'] <:+ cs ∧
      ¬ BeginsWithName '"' '"' cs ∧ ¬ BeginsWithName '<' '>' cs

/-- The text of the directive, on a line of its own, stands for the directive. -/
structure Directive.Printable (d : Directive) : Prop where
  noZero : '\x00' ∉ d.value.toList
  noNewline : '\n' ∉ d.value.toList
  admits : d.form.Admits d.value.toList

/-! ## Arguments -/

namespace Directive

variable {opening closing : Char} {cs name rest : List Char}

theorem takeWhile_ne_append (h : closing ∉ name) :
    (name ++ closing :: rest).takeWhile (· != closing) = name := by
  rw [List.takeWhile_append_of_pos fun c hc => by
      simpa using fun heq : c = closing => h (heq ▸ hc),
    List.takeWhile_cons_of_neg (by simp), List.append_nil]

theorem enclosed?_eq_some (hne : name ≠ []) (h : closing ∉ name) :
    enclosed? opening closing (opening :: (name ++ closing :: rest)) = some name := by
  have hmem : closing ∈ name ++ closing :: rest := List.mem_append_right name List.mem_cons_self
  rw [enclosed?, if_pos ⟨rfl, hmem⟩, takeWhile_ne_append h]
  exact if_neg hne

theorem enclosed?_eq_none (h : ¬ BeginsWithName opening closing cs) :
    enclosed? opening closing cs = none := by
  cases cs with
  | nil => rfl
  | cons c cs =>
    rw [enclosed?]
    split_ifs with hmark
    · obtain ⟨rfl, hmem⟩ := hmark
      obtain ⟨name, rest, rfl, hname⟩ := List.eq_append_cons_of_mem hmem
      simp only [takeWhile_ne_append hname, ite_eq_left_iff]
      exact fun hne => absurd ⟨name, rest, hne, hname, rfl⟩ h
    · rfl

theorem isSome_enclosed? :
    (enclosed? opening closing cs).isSome ↔ BeginsWithName opening closing cs := by
  refine ⟨fun h => by_contra fun hnot => ?_, ?_⟩
  · rw [enclosed?_eq_none hnot] at h
    cases h
  · rintro ⟨name, rest, hne, hname, rfl⟩
    rw [enclosed?_eq_some hne hname]
    rfl

instance : Decidable (BeginsWithName opening closing cs) :=
  decidable_of_iff ((enclosed? opening closing cs).isSome) isSome_enclosed?

instance (form : Form) (cs : List Char) : Decidable (form.Admits cs) :=
  match form with
  | .quoted => inferInstanceAs (Decidable (_ ∧ _))
  | .system => inferInstanceAs (Decidable (_ ∧ _ ∧ _))
  | .expression => inferInstanceAs (Decidable (_ ∧ _ ∧ _ ∧ _ ∧ _))

instance (d : Directive) : Decidable d.Printable :=
  decidable_of_iff ('\x00' ∉ d.value.toList ∧ '\n' ∉ d.value.toList ∧ d.form.Admits d.value.toList)
    ⟨fun h => ⟨h.1, h.2.1, h.2.2⟩, fun h => ⟨h.noZero, h.noNewline, h.admits⟩⟩

theorem toList_argument (d : Directive) : d.argument.toList = match d.form with
    | .quoted => '"' :: (d.value.toList ++ ['"'])
    | .system => '<' :: (d.value.toList ++ ['>'])
    | .expression => d.value.toList := by
  unfold argument
  cases d.form with
  | quoted | system => simp only [String.toList_append, List.append_assoc]; rfl
  | expression => rfl

/-- The argument of a directive is classified as it was written. -/
theorem classify_argument {d : Directive} (h : d.form.Admits d.value.toList) :
    classify d.argument.toList = (d.value.toList, d.form) := by
  rw [toList_argument]
  cases hform : d.form with
  | quoted =>
    rw [hform] at h
    obtain ⟨hne, hquote⟩ := h
    simp only [classify, enclosed?_eq_some hne hquote]
  | system =>
    rw [hform] at h
    obtain ⟨hne, hbracket, -⟩ := h
    have hnone : enclosed? '"' '"' ('<' :: (d.value.toList ++ ['>'])) = none := rfl
    simp only [classify, hnone, enclosed?_eq_some hne hbracket]
  | expression =>
    rw [hform] at h
    obtain ⟨-, -, -, hquoted, hsystem⟩ := h
    simp only [classify, enclosed?_eq_none hquoted, enclosed?_eq_none hsystem]

/-! ## Lines of characters -/

/-- An argument has no blanks around it. -/
theorem trim_argument {d : Directive} (h : d.form.Admits d.value.toList) :
    trim d.argument.toList = d.argument.toList := by
  rw [toList_argument]
  cases hform : d.form with
  | quoted | system =>
    dsimp only
    rw [trim, trimStart_cons (by decide), ← List.cons_append, trimEnd_concat (by decide)]
  | expression =>
    rw [hform] at h
    exact h.1

theorem toList_text (d : Directive) :
    d.text.toList = '#' :: (d.keyword.text.toList ++ ' ' :: d.argument.toList) := by
  simp only [text, String.toList_append, List.append_assoc]
  rfl

theorem keyword?_text (k : Keyword) : keyword? k.text.toList = some k := by
  cases k <;> decide

/-- The line of a directive is that directive, whatever blanks come behind it. -/
theorem ofLine?_text {d : Directive} (h : d.form.Admits d.value.toList) {blanks : List Char}
    (hblanks : ∀ c ∈ blanks, isBlank c = true) : ofLine? (d.text.toList ++ blanks) = some d := by
  have hword : ∀ c ∈ d.keyword.text.toList, isWordChar c = true :=
    List.all_eq_true.1 (by cases d.keyword <;> decide)
  have hfirst : trimStart (d.keyword.text.toList ++ ' ' :: (d.argument.toList ++ blanks)) =
      d.keyword.text.toList ++ ' ' :: (d.argument.toList ++ blanks) := by
    cases d.keyword <;> exact trimStart_cons (by decide) _
  have htake : (d.keyword.text.toList ++ ' ' :: (d.argument.toList ++ blanks)).takeWhile isWordChar =
      d.keyword.text.toList := by
    rw [List.takeWhile_append_of_pos hword, List.takeWhile_cons_of_neg (by decide), List.append_nil]
  have hdrop : (d.keyword.text.toList ++ ' ' :: (d.argument.toList ++ blanks)).dropWhile isWordChar =
      ' ' :: (d.argument.toList ++ blanks) := by
    rw [List.dropWhile_append_of_pos hword, List.dropWhile_cons_of_neg (by decide)]
  have hargument : trim (' ' :: (d.argument.toList ++ blanks)) = d.argument.toList :=
    (trim_append hblanks (' ' :: d.argument.toList)).trans (trim_argument h)
  have hline : d.text.toList ++ blanks =
      '#' :: (d.keyword.text.toList ++ ' ' :: (d.argument.toList ++ blanks)) := by
    rw [toList_text]
    simp
  rw [hline, ofLine?, trimStart_cons (by decide)]
  simp only [hfirst, htake, hdrop, hargument, keyword?_text, classify_argument h]
  rw [String.ofList_toList]

end Directive

/-! ## Lines of bytes -/

namespace Mode

/-- Whether the scanner stands in a comment. -/
def inComment (m : Mode) : Bool := m.inLineComment || m.inBlockComment

/-- Whether the scanner stands in a literal that the given quote closes. -/
def inLiteral (quote : UInt8) : Mode → Bool
  | literal q | literalBackslash q | literalReturn q => q == quote
  | _ => false

/-- Outside a comment only a slash makes a mark with what follows. -/
theorem marksWith_eq_false {m : Mode} {b : UInt8} (hcomment : m.inComment = false)
    (hslash : m = .slash → b ≠ Scanner.solidus ∧ b ≠ Scanner.star) : m.marksWith b = false := by
  cases m with
  | slash =>
    obtain ⟨hsolidus, hstar⟩ := hslash rfl
    simp [marksWith, hsolidus, hstar]
  | blockStar => cases hcomment
  | code | codeBackslash | codeReturn | lineComment | lineBackslash | lineReturn | blockComment
  | literal | literalBackslash | literalReturn => rfl

theorem ne_slash_of_inLiteral {m : Mode} {quote : UInt8} (h : m.inLiteral quote = true) :
    m ≠ .slash := by
  rintro rfl
  cases h

end Mode

namespace Scanner

variable {s : Scanner} {as bs : Bytes} {b quote : UInt8}

theorem copies_stepCode (hb : b ≠ newline) :
    (s.stepCode b).mode.inComment = false ∧ (s.stepCode b).finish.line = b :: s.line := by
  unfold stepCode
  rw [if_neg hb]
  split_ifs with hbackslash hsolidus
  · exact ⟨rfl, by rw [hbackslash]; rfl⟩
  · exact ⟨rfl, by rw [hsolidus]; rfl⟩
  · exact ⟨rfl, rfl⟩
  · exact ⟨rfl, rfl⟩

theorem copies_stepLiteral (hb : b ≠ newline) :
    (s.stepLiteral quote b).mode.inComment = false ∧
      (s.stepLiteral quote b).finish.line = b :: s.line := by
  unfold stepLiteral
  rw [if_neg hb]
  split_ifs with hbackslash
  · exact ⟨rfl, by rw [hbackslash]; rfl⟩
  · exact ⟨rfl, rfl⟩
  · exact ⟨rfl, rfl⟩

/-- Outside comments a byte that ends no line and makes no comment mark is copied, at once or when
what is held back is released. -/
theorem copies_step (hcomment : s.mode.inComment = false) (hb : b ≠ newline)
    (hmark : s.mode.marksWith b = false) :
    (s.step b).mode.inComment = false ∧ (s.step b).finish.line = b :: s.finish.line := by
  obtain ⟨mode, line, done⟩ := s
  cases mode with
  | code => exact copies_stepCode hb
  | literal quote => exact copies_stepLiteral hb
  | codeBackslash =>
    simp only [step, if_neg hb]
    split_ifs with hreturn
    · exact ⟨rfl, by rw [hreturn]; rfl⟩
    · exact copies_stepCode hb
  | codeReturn =>
    simp only [step, if_neg hb]
    exact copies_stepCode hb
  | slash =>
    simp only [Mode.marksWith, Bool.or_eq_false_iff, beq_eq_false_iff_ne] at hmark
    simp only [step, if_neg hmark.1, if_neg hmark.2]
    exact copies_stepCode hb
  | literalBackslash quote =>
    simp only [step, if_neg hb]
    split_ifs with hreturn
    · exact ⟨rfl, by rw [hreturn]; rfl⟩
    · exact ⟨rfl, rfl⟩
  | literalReturn quote =>
    simp only [step, if_neg hb]
    exact copies_stepLiteral hb
  | lineComment | lineBackslash | lineReturn | blockComment | blockStar => cases hcomment

/-- In a literal nothing but its quote or a newline leads out of it. -/
theorem inLiteral_step (hmode : s.mode.inLiteral quote = true) (hb : b ≠ newline)
    (hquote : b ≠ quote) : (s.step b).mode.inLiteral quote = true := by
  have hplain : ∀ t : Scanner, (t.stepLiteral quote b).mode.inLiteral quote = true := by
    intro t
    unfold stepLiteral
    rw [if_neg hb]
    split_ifs
    · exact beq_self_eq_true quote
    · exact beq_self_eq_true quote
  obtain ⟨mode, line, done⟩ := s
  cases mode with
  | literal q =>
    obtain rfl : q = quote := by simpa [Mode.inLiteral] using hmode
    exact hplain _
  | literalBackslash q =>
    obtain rfl : q = quote := by simpa [Mode.inLiteral] using hmode
    simp only [step, if_neg hb]
    split_ifs <;> exact beq_self_eq_true q
  | literalReturn q =>
    obtain rfl : q = quote := by simpa [Mode.inLiteral] using hmode
    simp only [step, if_neg hb]
    exact hplain _
  | code | codeBackslash | codeReturn | slash | lineComment | lineBackslash | lineReturn
  | blockComment | blockStar => cases hmode

/-- The scanner is outside comments, and with what is held back its present line is `as`. -/
structure Holds (s : Scanner) (as : Bytes) : Prop where
  outside : s.mode.inComment = false
  line : s.finish.line = as.reverse

namespace Holds

theorem start : Scanner.start.Holds [] := ⟨rfl, rfl⟩

theorem step (h : s.Holds as) (hb : b ≠ newline) (hmark : s.mode.marksWith b = false) :
    (s.step b).Holds (as ++ [b]) := by
  obtain ⟨hcomment, hline⟩ := copies_step h.outside hb hmark
  refine ⟨hcomment, ?_⟩
  rw [hline, h.line, List.reverse_append]
  rfl

/-- A piece of a line without comment marks is copied. -/
theorem run (h : s.Holds as) (hs : s.mode ≠ .slash) (hnewline : newline ∉ bs)
    (hline : ¬ [solidus, solidus] <:+: bs) (hblock : ¬ [solidus, star] <:+: bs) :
    (s.run bs).Holds (as ++ bs) := by
  induction bs using List.reverseRecOn with
  | nil => rwa [List.append_nil]
  | append_singleton bs b ih =>
    have hinfix : ∀ {cs}, cs <:+: bs → cs <:+: bs ++ [b] := fun h =>
      h.trans (List.prefix_append bs [b]).isInfix
    have hbs := ih (fun hmem => hnewline (List.mem_append_left _ hmem)) (hline ∘ hinfix)
      (hblock ∘ hinfix)
    have hb : b ≠ newline := fun heq => hnewline (heq ▸ List.mem_append_right _ List.mem_cons_self)
    rw [run_concat, ← List.append_assoc]
    refine hbs.step hb (Mode.marksWith_eq_false hbs.outside fun hslash => ?_)
    obtain ⟨front, rfl⟩ := suffix_of_run_slash hs hslash
    constructor
    · rintro rfl
      exact hline ⟨front, [], by simp⟩
    · rintro rfl
      exact hblock ⟨front, [], by simp⟩

/-- A piece of a literal is copied, with any comment marks in it. -/
theorem run_literal (h : s.Holds as) (hs : s.mode.inLiteral quote = true) (hnewline : newline ∉ bs)
    (hquote : quote ∉ bs) :
    (s.run bs).Holds (as ++ bs) ∧ (s.run bs).mode.inLiteral quote = true := by
  induction bs using List.reverseRecOn with
  | nil => exact ⟨by rwa [List.append_nil], hs⟩
  | append_singleton bs b ih =>
    obtain ⟨hbs, hmode⟩ := ih (fun hmem => hnewline (List.mem_append_left _ hmem))
      fun hmem => hquote (List.mem_append_left _ hmem)
    have hb : b ≠ newline := fun heq => hnewline (heq ▸ List.mem_append_right _ List.mem_cons_self)
    have hb' : b ≠ quote := fun heq => hquote (heq ▸ List.mem_append_right _ List.mem_cons_self)
    rw [run_concat, ← List.append_assoc]
    have hmark := Mode.marksWith_eq_false (b := b) hbs.outside
      fun hslash => absurd hslash (Mode.ne_slash_of_inLiteral hmode)
    exact ⟨hbs.step hb hmark, inLiteral_step hmode hb hb'⟩

/-- A byte that is no newline and part of no comment mark is copied. -/
theorem step_plain (h : s.Holds as) (hb : b ≠ newline) (hsolidus : b ≠ solidus) (hstar : b ≠ star) :
    (s.step b).Holds (as ++ [b]) :=
  h.step hb (Mode.marksWith_eq_false h.outside fun _ => ⟨hsolidus, hstar⟩)

theorem of_enclosed {opening closing : UInt8}
    (h : (((s.step opening).run bs).step closing).Holds (as ++ [opening] ++ bs ++ [closing])) :
    (s.run (opening :: bs ++ [closing])).Holds (as ++ (opening :: bs ++ [closing])) := by
  have hrun : s.run (opening :: bs) = (s.step opening).run bs := rfl
  rw [run_concat, hrun]
  simpa using h

/-- A text that is copied without a newline in it is a single line. -/
theorem logicalLines_eq {line : Bytes} (h : (Scanner.start.run line).Holds line)
    (hnewline : newline ∉ line) : logicalLines line = [line] := by
  rw [Recompile.logicalLines_eq hnewline, h.line, List.reverse_reverse]

end Holds

end Scanner

/-! ## Texts of directives -/

namespace Directive

open Scanner Utf8

variable {d : Directive} {s : Scanner} {as : Bytes}

/-- What stands before the argument. -/
def heading (k : Keyword) : List Char := '#' :: (k.text.toList ++ [' '])

theorem toList_text_eq_heading (d : Directive) :
    d.text.toList = heading d.keyword ++ d.argument.toList := by
  rw [toList_text, heading]
  simp

theorem newline_notMem_encode {cs : List Char} (h : '\n' ∉ cs) : newline ∉ encode cs :=
  fun hmem => h (mem_of_encode (c := '\n') (by decide) hmem)

/-- Text without comment marks is copied. -/
theorem holds_encode (h : s.Holds as) (hs : s.mode ≠ .slash) {cs : List Char} (hnewline : '\n' ∉ cs)
    (hcs : Unmarked cs) : (s.run (encode cs)).Holds (as ++ encode cs) :=
  h.run hs (newline_notMem_encode hnewline)
    (fun hmark => hcs.1 (infix_of_encode (by simp) (by simp) hmark))
    (fun hmark => hcs.2 (infix_of_encode (by simp) (by simp) hmark))

theorem encode_enclosed {opening closing : Char} (hopening : opening.toNat < 128)
    (hclosing : closing.toNat < 128) (cs : List Char) :
    encode (opening :: (cs ++ [closing])) =
      UInt8.ofNat opening.toNat :: encode cs ++ [UInt8.ofNat closing.toNat] := by
  rw [encode_cons, encode_append, utf8EncodeChar_of_ascii hopening]
  simp [encode, utf8EncodeChar_of_ascii hclosing]

/-- The argument of a directive is copied. -/
theorem holds_argument (h : s.Holds as) (hs : s.mode = .code) (hd : d.Printable) :
    (s.run (encode d.argument.toList)).Holds (as ++ encode d.argument.toList) := by
  have hadmits := hd.admits
  rw [toList_argument]
  cases hform : d.form with
  | quoted =>
    rw [hform] at hadmits
    have hopened : (s.step doubleQuote).Holds (as ++ [doubleQuote]) :=
      h.step_plain (by decide) (by decide) (by decide)
    have hliteral : (s.step doubleQuote).mode.inLiteral doubleQuote = true := by
      obtain ⟨mode, line, done⟩ := s
      subst hs
      rfl
    have hquote : doubleQuote ∉ encode d.value.toList :=
      fun hmem => hadmits.2 (mem_of_encode (c := '"') (by decide) hmem)
    -- Inside the quotes everything is copied, also a backslash before the closing one.
    obtain ⟨hvalue, -⟩ :=
      hopened.run_literal hliteral (newline_notMem_encode hd.noNewline) hquote
    have hclosed := hvalue.step_plain (b := doubleQuote) (by decide) (by decide) (by decide)
    have hbytes := @encode_enclosed '"' '"' (by decide) (by decide) d.value.toList
    dsimp only
    rw [hbytes]
    exact .of_enclosed hclosed
  | system =>
    rw [hform] at hadmits
    have hopened : (s.step 60).Holds (as ++ [60]) :=
      h.step_plain (by decide) (by decide) (by decide)
    have hcode : (s.step 60).mode ≠ .slash := by
      obtain ⟨mode, line, done⟩ := s
      subst hs
      exact nofun
    have hvalue := holds_encode hopened hcode hd.noNewline hadmits.2.2
    have hclosed := hvalue.step_plain (b := 62) (by decide) (by decide) (by decide)
    have hbytes := @encode_enclosed '<' '>' (by decide) (by decide) d.value.toList
    dsimp only
    rw [hbytes]
    exact .of_enclosed hclosed
  | expression =>
    rw [hform] at hadmits
    exact holds_encode h (by rw [hs]; exact nofun) hd.noNewline hadmits.2.1

/-- The text of a directive is copied. -/
theorem holds_text (hd : d.Printable) :
    (Scanner.start.run (encode d.text.toList)).Holds (encode d.text.toList) := by
  have hheading : (Scanner.start.run (encode (heading d.keyword))).mode = .code := by
    cases d.keyword <;> decide +kernel
  have hunmarked : '\n' ∉ heading d.keyword ∧ Unmarked (heading d.keyword) := by
    cases d.keyword <;> decide
  have hheld := holds_encode .start (by decide) hunmarked.1 hunmarked.2
  rw [toList_text_eq_heading, encode_append, run_append]
  exact holds_argument hheld hheading hd

theorem notMem_text {c : Char} (hkeyword : ∀ k, c ∉ heading k) (hmarks : c ∉ ['"', '<', '>'])
    (hvalue : c ∉ d.value.toList) : c ∉ d.text.toList := by
  rw [toList_text_eq_heading, toList_argument]
  simp only [List.mem_cons, List.not_mem_nil, not_or, or_false] at hmarks
  cases d.form with
  | quoted | system => simp [hkeyword, hmarks, hvalue]
  | expression => simp [hkeyword, hvalue]

theorem getLast?_text (d : Directive) : d.text.toList.getLast? = match d.form with
    | .quoted => some '"'
    | .system => some '>'
    | .expression => d.value.toList.getLast?.or (some ' ') := by
  have hheading : (heading d.keyword).getLast? = some ' ' := by cases d.keyword <;> rfl
  rw [toList_text_eq_heading, toList_argument, List.getLast?_append, hheading]
  cases d.form with
  | quoted | system =>
    dsimp only
    rw [← List.cons_append, List.getLast?_concat]
    rfl
  | expression => rfl

theorem getLast?_text_ne {c : Char} (hc : c ∉ ['"', '>', ' '])
    (hvalue : d.form = .expression → d.value.toList.getLast? ≠ some c) :
    d.text.toList.getLast? ≠ some c := by
  simp only [List.mem_cons, List.not_mem_nil, not_or, or_false] at hc
  rw [getLast?_text]
  cases hform : d.form with
  | quoted => exact fun h => hc.1 (Option.some.inj h).symm
  | system => exact fun h => hc.2.1 (Option.some.inj h).symm
  | expression =>
    intro h
    rcases Option.or_eq_some_iff.1 h with h | ⟨-, h⟩
    · exact hvalue hform h
    · exact hc.2.2 (Option.some.inj h).symm

/-- The text of a directive does not end in what may begin a joined line end. -/
theorem getLast?_text_ne_backslash (h : d.form.Admits d.value.toList) :
    d.text.toList.getLast? ≠ some '\\' :=
  getLast?_text_ne (by decide) fun hform hlast => by
    rw [hform] at h
    exact h.2.2.1 (List.singleton_suffix_iff_getLast?_eq_some.2 hlast)

theorem getLast?_text_ne_return (h : d.form.Admits d.value.toList) :
    d.text.toList.getLast? ≠ some '\r' :=
  getLast?_text_ne (by decide) fun hform hlast => by
    rw [hform] at h
    rw [← h.1] at hlast
    exact absurd (isBlank_of_getLast?_trim hlast) (by decide)

end Directive

/-! ## Lines of directives -/

/-- What ends a line. -/
inductive LineEnd where
  | newline
  | returnNewline
  deriving DecidableEq, Repr

namespace LineEnd

/-- What stands before the newline. -/
def blanks : LineEnd → List Char
  | newline => []
  | returnNewline => ['\r']

def text (e : LineEnd) : String := String.ofList (e.blanks ++ ['\n'])

end LineEnd

/-- The directives, each on a line of its own. -/
def Directives.print (lines : List (Directive × LineEnd)) : Bytes :=
  lines.flatMap fun line => Utf8.ofString (line.1.text ++ line.2.text)

namespace Directive

open Utf8

variable {d : Directive} (e : LineEnd)

/-- The bytes of a line before its newline. -/
def lineBytes (d : Directive) (e : LineEnd) : Bytes := encode (d.text.toList ++ e.blanks)

theorem ofString_eq_lineBytes :
    ofString (d.text ++ e.text) = d.lineBytes e ++ [Scanner.newline] := by
  have hnewline : encode ['\n'] = [Scanner.newline] := rfl
  rw [ofString, LineEnd.text, String.toList_append, String.toList_ofList, ← List.append_assoc,
    encode_append, hnewline, lineBytes]

theorem notMem_lineBytes {c : Char} (hascii : c.toNat < 128) (hkeyword : ∀ k, c ∉ heading k)
    (hmarks : c ∉ ['"', '<', '>', '\r']) (hvalue : c ∉ d.value.toList) :
    UInt8.ofNat c.toNat ∉ d.lineBytes e := by
  intro h
  rcases List.mem_append.1 (mem_of_encode hascii h) with h | h
  · exact notMem_text hkeyword (fun hm => hmarks (List.mem_append_left ['\r'] hm)) hvalue h
  · cases e with
    | newline => cases h
    | returnNewline => exact hmarks (by simp [List.mem_singleton.1 h])

theorem newline_notMem_lineBytes (hd : d.Printable) : Scanner.newline ∉ d.lineBytes e :=
  notMem_lineBytes e (c := '\n') (by decide) (fun k => by cases k <;> decide) (by decide)
    hd.noNewline

theorem isText_lineBytes (hd : d.Printable) : IsText (d.lineBytes e) where
  noZero := notMem_lineBytes e (c := '\x00') (by decide) (fun k => by cases k <;> decide)
    (by decide) hd.noZero
  valid := valid_encode _

theorem holds_lineBytes (hd : d.Printable) :
    (Scanner.start.run (d.lineBytes e)).Holds (d.lineBytes e) := by
  have htext := holds_text hd
  cases e with
  | newline =>
    rw [lineBytes, LineEnd.blanks, List.append_nil]
    exact htext
  | returnNewline =>
    have hreturn : encode ['\r'] = [Scanner.carriageReturn] := rfl
    rw [lineBytes, LineEnd.blanks, encode_append, hreturn, Scanner.run_concat]
    exact htext.step_plain (by decide) (by decide) (by decide)

/-- A newline ends the line of a directive. -/
theorem closed_lineBytes (hd : d.Printable) : Scanner.Closed (d.lineBytes e) := by
  have houtside := (holds_lineBytes e hd).outside
  have hbackslash := getLast?_text_ne_backslash hd.admits
  have hreturn := getLast?_text_ne_return hd.admits
  refine ⟨(Bool.or_eq_false_iff.1 houtside).2, fun h => ?_, fun h => ?_⟩
  · have h : ['\\'] <:+ d.text.toList ++ e.blanks := suffix_of_encode (by simp) (by simp) h
    rw [List.singleton_suffix_iff_getLast?_eq_some] at h
    cases e with
    | newline => exact hbackslash (by simpa [LineEnd.blanks] using h)
    | returnNewline =>
      rw [LineEnd.blanks, List.getLast?_concat] at h
      cases h
  · have h : ['\\', '\r'] <:+ d.text.toList ++ e.blanks :=
      suffix_of_encode (by simp) (by simp) h
    obtain ⟨front, h⟩ := h
    cases e with
    | newline =>
      refine hreturn ?_
      rw [LineEnd.blanks, List.append_nil] at h
      rw [← h, List.getLast?_append]
      rfl
    | returnNewline =>
      have h : (front ++ ['\\']) ++ ['\r'] = d.text.toList ++ ['\r'] := by
        simpa [LineEnd.blanks] using h
      refine hbackslash ?_
      rw [← List.append_cancel_right h, List.getLast?_concat]

/-- The line of a directive holds that directive. -/
theorem ofText_lineBytes (hd : d.Printable) : Directives.ofText (d.lineBytes e) = [d] := by
  have hblanks : ∀ c ∈ e.blanks, isBlank c = true := List.all_eq_true.1 (by cases e <;> decide)
  rw [Directives.ofText, (holds_lineBytes e hd).logicalLines_eq (newline_notMem_lineBytes e hd)]
  simp only [List.filterMap_cons, List.filterMap_nil, lineBytes, decode_encode_chars,
    ofLine?_text hd.admits hblanks]

end Directive

namespace Directives

open Directive

variable {lines : List (Directive × LineEnd)}

theorem print_cons (d : Directive) (e : LineEnd) (lines : List (Directive × LineEnd)) :
    print ((d, e) :: lines) = d.lineBytes e ++ Scanner.newline :: print lines := by
  rw [print, List.flatMap_cons, ofString_eq_lineBytes, List.append_assoc]
  rfl

theorem isText_print (h : ∀ line ∈ lines, line.1.Printable) : IsText (print lines) := by
  induction lines with
  | nil => decide
  | cons line lines ih =>
    obtain ⟨hfirst, hrest⟩ := List.forall_mem_cons.1 h
    have hline := isText_lineBytes line.2 hfirst
    have hlines := ih hrest
    rw [print_cons]
    exact ⟨zero_notMem_newline hline.noZero hlines.noZero, valid_newline hline.valid hlines.valid⟩

theorem ofText_print (h : ∀ line ∈ lines, line.1.Printable) :
    ofText (print lines) = lines.map (·.1) := by
  induction lines with
  | nil => rfl
  | cons line lines ih =>
    obtain ⟨hfirst, hrest⟩ := List.forall_mem_cons.1 h
    rw [print_cons, ofText_newline (closed_lineBytes line.2 hfirst), ofText_lineBytes line.2 hfirst,
      ih hrest]
    rfl

/-- **Printed directives are read back.** The lines of directives whose texts stand for them are
read as these directives, in order, whichever line end each line has; without imports, as those of
them that are none. -/
theorem read_print (h : ∀ line ∈ lines, line.1.Printable) :
    read true (print lines) = ⟨lines.map (·.1), false⟩ ∧
      read false (print lines) = ⟨(lines.map (·.1)).filter (!·.isImport), false⟩ := by
  have hfound : ofContent (print lines) = .ok (lines.map (·.1)) := by
    rw [(isText_print h).ofContent_eq, ofText_print h]
  constructor
  · simp only [read, hfound]
    rfl
  · simp only [read, hfound]
    rfl

/-- A name in quotes with comment marks and a backslash at its end, a name in brackets with a quote
and blanks in it, and expressions that look like the beginnings of names. -/
theorem read_print_backslash :
    let lines : List (Directive × LineEnd) :=
      [(⟨"a//*\\", .quoted, .includes⟩, .returnNewline), (⟨" '\"\r ", .system, .imports⟩, .newline),
        (⟨"<\"é\\'", .expression, .imports⟩, .returnNewline),
        (⟨"\"\"", .expression, .includes⟩, .newline),
        (⟨"", .expression, .includes⟩, .returnNewline)]
    read true (print lines) = ⟨lines.map (·.1), false⟩ ∧
      read false (print lines) =
        ⟨[⟨"a//*\\", .quoted, .includes⟩, ⟨"\"\"", .expression, .includes⟩,
          ⟨"", .expression, .includes⟩], false⟩ := by
  intro lines
  exact @read_print lines (by decide +kernel)

end Directives

end Recompile
