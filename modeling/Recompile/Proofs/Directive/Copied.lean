import Recompile.Proofs.Directive.Comments
import Recompile.Proofs.Text.Decode

/-!
# Copies of a piece of text

`Copied source copy` says that the bytes of `copy` are those of `source`, in order, but for the
joined line ends, which are left out, and the block comments, each of which is one space. A piece of
a copy is the copy of a piece (`Copied.exists_middle`), and the copy of a text is a text whose
characters are those of the source and spaces (`Copied.exists_chars`): what is left out or replaced
begins and ends with ASCII characters, so no character is broken up even though bytes are copied one
by one.
-/

namespace Recompile

/-- The second byte string is the first without joined line ends and with a space for each block
comment. -/
inductive Copied : Bytes → Bytes → Prop
  | nil : Copied [] []
  | byte (b : UInt8) {source copy : Bytes} (h : Copied source copy) :
      Copied (b :: source) (b :: copy)
  | splice {splice source copy : Bytes} (hsplice : IsSplice splice) (h : Copied source copy) :
      Copied (splice ++ source) copy
  | comment {body source copy : Bytes} (hbody : ¬ [Scanner.star, Scanner.solidus] <:+: body)
      (h : Copied source copy) :
      Copied (Scanner.blockComment body ++ source) (Scanner.space :: copy)

namespace Copied

variable {source copy : Bytes}

theorem append (h : Copied source copy) {source' copy' : Bytes} (h' : Copied source' copy') :
    Copied (source ++ source') (copy ++ copy') := by
  induction h with
  | nil => exact h'
  | byte b _ ih => exact .byte b ih
  | splice hsplice _ ih =>
    rw [List.append_assoc]
    exact .splice hsplice ih
  | comment hbody _ ih =>
    rw [List.append_assoc]
    exact .comment hbody ih

theorem single (b : UInt8) : Copied [b] [b] := .byte b .nil

theorem of_splice {splice : Bytes} (h : IsSplice splice) : Copied splice [] := by
  simpa using Copied.splice h .nil

theorem of_comment {body : Bytes} (hbody : ¬ [Scanner.star, Scanner.solidus] <:+: body) :
    Copied (Scanner.blockComment body) [Scanner.space] := by
  simpa using Copied.comment hbody .nil

/-! ## Pieces of a copy -/

/-- Where a copy is parted, its source can be parted. -/
theorem exists_append {front back : Bytes} (h : Copied source (front ++ back)) :
    ∃ before rest, source = before ++ rest ∧ Copied before front ∧ Copied rest back := by
  generalize hcopy : front ++ back = copy at h
  induction h generalizing front with
  | nil =>
    obtain ⟨rfl, rfl⟩ := List.append_eq_nil_iff.1 hcopy
    exact ⟨[], [], rfl, .nil, .nil⟩
  | @byte b source copy h ih =>
    cases front with
    | nil =>
      obtain rfl : back = b :: copy := hcopy
      exact ⟨[], b :: source, rfl, .nil, .byte b h⟩
    | cons a front =>
      obtain ⟨rfl, hrest⟩ := List.cons.inj hcopy
      obtain ⟨before, rest, rfl, hfront, hback⟩ := ih hrest
      exact ⟨a :: before, rest, rfl, .byte a hfront, hback⟩
  | @splice splice source copy hsplice _ ih =>
    obtain ⟨before, rest, rfl, hfront, hback⟩ := ih hcopy
    exact ⟨splice ++ before, rest, (List.append_assoc ..).symm, .splice hsplice hfront, hback⟩
  | @comment body source copy hbody h ih =>
    cases front with
    | nil =>
      obtain rfl : back = Scanner.space :: copy := hcopy
      exact ⟨[], Scanner.blockComment body ++ source, rfl, .nil, .comment hbody h⟩
    | cons a front =>
      obtain ⟨rfl, hrest⟩ := List.cons.inj hcopy
      obtain ⟨before, rest, rfl, hfront, hback⟩ := ih hrest
      exact ⟨Scanner.blockComment body ++ before, rest, (List.append_assoc ..).symm,
        .comment hbody hfront, hback⟩

/-- A piece of a copy is the copy of a piece. -/
theorem exists_middle {front middle back : Bytes} (h : Copied source (front ++ (middle ++ back))) :
    ∃ before piece after, source = before ++ piece ++ after ∧ Copied piece middle := by
  obtain ⟨before, rest, rfl, -, hrest⟩ := h.exists_append
  obtain ⟨piece, after, rfl, hpiece, -⟩ := hrest.exists_append
  exact ⟨before, piece, after, (List.append_assoc ..).symm, hpiece⟩

/-! ## Copies of text -/

/-- Nothing but the bytes themselves is copied of what has no ASCII byte. -/
theorem of_high {bs : Bytes} (hhigh : ∀ b ∈ bs, 0x80 ≤ b) (h : Copied (bs ++ source) copy) :
    ∃ copy', copy = bs ++ copy' ∧ Copied source copy' := by
  induction bs generalizing copy with
  | nil => exact ⟨copy, rfl, h⟩
  | cons b bs ih =>
    obtain ⟨hb, hbs⟩ := List.forall_mem_cons.1 hhigh
    generalize hsource : b :: bs ++ source = all at h
    cases h with
    | nil => cases hsource
    | byte b' h =>
      obtain ⟨rfl, rfl⟩ := List.cons.inj hsource
      obtain ⟨copy', rfl, hcopy'⟩ := ih hbs h
      exact ⟨copy', rfl, hcopy'⟩
    | splice hsplice h =>
      have hfirst : b = Scanner.backslash := by
        rcases hsplice with rfl | rfl <;> exact (List.cons.inj hsource).1
      subst hfirst
      exact absurd hb (by decide)
    | comment hbody h =>
      obtain ⟨rfl, -⟩ := List.cons.inj hsource
      exact absurd hb (by decide)

theorem exists_splice_chars {splice : Bytes} (h : IsSplice splice) :
    ∃ pat : List Char, splice = Utf8.encode pat ∧ pat ≠ [] ∧ ∀ c ∈ pat, c.toNat < 128 := by
  rcases h with rfl | rfl
  · exact ⟨['\\', '\n'], rfl, by simp, by simp⟩
  · exact ⟨['\\', '\r', '\n'], rfl, by simp, by simp⟩

/-- The copy of a text is a text, and its characters are those of the source and spaces. -/
theorem exists_chars {cs : List Char} (h : Copied (Utf8.encode cs) copy) :
    ∃ ds, copy = Utf8.encode ds ∧ ∀ d ∈ ds, d ∈ cs ∨ d = ' ' := by
  induction hn : cs.length using Nat.strong_induction_on generalizing cs copy with
  | h n ih =>
    -- What is left of the source is a text again, a shorter one.
    have hrest {fs pat gs : List Char} (hcs : cs = fs ++ (pat ++ gs)) (hpat : pat ≠ [])
        {copy : Bytes} (hcopied : Copied (Utf8.encode gs) copy) :
        ∃ ds, copy = Utf8.encode ds ∧ ∀ d ∈ ds, d ∈ cs ∨ d = ' ' := by
      have hlength : gs.length < n := by
        have hpos := List.length_pos_of_ne_nil hpat
        rw [← hn, hcs, List.length_append, List.length_append]
        omega
      obtain ⟨ds, hds, hmem⟩ := ih gs.length hlength hcopied rfl
      refine ⟨ds, hds, fun d hd => (hmem d hd).imp_left fun hgs => ?_⟩
      rw [hcs]
      exact List.mem_append_right fs (List.mem_append_right pat hgs)
    generalize hsource : Utf8.encode cs = source at h
    cases h with
    | nil => exact ⟨[], rfl, nofun⟩
    | @splice splice source copy hsplice h =>
      obtain ⟨pat, rfl, hpat, hascii⟩ := exists_splice_chars hsplice
      have hfront : Utf8.encode cs = [] ++ (Utf8.encode pat ++ source) := hsource
      obtain ⟨fs, gs, hcs, -, rfl⟩ := Utf8.exists_of_encode_eq hpat hascii hfront
      exact hrest hcs hpat h
    | @comment body source copy hbody h =>
      have hclose : Utf8.encode cs = ([Scanner.solidus, Scanner.star] ++ body) ++
          (Utf8.encode ['*', '/'] ++ source) := by
        rw [hsource, Scanner.blockComment, List.append_assoc]
        rfl
      obtain ⟨fs, gs, hcs, -, rfl⟩ := Utf8.exists_of_encode_eq (by simp) (by simp) hclose
      obtain ⟨ds, rfl, hds⟩ := hrest hcs (by simp) h
      exact ⟨' ' :: ds, rfl, List.forall_mem_cons.2 ⟨.inr rfl, hds⟩⟩
    | @byte b source copy h =>
      cases cs with
      | nil => cases hsource
      | cons c cs =>
        rw [Utf8.encode_cons] at hsource
        have hkept {copy' : Bytes} (hcopied : Copied (Utf8.encode cs) copy') :
            ∃ ds, String.utf8EncodeChar c ++ copy' = Utf8.encode ds ∧
              ∀ d ∈ ds, d ∈ c :: cs ∨ d = ' ' := by
          obtain ⟨ds, rfl, hds⟩ := @hrest [] [c] cs rfl (by simp) copy' hcopied
          exact ⟨c :: ds, rfl, List.forall_mem_cons.2 ⟨.inl List.mem_cons_self, hds⟩⟩
        by_cases hascii : c.toNat < 128
        · rw [Utf8.utf8EncodeChar_of_ascii hascii] at hsource hkept
          obtain ⟨rfl, rfl⟩ := List.cons.inj hsource
          exact hkept h
        · have hhigh : ∀ b ∈ String.utf8EncodeChar c, 0x80 ≤ b := fun b =>
            Utf8.le_of_mem_utf8EncodeChar (Nat.not_lt.1 hascii)
          obtain ⟨copy', hcopy, hcopied⟩ := of_high hhigh (hsource ▸ Copied.byte b h)
          rw [hcopy]
          exact hkept hcopied

end Copied

end Recompile
