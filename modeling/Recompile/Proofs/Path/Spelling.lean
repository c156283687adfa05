import Mathlib.Data.List.TakeWhile
import Recompile.Proofs.FileTree.Entry
import Recompile.Proofs.Path.Pieces
import Recompile.SearchPath

/-!
# What does not depend on the spelling

Paths with the same steps are one name in two spellings. Their parents have the same steps
(`Path.parent_cases`), and what is joined to them has the same normal form
(`Path.normalize_join_congr`). So a directive has the same candidates in whatever spelling the file
that holds it is named (`SearchPath.candidates_congr`).
-/

namespace Recompile

theorem joinSlashes_cons (piece : List Char) (pieces : List (List Char)) :
    joinSlashes (piece :: pieces) = piece ++ pieces.flatMap ('/' :: ·) := by
  induction pieces generalizing piece with
  | nil => simp [joinSlashes]
  | cons next pieces ih => rw [joinSlashes_cons_cons, ih next, List.flatMap_cons, List.cons_append]

/-! ## Steps of pieces -/

namespace Step

/-- The steps that some pieces stand for. -/
def ofPieces (pieces : List (List Char)) : List Step :=
  (pieces.map String.ofList).filterMap ofPiece?

theorem ofPieces_append (as bs : List (List Char)) :
    ofPieces (as ++ bs) = ofPieces as ++ ofPieces bs := by
  rw [ofPieces, List.map_append, List.filterMap_append]
  rfl

theorem ofPieces_idle {pieces : List (List Char)} (h : ∀ x ∈ pieces, Path.idle x = true) :
    ofPieces pieces = [] := by
  rw [ofPieces, List.filterMap_map, List.filterMap_eq_nil_iff]
  intro x hx
  have hidle := h x hx
  rw [Path.idle, Bool.or_eq_true, beq_iff_eq, beq_iff_eq] at hidle
  rcases hidle with rfl | rfl <;> decide

theorem ofPieces_singleton {piece : List Char} (h : Path.idle piece = false) :
    ∃ step, ofPieces [piece] = [step] ∧ step ≠ .root := by
  rw [Path.idle, Bool.or_eq_false_iff, beq_eq_false_iff_ne, beq_eq_false_iff_ne] at h
  have hne : String.ofList piece ≠ "" := fun heq => h.1 (String.ofList_injective heq)
  have hdot : String.ofList piece ≠ "." := fun heq => h.2 (String.ofList_injective heq)
  rw [ofPieces, List.map_singleton, List.filterMap_cons]
  obtain ⟨hidle, -⟩ | ⟨-, hup⟩ | ⟨-, hname⟩ := ofPiece?_cases (String.ofList piece)
  · exact absurd hidle (not_or.2 ⟨hne, hdot⟩)
  · rw [hup]
    exact ⟨up, rfl, nofun⟩
  · rw [hname]
    exact ⟨_, rfl, nofun⟩

/-- How a text can begin, with the step that the beginning is, and what its pieces look like after
it. -/
inductive Start : List Char → List Step → List (List Char) → Prop
  | root (pieces : List (List Char)) : Start ['/'] [root] pieces
  | here {pieces : List (List Char)} (h : ∀ x ∈ pieces.head?, x = []) : Start ['.'] [here] pieces
  | piece {pieces : List (List Char)} (h : ∀ x ∈ pieces.head?, Path.idle x = false) :
    Start [] [] pieces

variable {front : List Char} {first : List Step} {pieces pieces' : List (List Char)}

theorem Start.of_isPrefix (h : Start front first pieces) (hp : pieces' <+: pieces) :
    Start front first pieces' := by
  have hhead : ∀ x ∈ pieces'.head?, x ∈ pieces.head? := by
    intro x hx
    obtain ⟨rest, rfl⟩ := hp
    rw [Option.mem_def, List.head?_append, Option.mem_def.1 hx]
    rfl
  cases h with
  | root => exact .root _
  | here h => exact .here fun x hx => h x (hhead x hx)
  | piece h => exact .piece fun x hx => h x (hhead x hx)

theorem ofText_slash_joinSlashes (hslash : ∀ x ∈ pieces, '/' ∉ x) :
    ofText (String.ofList ('/' :: joinSlashes pieces)) = root :: ofPieces pieces := by
  unfold ofText
  dsimp only
  rw [String.toList_ofList, splitSlashes_cons_slash]
  cases pieces with
  | nil => decide
  | cons x pieces =>
    rw [splitSlashes_joinSlashes (List.cons_ne_nil x pieces) hslash]
    rfl

/-- A relative text begins with a `.` or with its first piece. -/
theorem ofText_joinSlashes {x : List Char} (hx : x ≠ []) (hslash : ∀ y ∈ x :: pieces, '/' ∉ y) :
    ofText (String.ofList (joinSlashes (x :: pieces))) =
      if x = ['.'] then here :: ofPieces (x :: pieces) else ofPieces (x :: pieces) := by
  have hroot : (joinSlashes (x :: pieces)).head? ≠ some '/' := by
    obtain ⟨c, cs, rfl⟩ := List.exists_cons_of_ne_nil hx
    rw [joinSlashes_cons]
    intro heq
    obtain rfl : c = '/' := Option.some.inj heq
    exact hslash _ List.mem_cons_self List.mem_cons_self
  have hhere : ((x :: pieces).map String.ofList).head? = some "." ↔ x = ['.'] := by
    rw [List.map_cons, List.head?_cons, Option.some_inj]
    exact ⟨fun heq => String.ofList_injective heq, fun heq => heq ▸ rfl⟩
  unfold ofText
  dsimp only
  rw [String.toList_ofList, splitSlashes_joinSlashes (List.cons_ne_nil _ _) hslash, if_neg hroot]
  simp only [hhere]
  rfl

/-- The steps of a text are the one it begins with and those of its pieces. -/
theorem Start.ofText_eq (h : Start front first pieces) (hslash : ∀ x ∈ pieces, '/' ∉ x) :
    ofText (String.ofList (front ++ joinSlashes pieces)) = first ++ ofPieces pieces := by
  cases h with
  | root => exact ofText_slash_joinSlashes hslash
  | here hhead =>
    cases pieces with
    | nil => decide
    | cons x pieces =>
      obtain rfl : x = [] := hhead x rfl
      have hjoin : ['.'] ++ joinSlashes ([] :: pieces) = joinSlashes (['.'] :: pieces) := by
        rw [joinSlashes_cons, joinSlashes_cons, List.nil_append]
      have hslash' : ∀ x ∈ ['.'] :: pieces, '/' ∉ x :=
        List.forall_mem_cons.2 ⟨by decide, (List.forall_mem_cons.1 hslash).2⟩
      rw [hjoin, ofText_joinSlashes (List.cons_ne_nil _ _) hslash', if_pos rfl]
      rfl
  | piece hhead =>
    cases pieces with
    | nil => decide
    | cons x pieces =>
      have hidle := hhead x rfl
      rw [Path.idle, Bool.or_eq_false_iff, beq_eq_false_iff_ne, beq_eq_false_iff_ne] at hidle
      rw [List.nil_append, ofText_joinSlashes hidle.1 hslash, if_neg hidle.2, List.nil_append]

end Step

namespace Path

/-! ## Parents -/

theorem dropIdleEnd_append (pieces : List (List Char)) : ∃ idles,
    pieces = dropIdleEnd pieces ++ idles ∧ ∀ x ∈ idles, idle x = true := by
  refine ⟨(pieces.reverse.takeWhile idle).reverse, ?_, fun x hx => ?_⟩
  · rw [dropIdleEnd, ← List.reverse_append, List.takeWhile_append_dropWhile, List.reverse_reverse]
  · exact List.mem_takeWhile_imp (List.mem_reverse.1 hx)

theorem ofPieces_dropIdleEnd (pieces : List (List Char)) :
    Step.ofPieces (dropIdleEnd pieces) = Step.ofPieces pieces := by
  obtain ⟨idles, hpieces, hidle⟩ := dropIdleEnd_append pieces
  conv_rhs => rw [hpieces, Step.ofPieces_append, Step.ofPieces_idle hidle, List.append_nil]

/-- The last piece that is left adds a step. -/
theorem idle_of_dropIdleEnd {pieces before : List (List Char)} {last : List Char}
    (h : dropIdleEnd pieces = before ++ [last]) : idle last = false := by
  have hreverse : pieces.reverse.dropWhile idle = last :: before.reverse := by
    rw [← List.reverse_reverse (pieces.reverse.dropWhile idle), ← dropIdleEnd, h]
    simp
  have hhead := List.head?_dropWhile_not idle pieces.reverse
  rw [hreverse] at hhead
  simpa using hhead

variable {p q : Path}

/-- What a path begins with, before its pieces. -/
def front (p : Path) : List Char :=
  if p.isAbsolute then ['/'] else if p.segments.head? = some "." then ['.'] else []

/-- The pieces after the beginning. -/
def body (p : Path) : List (List Char) := splitSlashes (p.text.toList.drop p.front.length)

theorem body_ne_nil (p : Path) : p.body ≠ [] := splitSlashes_ne_nil _

theorem slash_notMem_body {x : List Char} (h : x ∈ p.body) : '/' ∉ x := mem_splitSlashes h

theorem body_eq {rest : List Char} (h : p.text.toList = p.front ++ rest) :
    p.body = splitSlashes rest := by
  rw [body, h, List.drop_left]

/-- A relative text that is not empty begins with a `.` that is a piece of its own, or with the
first of its pieces. -/
theorem exists_start_relative (hempty : p.text ≠ "") (hroot : p.isAbsolute = false) :
    ∃ first rest, p.text.toList = p.front ++ rest ∧ Step.Start p.front first (splitSlashes rest) := by
  obtain ⟨x, pieces, hpieces⟩ := List.exists_cons_of_ne_nil (splitSlashes_ne_nil p.text.toList)
  have hslash : ∀ y ∈ x :: pieces, '/' ∉ y := fun y hy => mem_splitSlashes (hpieces ▸ hy)
  have htext : p.text.toList = joinSlashes (x :: pieces) := by
    rw [← hpieces, joinSlashes_splitSlashes]
  have hhead : p.segments.head? = some (String.ofList x) := by
    rw [segments, hpieces]
    rfl
  by_cases hx : x = ['.']
  · subst hx
    have hfront : p.front = ['.'] := by
      rw [front, hroot, hhead]
      rfl
    refine ⟨[.here], joinSlashes ([] :: pieces), ?_, ?_⟩
    · rw [hfront, htext, joinSlashes_cons, joinSlashes_cons, List.nil_append]
    · rw [hfront, splitSlashes_joinSlashes (List.cons_ne_nil _ _)
        (List.forall_mem_cons.2 ⟨List.not_mem_nil, (List.forall_mem_cons.1 hslash).2⟩)]
      exact .here fun y hy => (Option.some.inj hy).symm
  · have hfront : p.front = [] := by
      have hne : String.ofList x ≠ "." := fun heq => hx (String.ofList_injective heq)
      rw [front, hroot, hhead, if_neg Bool.false_ne_true, if_neg (by simpa using hne)]
    -- An empty first piece is the one of the empty path or stands before a slash.
    have hnil : x ≠ [] := by
      rintro rfl
      cases pieces with
      | nil => exact hempty (String.toList_eq_nil_iff.1 htext)
      | cons y pieces =>
        rw [isAbsolute, htext, joinSlashes_cons] at hroot
        cases hroot
    refine ⟨[], p.text.toList, by rw [hfront, List.nil_append], ?_⟩
    rw [hfront, hpieces]
    refine .piece fun y hy => ?_
    obtain rfl : x = y := Option.some.inj hy
    rw [idle, Bool.or_eq_false_iff, beq_eq_false_iff_ne, beq_eq_false_iff_ne]
    exact ⟨hnil, hx⟩

/-- A path that is not empty is spelled by its beginning and its pieces. -/
theorem exists_start (hempty : p.text ≠ "") :
    p.text.toList = p.front ++ joinSlashes p.body ∧ ∃ first, Step.Start p.front first p.body := by
  obtain ⟨first, rest, htext, hstart⟩ : ∃ first rest, p.text.toList = p.front ++ rest ∧
      Step.Start p.front first (splitSlashes rest) := by
    cases hroot : p.isAbsolute with
    | true =>
      obtain ⟨rest, hrest⟩ := List.head?_eq_some_iff.1 (beq_iff_eq.1 hroot)
      have hfront : p.front = ['/'] := by rw [front, hroot, if_pos rfl]
      exact ⟨[.root], rest, by rw [hfront, hrest]; rfl, by rw [hfront]; exact .root _⟩
    | false => exact exists_start_relative hempty hroot
  have hbody := body_eq htext
  exact ⟨by rw [hbody, joinSlashes_splitSlashes, htext], first, hbody ▸ hstart⟩

theorem steps_of_start {first : List Step} (htext : p.text.toList = p.front ++ joinSlashes p.body)
    (h : Step.Start p.front first p.body) : p.steps = first ++ Step.ofPieces p.body := by
  rw [p.steps_eq, ← h.ofText_eq fun _ hx => slash_notMem_body hx, ← htext, String.ofList_toList]

theorem dropIdleEnd_isPrefix (pieces : List (List Char)) : dropIdleEnd pieces <+: pieces := by
  obtain ⟨idles, hpieces, -⟩ := dropIdleEnd_append pieces
  exact ⟨idles, hpieces.symm⟩

/-- The parent of a path has its steps but the last one, which is not the root. -/
theorem parent_cases (p : Path) :
    p.parent = none ∧ (p.steps = [] ∨ p.steps = [.root]) ∨
      ∃ q step, p.parent = some q ∧ p.steps = q.steps ++ [step] ∧ step ≠ .root := by
  by_cases hempty : p.text = ""
  · obtain rfl : p = ofText "" := ext hempty
    exact .inl ⟨by decide, .inl (by decide)⟩
  obtain ⟨htext, first, hstart⟩ := exists_start hempty
  have hsteps := steps_of_start htext hstart
  unfold parent
  dsimp only
  split
  · next hreverse =>
    have hnil : dropIdleEnd p.body = [] := List.reverse_eq_nil_iff.1 hreverse
    rw [← ofPieces_dropIdleEnd, hnil] at hsteps
    change (if p.front = ['.'] then some (ofText "") else none) = none ∧ _ ∨
      ∃ q step, (if p.front = ['.'] then some (ofText "") else none) = some q ∧ _
    generalize p.front = front at hstart
    cases hstart with
    | root => exact .inl ⟨rfl, .inr hsteps⟩
    | here => exact .inr ⟨ofText "", .here, rfl, hsteps, by decide⟩
    | piece hhead =>
      obtain ⟨idles, hbody, hidle⟩ := dropIdleEnd_append p.body
      rw [hnil, List.nil_append] at hbody
      obtain ⟨x, rest, hx⟩ := List.exists_cons_of_ne_nil p.body_ne_nil
      rw [← hbody, hx] at hidle
      rw [hx] at hhead
      cases (hhead x rfl).symm.trans (hidle x List.mem_cons_self)
  · next last before hreverse =>
    have hdrop : dropIdleEnd p.body = before.reverse ++ [last] := by
      rw [← List.reverse_reverse (dropIdleEnd p.body), ← List.reverse_cons]
      exact congrArg List.reverse hreverse
    obtain ⟨step, hstep, hroot⟩ := Step.ofPieces_singleton (idle_of_dropIdleEnd hdrop)
    have hbefore : dropIdleEnd before.reverse <+: p.body :=
      (dropIdleEnd_isPrefix _).trans
        ((hdrop ▸ List.prefix_append _ _).trans (dropIdleEnd_isPrefix p.body))
    have hq : Step.ofText (String.ofList (p.front ++ joinSlashes (dropIdleEnd before.reverse))) =
        first ++ Step.ofPieces before.reverse := by
      rw [(hstart.of_isPrefix hbefore).ofText_eq fun x hx => slash_notMem_body (hbefore.subset hx),
        ofPieces_dropIdleEnd]
    refine .inr ⟨_, step, rfl, ?_, hroot⟩
    change p.steps = Step.ofText
      (String.ofList (p.front ++ joinSlashes (dropIdleEnd before.reverse))) ++ [step]
    rw [hsteps, ← ofPieces_dropIdleEnd, hdrop, Step.ofPieces_append, hstep, hq, List.append_assoc]

/-- Two spellings of one name have no parent, or parents of one name. -/
theorem parent_congr (h : p.steps = q.steps) : p.parent = none ∧ q.parent = none ∨
    ∃ p' q', p.parent = some p' ∧ q.parent = some q' ∧ p'.steps = q'.steps := by
  have hends {p' : Path} {step : Step} (hroot : step ≠ .root)
      (h : p'.steps ++ [step] = [] ∨ p'.steps ++ [step] = [.root]) : False := by
    rcases h with h | h
    · exact List.append_ne_nil_of_right_ne_nil _ (List.cons_ne_nil _ _) h
    · have hlast := congrArg List.getLast? h
      rw [List.getLast?_concat] at hlast
      exact hroot (Option.some.inj hlast)
  obtain ⟨hp, hsteps⟩ | ⟨p', step, hp, hsteps, hroot⟩ := p.parent_cases <;>
    obtain ⟨hq, hsteps'⟩ | ⟨q', step', hq, hsteps', hroot'⟩ := q.parent_cases
  · exact .inl ⟨hp, hq⟩
  · rw [h, hsteps'] at hsteps
    exact (hends hroot' hsteps).elim
  · rw [← h, hsteps] at hsteps'
    exact (hends hroot hsteps').elim
  · refine .inr ⟨p', q', hp, hq, ?_⟩
    rw [hsteps, hsteps'] at h
    exact List.append_inj_left' h rfl

/-! ## Joined paths -/

theorem normalize_congr (h : p.steps = q.steps) : p.normalize = q.normalize := by
  rw [normalize, normalize, h]

/-- A slash comes between two paths that are joined, unless the first is empty. -/
theorem toList_join (hp : p.text ≠ "") (hq : q.isAbsolute = false) : ∃ cs,
    (p.join q).text.toList = cs ++ '/' :: q.text.toList ∧
      (p.text.toList = cs ∧ cs ≠ [] ∨ p.text.toList = cs ++ ['/']) := by
  have hne : p.text.toList ≠ [] := fun h => hp (String.toList_eq_nil_iff.1 h)
  rw [join, hq, if_neg Bool.false_ne_true]
  cases htext : p.text.toList using List.reverseRecOn with
  | nil => exact absurd htext hne
  | append_singleton cs c =>
    by_cases hc : c = '/'
    · subst hc
      exact ⟨cs, by simp [htext], .inr rfl⟩
    · exact ⟨cs ++ [c], by simp [htext, hc], .inl ⟨rfl, by simp⟩⟩

/-- What is joined to a path is folded onto its normal form. -/
theorem normalize_steps_join (p : Path) (hq : q.isAbsolute = false) :
    Step.normalize (p.join q).steps =
      (q.segments.foldl Step.foldPiece (Step.normalize p.steps).reverse).reverse := by
  by_cases hp : p.text = ""
  · obtain rfl : p = ofText "" := ext hp
    have hjoin : (ofText "").join q = q := by
      rw [join, hq, if_neg Bool.false_ne_true]
      exact ext (String.empty_append)
    rw [hjoin, normalize_steps, base, hq]
    rfl
  · obtain ⟨cs, hjoin, hcs⟩ := toList_join hp hq
    have hsegments : (p.join q).segments = (splitSlashes cs).map String.ofList ++ q.segments := by
      rw [segments, hjoin, splitSlashes_append_slash, List.map_append]
      rfl
    have hbase : (p.join q).base = p.base := by
      have hhead : (p.join q).text.toList.head? = p.text.toList.head? := by
        rw [hjoin]
        rcases hcs with ⟨hcs, hne⟩ | hcs
        · rw [hcs, List.head?_append_of_ne_nil _ hne]
        · rw [hcs, List.head?_append, List.head?_append]
          rfl
      rw [base, base, isAbsolute, isAbsolute, hhead]
    have hfold : ((splitSlashes cs).map String.ofList).foldl Step.foldPiece p.base =
        p.segments.foldl Step.foldPiece p.base := by
      rcases hcs with ⟨hcs, -⟩ | hcs
      · rw [segments, hcs]
      · rw [segments, hcs, splitSlashes_append_slash, List.map_append, List.foldl_append]
        rfl
    rw [normalize_steps, normalize_steps, hsegments, hbase, List.foldl_append, hfold,
      List.reverse_reverse]

/-- What is joined to two paths of one normal form has one normal form. -/
theorem normalize_join_congr (h : p.normalize = q.normalize) (r : Path) :
    (p.join r).normalize = (q.join r).normalize := by
  have hsteps : Step.normalize p.steps = Step.normalize q.steps := by
    rw [← p.normalize_steps_normalize, h, q.normalize_steps_normalize]
  cases hr : r.isAbsolute with
  | true => rw [join, join, hr, if_pos rfl, if_pos rfl]
  | false =>
    rw [normalize, normalize, normalize_steps_join p hr, normalize_steps_join q hr, hsteps]

end Path

/-- A directive has the same candidates in every spelling of the file that holds it. -/
theorem SearchPath.candidates_congr {p q : Path} (h : p.steps = q.steps) (roots : List Path)
    (d : Directive) : candidates roots d p = candidates roots d q := by
  unfold candidates directories
  cases d.form with
  | system => rfl
  | expression => rfl
  | quoted =>
    obtain ⟨hp, hq⟩ | ⟨p', q', hp, hq, hsteps⟩ := Path.parent_congr h
    · simp only [hp, hq]
    · simp only [hp, hq, List.map_append]
      congr 1
      exact congrArg (fun c => [c]) (Path.normalize_join_congr (Path.normalize_congr hsteps) _)

end Recompile
