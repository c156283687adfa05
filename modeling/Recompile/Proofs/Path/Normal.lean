import Recompile.Path.Normal
import Recompile.Proofs.Table

/-!
# Normal forms are canonical

A normal path is known by its steps: two normal paths that compare equal are spelled alike
(`Path.IsNormal.eq_of_steps`), `Path.normalize` gives normal paths (`Path.isNormal_normalize`), and
it leaves a normal path as it is (`Path.IsNormal.normalize_eq`). Tables keyed by paths go by steps,
so on normal paths a look-up is a look-up by spelling.

The proof has two halves. Folding leaves steps of a known shape (`Step.Kept`), and steps of that
shape are read back from the text that `Step.render` writes (`Step.ofText_render`).
-/

namespace Recompile

/-! ## Texts and their pieces -/

section Pieces

theorem splitSlashes_cons_slash (cs : List Char) :
    splitSlashes ('/' :: cs) = [] :: splitSlashes cs := by
  simp [splitSlashes]

theorem splitSlashes_cons {c : Char} (hc : c ≠ '/') {cs piece : List Char}
    {rest : List (List Char)} (h : splitSlashes cs = piece :: rest) :
    splitSlashes (c :: cs) = (c :: piece) :: rest := by
  unfold splitSlashes at *
  rw [List.foldr_cons, if_neg hc, h]

theorem splitSlashes_piece {piece : List Char} (h : '/' ∉ piece) :
    splitSlashes piece = [piece] := by
  induction piece with
  | nil => rfl
  | cons c piece ih =>
    have hc : c ≠ '/' := (List.ne_of_not_mem_cons h).symm
    exact splitSlashes_cons hc (ih (List.not_mem_of_not_mem_cons h))

theorem splitSlashes_piece_slash {piece : List Char} (h : '/' ∉ piece) (cs : List Char) :
    splitSlashes (piece ++ '/' :: cs) = piece :: splitSlashes cs := by
  induction piece with
  | nil => exact splitSlashes_cons_slash cs
  | cons c piece ih =>
    have hc : c ≠ '/' := (List.ne_of_not_mem_cons h).symm
    exact splitSlashes_cons hc (ih (List.not_mem_of_not_mem_cons h))

theorem mem_splitSlashes {cs piece : List Char} (h : piece ∈ splitSlashes cs) : '/' ∉ piece := by
  induction cs generalizing piece with
  | nil =>
    obtain rfl : piece = [] := by simpa [splitSlashes] using h
    exact List.not_mem_nil
  | cons c cs ih =>
    by_cases hc : c = '/'
    · subst hc
      rw [splitSlashes_cons_slash] at h
      rcases List.mem_cons.1 h with rfl | h
      · exact List.not_mem_nil
      · exact ih h
    · cases hs : splitSlashes cs with
      | nil =>
        have hcs : splitSlashes (c :: cs) = [[c]] := by
          unfold splitSlashes at *
          rw [List.foldr_cons, if_neg hc, hs]
        rw [hcs] at h
        obtain rfl := List.mem_singleton.1 h
        simpa using Ne.symm hc
      | cons first rest =>
        rw [splitSlashes_cons hc hs] at h
        rcases List.mem_cons.1 h with rfl | h
        · exact List.not_mem_cons_of_ne_of_not_mem (Ne.symm hc) (ih (hs ▸ List.mem_cons_self))
        · exact ih (hs ▸ List.mem_cons_of_mem _ h)

theorem joinSlashes_cons_cons (p q : List Char) (pieces : List (List Char)) :
    joinSlashes (p :: q :: pieces) = p ++ '/' :: joinSlashes (q :: pieces) := by
  simp [joinSlashes, List.intersperse]

/-- Pieces without slashes are read back from their text. -/
theorem splitSlashes_joinSlashes {pieces : List (List Char)} (hne : pieces ≠ [])
    (h : ∀ p ∈ pieces, '/' ∉ p) : splitSlashes (joinSlashes pieces) = pieces := by
  induction pieces with
  | nil => exact absurd rfl hne
  | cons p rest ih =>
    have hp : '/' ∉ p := h p List.mem_cons_self
    cases rest with
    | nil =>
      have hjoin : joinSlashes [p] = p := by simp [joinSlashes]
      rw [hjoin, splitSlashes_piece hp]
    | cons q rest =>
      have hrest := ih (List.cons_ne_nil q rest) fun r hr => h r (List.mem_cons_of_mem p hr)
      rw [joinSlashes_cons_cons, splitSlashes_piece_slash hp, hrest]

end Pieces

/-! ## Folded steps -/

namespace Step

/-- The text of a step that a piece between slashes can stand for. -/
def IsName (s : String) : Prop := s ≠ "" ∧ s ≠ "." ∧ s ≠ ".." ∧ '/' ∉ s.toList

/-- A step that a piece between slashes stands for. -/
def IsPiece (step : Step) : Prop := step = up ∨ ∃ s, IsName s ∧ step = name s

theorem isPiece_of_ofPiece? {piece : String} {step : Step} (hslash : '/' ∉ piece.toList)
    (h : ofPiece? piece = some step) : IsPiece step := by
  unfold ofPiece? at h
  split at h
  · cases h
  · next hidle =>
    obtain ⟨hempty, hdot⟩ := not_or.1 hidle
    split at h
    · cases h
      exact .inl rfl
    · next hup =>
      cases h
      exact .inr ⟨piece, ⟨hempty, hdot, hup, hslash⟩, rfl⟩

theorem ofPiece?_text {step : Step} (h : IsPiece step) : ofPiece? step.text = some step := by
  rcases h with rfl | ⟨s, ⟨hempty, hdot, hup, -⟩, rfl⟩
  · rfl
  · simp only [text, ofPiece?, hempty, hdot, hup, or_self, if_false]

theorem slash_notMem_text {step : Step} (h : IsPiece step) : '/' ∉ step.text.toList := by
  rcases h with rfl | ⟨s, hs, rfl⟩
  · decide
  · exact hs.2.2.2

/-- Steps of a text: at most one that is no piece, and that one in front. -/
theorem ofText_cases (text : String) :
    ∃ body, (∀ step ∈ body, IsPiece step) ∧
      (ofText text = root :: body ∨ ofText text = here :: body ∨ ofText text = body) := by
  refine ⟨((splitSlashes text.toList).map String.ofList).filterMap ofPiece?, ?_, ?_⟩
  · intro step hstep
    obtain ⟨piece, hpiece, hof⟩ := List.mem_filterMap.1 hstep
    obtain ⟨cs, hcs, rfl⟩ := List.mem_map.1 hpiece
    refine isPiece_of_ofPiece? ?_ hof
    rw [String.toList_ofList]
    exact mem_splitSlashes hcs
  · unfold ofText
    dsimp only
    split
    · exact .inl rfl
    · split
      · exact .inr (.inl rfl)
      · exact .inr (.inr rfl)

/-- The shape of the steps kept while folding, which stand in reverse: names, and below them either
the root or any number of `..`. -/
def Kept (kept : List Step) : Prop :=
  ∃ names : List String, (∀ s ∈ names, IsName s) ∧
    (kept = names.map name ++ [root] ∨ ∃ ups, kept = names.map name ++ List.replicate ups up)

theorem Kept.fold {kept : List Step} (h : Kept kept) {step : Step} (hstep : IsPiece step) :
    Kept (fold kept step) := by
  obtain ⟨names, hnames, hkept⟩ := h
  rcases hstep with rfl | ⟨s, hs, rfl⟩
  · cases names with
    | nil =>
      rcases hkept with rfl | ⟨ups, rfl⟩
      · exact ⟨[], hnames, .inl rfl⟩
      · refine ⟨[], hnames, .inr ⟨ups + 1, ?_⟩⟩
        cases ups <;> rfl
    | cons n names =>
      have hrest : ∀ s ∈ names, IsName s := fun s hs => hnames s (List.mem_cons_of_mem n hs)
      rcases hkept with rfl | ⟨ups, rfl⟩
      · exact ⟨names, hrest, .inl rfl⟩
      · exact ⟨names, hrest, .inr ⟨ups, rfl⟩⟩
  · refine ⟨s :: names, ?_, ?_⟩
    · intro t ht
      rcases List.mem_cons.1 ht with rfl | ht
      · exact hs
      · exact hnames t ht
    · rcases hkept with rfl | ⟨ups, rfl⟩
      · exact .inl rfl
      · exact .inr ⟨ups, rfl⟩

theorem Kept.foldl {kept : List Step} (h : Kept kept) {body : List Step}
    (hbody : ∀ step ∈ body, IsPiece step) : Kept (body.foldl Step.fold kept) := by
  induction body generalizing kept with
  | nil => exact h
  | cons step body ih =>
    have hstep : IsPiece step := hbody step List.mem_cons_self
    exact ih (h.fold hstep) fun s hs => hbody s (List.mem_cons_of_mem step hs)

/-- Folding the steps of any text gives the kept shape. -/
theorem kept_normalize (text : String) : Kept (normalize (ofText text)).reverse := by
  have hempty : Kept [] := ⟨[], fun s hs => absurd hs List.not_mem_nil, .inr ⟨0, rfl⟩⟩
  have hroot : Kept [root] := ⟨[], fun s hs => absurd hs List.not_mem_nil, .inl rfl⟩
  rw [normalize, List.reverse_reverse]
  obtain ⟨body, hbody, h | h | h⟩ := ofText_cases text
  · rw [h, List.foldl_cons]
    exact hroot.foldl hbody
  · rw [h, List.foldl_cons]
    exact hempty.foldl hbody
  · rw [h]
    exact hempty.foldl hbody

/-- Kept steps in the order of the path are the root or some `..`, and pieces after it. -/
theorem Kept.reverse_cases {steps : List Step} (h : Kept steps.reverse) :
    Folded steps ∧ ((∃ body, steps = root :: body ∧ ∀ step ∈ body, IsPiece step) ∨
      ∀ step ∈ steps, IsPiece step) := by
  obtain ⟨names, hnames, hkept⟩ := h
  have hpiece : ∀ step ∈ names.reverse.map name, IsPiece step := by
    intro step hstep
    obtain ⟨s, hs, rfl⟩ := List.mem_map.1 hstep
    exact .inr ⟨s, hnames s (List.mem_reverse.1 hs), rfl⟩
  rcases hkept with hkept | ⟨ups, hkept⟩
  · have hsteps : steps = root :: names.reverse.map name := by
      rw [← List.reverse_reverse steps, hkept]
      simp
    exact ⟨⟨0, names.reverse, .inr hsteps⟩, .inl ⟨_, hsteps, hpiece⟩⟩
  · have hsteps : steps = List.replicate ups up ++ names.reverse.map name := by
      rw [← List.reverse_reverse steps, hkept]
      simp
    refine ⟨⟨ups, names.reverse, .inl hsteps⟩, .inr ?_⟩
    intro step hstep
    rw [hsteps] at hstep
    rcases List.mem_append.1 hstep with hstep | hstep
    · exact .inl (List.mem_replicate.1 hstep).2
    · exact hpiece step hstep

/-! ## Rendered steps are read back -/

theorem filterMap_ofPiece?_text {body : List Step} (h : ∀ step ∈ body, IsPiece step) :
    (body.map text).filterMap ofPiece? = body := by
  induction body with
  | nil => rfl
  | cons step body ih =>
    have hstep := ofPiece?_text (h step List.mem_cons_self)
    have hbody := ih fun s hs => h s (List.mem_cons_of_mem step hs)
    rw [List.map_cons, List.filterMap_cons_some hstep, hbody]

theorem map_splitSlashes_joinSlashes {body : List Step} (hne : body ≠ [])
    (h : ∀ step ∈ body, IsPiece step) :
    (splitSlashes (joinSlashes (body.map (·.text.toList)))).map String.ofList =
      body.map text := by
  have hslash : ∀ p ∈ body.map (·.text.toList), '/' ∉ p := by
    intro p hp
    obtain ⟨step, hstep, rfl⟩ := List.mem_map.1 hp
    exact slash_notMem_text (h step hstep)
  rw [splitSlashes_joinSlashes (by simpa using hne) hslash, List.map_map]
  exact List.map_congr_left fun step _ => String.ofList_toList

theorem ofText_render_root {body : List Step} (h : ∀ step ∈ body, IsPiece step) :
    ofText (render (root :: body)) = root :: body := by
  have htext : (render (root :: body)).toList = '/' :: joinSlashes (body.map (·.text.toList)) :=
    String.toList_ofList
  unfold ofText
  dsimp only
  rw [htext, splitSlashes_cons_slash, List.map_cons, List.filterMap_cons_none (by decide)]
  simp only [List.head?_cons, if_true]
  cases body with
  | nil => decide
  | cons step body =>
    rw [map_splitSlashes_joinSlashes (List.cons_ne_nil step body) h, filterMap_ofPiece?_text h]

theorem ofText_render_pieces {body : List Step} (hne : body ≠ [])
    (h : ∀ step ∈ body, IsPiece step) : ofText (render body) = body := by
  obtain ⟨first, rest, rfl⟩ := List.exists_cons_of_ne_nil hne
  have hfirst : IsPiece first := h first List.mem_cons_self
  have hrender : render (first :: rest) =
      String.ofList (joinSlashes ((first :: rest).map (·.text.toList))) := by
    rcases hfirst with rfl | ⟨s, -, rfl⟩ <;> rfl
  have hpieces := map_splitSlashes_joinSlashes hne h
  have hhead : (joinSlashes ((first :: rest).map (·.text.toList))).head? ≠ some '/' := by
    -- the text of the first step is not empty, so it gives the first character
    have htext : first.text.toList ≠ [] := by
      rcases hfirst with rfl | ⟨s, hs, rfl⟩
      · decide
      · exact fun hnil => hs.1 (String.toList_eq_nil_iff.1 hnil)
    obtain ⟨c, cs, hcs⟩ := List.exists_cons_of_ne_nil htext
    have hc : c ≠ '/' := by
      rintro rfl
      exact slash_notMem_text hfirst (hcs ▸ List.mem_cons_self)
    cases rest with
    | nil => simpa [joinSlashes, hcs] using hc
    | cons second rest =>
      rw [List.map_cons, List.map_cons, joinSlashes_cons_cons, hcs]
      simpa using hc
  have hdot : first.text ≠ "." := by
    rcases hfirst with rfl | ⟨s, hs, rfl⟩
    · decide
    · exact hs.2.1
  have hdot' : ((first :: rest).map text).head? ≠ some "." := by simpa using hdot
  unfold ofText
  dsimp only
  rw [hrender, String.toList_ofList, hpieces, if_neg hhead, if_neg hdot', filterMap_ofPiece?_text h]

/-- Folded steps are read back from the text that is written for them. -/
theorem ofText_render {steps : List Step} (hne : steps ≠ []) (h : Kept steps.reverse) :
    ofText (render steps) = steps := by
  rcases h.reverse_cases.2 with ⟨body, rfl, hbody⟩ | hbody
  · exact ofText_render_root hbody
  · exact ofText_render_pieces hne hbody

/-! ## Folded steps stay as they are -/

theorem foldl_fold_names (kept : List Step) (names : List String) :
    (names.map name).foldl fold kept = (names.map name).reverse ++ kept := by
  induction names generalizing kept with
  | nil => rfl
  | cons s names ih =>
    rw [List.map_cons, List.foldl_cons, ih, List.reverse_cons, List.append_assoc]
    rfl

theorem foldl_fold_ups (ups : Nat) :
    (List.replicate ups up).foldl fold [] = List.replicate ups up := by
  induction ups with
  | zero => rfl
  | succ ups ih =>
    rw [List.replicate_succ', List.foldl_append, ih, ← List.replicate_succ']
    cases ups <;> rfl

/-- Folded steps stay as they are. -/
theorem Folded.normalize_eq {steps : List Step} (h : Folded steps) : normalize steps = steps := by
  obtain ⟨ups, names, rfl | rfl⟩ := h
  · rw [normalize, List.foldl_append, foldl_fold_ups, foldl_fold_names, List.reverse_append,
      List.reverse_reverse, List.reverse_replicate]
  · rw [normalize, List.foldl_cons]
    have hroot : fold [] root = [root] := rfl
    rw [hroot, foldl_fold_names, List.reverse_append, List.reverse_reverse]
    rfl

end Step

/-! ## Normal paths -/

namespace Path

/-- Folding the steps of a path leaves the kept shape. -/
theorem kept_normalize (p : Path) : Step.Kept (Step.normalize p.steps).reverse := by
  rw [p.steps_eq]
  exact Step.kept_normalize p.text

/-- The steps of a normal form are those that folding leaves, unless it leaves none. -/
theorem normalize_cases (p : Path) :
    Step.normalize p.steps = [] ∧ p.normalize = ofText "." ∨
      Step.normalize p.steps ≠ [] ∧ p.normalize.steps = Step.normalize p.steps := by
  by_cases hne : Step.normalize p.steps = []
  · refine .inl ⟨hne, ?_⟩
    rw [normalize, hne]
    rfl
  · exact .inr ⟨hne, Step.ofText_render hne p.kept_normalize⟩

theorem isNormal_normalize (p : Path) : p.normalize.IsNormal := by
  rcases p.normalize_cases with ⟨-, hdot⟩ | ⟨hne, hsteps⟩
  · exact .inl (congrArg text hdot)
  · refine .inr ⟨?_, ?_, ?_⟩
    · rw [hsteps]
      exact p.kept_normalize.reverse_cases.1
    · rw [hsteps]
      exact hne
    · rw [hsteps]
      rfl

/-- A name among the steps of a path is one that a piece can be. -/
theorem isName_of_mem_steps {p : Path} {s : String} (h : .name s ∈ p.steps) : Step.IsName s := by
  have hpiece : ∀ step ∈ p.steps, step = .name s → Step.IsPiece step := by
    rw [p.steps_eq]
    intro step hstep hname
    obtain ⟨body, hbody, h | h | h⟩ := Step.ofText_cases p.text <;> rw [h] at hstep
    · exact hbody step ((List.mem_cons.1 hstep).resolve_left (by rw [hname]; nofun))
    · exact hbody step ((List.mem_cons.1 hstep).resolve_left (by rw [hname]; nofun))
    · exact hbody step hstep
  obtain hup | ⟨s', hs', hname⟩ := hpiece _ h rfl
  · cases hup
  · cases hname
    exact hs'

theorem normalize_eq_of_folded {p : Path} (hsteps : Step.Folded p.steps)
    (htext : p.text = Step.render p.steps) : p.normalize = p := by
  rw [normalize, hsteps.normalize_eq, ← htext, ofText_text]

/-- A normal path is its own normal form, in the same spelling. -/
theorem IsNormal.normalize_eq {p : Path} (h : p.IsNormal) : p.normalize = p := by
  rcases h with hdot | ⟨hsteps, -, htext⟩
  · obtain rfl : p = ofText "." := ext hdot
    exact ext (by decide)
  · exact normalize_eq_of_folded hsteps htext

/-- Folding the steps of a normal form leaves what folding those of the path leaves. -/
theorem normalize_steps_normalize (p : Path) :
    Step.normalize p.normalize.steps = Step.normalize p.steps := by
  rcases p.normalize_cases with ⟨hnil, hdot⟩ | ⟨-, hsteps⟩
  · rw [hdot, hnil]
    rfl
  · rw [hsteps]
    exact p.kept_normalize.reverse_cases.1.normalize_eq

/-- No folded steps are those of the path `.`. -/
theorem folded_steps_ne_dot {p q : Path} (hp : p.text = ".") (hq : Step.Folded q.steps) :
    p.steps ≠ q.steps := by
  obtain ⟨ups, names, hq⟩ := hq
  have hdot : p.steps = [.here] := by
    rw [p.steps_eq, hp]
    decide
  rw [hdot]
  rcases hq with hq | hq <;> rw [hq]
  · cases ups with
    | zero => cases names <;> simp
    | succ ups => simp [List.replicate_succ]
  · simp

/-- A normal path is known by its steps. -/
theorem IsNormal.eq_of_steps {p q : Path} (hp : p.IsNormal) (hq : q.IsNormal)
    (h : p.steps = q.steps) : p = q := by
  apply ext
  rcases hp with hp | ⟨hpf, -, hp⟩ <;> rcases hq with hq | ⟨hqf, -, hq⟩
  · rw [hp, hq]
  · exact absurd h (folded_steps_ne_dot hp hqf)
  · exact absurd h.symm (folded_steps_ne_dot hq hpf)
  · rw [hp, hq, h]

/-- Normal paths that compare equal are equal. -/
theorem IsNormal.eq_of_compare {p q : Path} (hp : p.IsNormal) (hq : q.IsNormal)
    (h : compare p q = .eq) : p = q :=
  hp.eq_of_steps hq (compare_eq_iff.1 h)

/-! ## Tables keyed by normal paths -/

section Tables

variable {β : Type} {t : Table Path β} (ht : ∀ q ∈ t.keys, q.IsNormal) {p : Path} (hp : p.IsNormal)

include ht hp in
theorem mem_entries_iff_find? {v : β} : (p, v) ∈ t.entries ↔ t.find? p = some v := by
  refine ⟨t.find?_of_mem, fun h => ?_⟩
  obtain ⟨q, hq, heq⟩ := t.find?_eq_some_iff.1 h
  rwa [hp.eq_of_compare (ht q (Table.mem_keys_of_mem hq)) heq]

include ht hp in
theorem mem_keys_iff_contains : p ∈ t.keys ↔ t.contains p = true := by
  rw [Table.mem_keys_iff, t.contains_iff_find?]
  exact exists_congr fun v => mem_entries_iff_find? ht hp

end Tables

end Path

end Recompile
