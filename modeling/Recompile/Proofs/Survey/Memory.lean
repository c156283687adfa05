import Recompile.Proofs.Survey.Fresh

/-!
# What a search path remembers

A search path is asked again and again, while files come and go. It remembers each test it makes, so
what it answers hangs on all that it was asked before. This module says what the answers are without
speaking of a memory (`SearchPath.Call.location`). A call looks at its candidates in order up to the
one it finds; whether a candidate is a file is taken from the disk of the first call that looked at
it, and from the present disk if there is none. The calls before are known by where they led
(`SearchPath.history`), and that is all there is to know of them.

The memory holds just that (`Mirrors`): the tests of the candidates that were looked at, each as it
came out the first time. One call keeps this (`Mirrors.next`), and so do any calls after each other
(`mirrors_after`). While the disk stays as it is no answer depends on what was asked before
(`SearchPath.answer_firstTested`).
-/

namespace Recompile

namespace SearchPath

/-! ## Calls -/

/-- What is asked of a search path. -/
inductive Ask where
  | locate
  | resolve
  /-- With the digests that a caller has. -/
  | resolveWith (digest? : Path → Option Digest)

/-- A call of a search path: what is asked about which directive, and the disk at that time. -/
structure Call where
  disk : Disk
  directive : Directive
  includer : Path
  ask : Ask

inductive Answer where
  | location (l : Location)
  | inclusion (i : Include)

/-- Answers a call. -/
def answer (s : SearchPath) (c : Call) : Answer × SearchPath :=
  match c.ask with
  | .locate =>
    let (l, s) := s.locate c.disk c.directive c.includer
    (.location l, s)
  | .resolve =>
    let (i, s) := (s.resolve c.disk c.directive c.includer).value
    (.inclusion i, s)
  | .resolveWith digest? =>
    let (i, s) := s.resolveWith c.disk digest? c.directive c.includer
    (.inclusion i, s)

/-- A new search path after some calls. -/
def after (roots : List Path) (calls : List Call) : SearchPath :=
  calls.foldl (fun s c => (s.answer c).2) (ofRoots roots)

/-- The outcome of a directive, with a callback for the digest of its header that may do anything
else on the way. -/
def resolveBy {m : Type → Type} [Monad m] (disk : Disk) (digest? : Path → m (Option Digest))
    (s : SearchPath) (d : Directive) (includer : Path) : m (Include × SearchPath) :=
  let (location, s) := s.locate disk d includer
  match location with
  | .found p => do
    let digest ← digest? p
    pure (⟨d, location.outcome fun _ => digest⟩, s)
  | _ => pure (⟨d, location.outcome fun _ => none⟩, s)

/-- Reads a header for its digest, and reports one that cannot be read. -/
def digestOf (disk : Disk) (p : Path) : Logged (Option Digest) := do
  match disk.read p with
  | .ok content => pure (some (.ofContent content))
  | .error e => do
    Logged.report (.headerUnreadable p e)
    pure none

/-! ## Answers without a memory -/

namespace Call

/-- The paths that the directive may stand for, in order. -/
def candidates (roots : List Path) (c : Call) : List Path :=
  SearchPath.candidates roots c.directive c.includer

/-- The candidates that a call has looked at which led there. -/
def looked (roots : List Path) (c : Call) : Location → List Path
  | .found p => (c.candidates roots).takeWhile (fun q => !(q == p)) ++ [p]
  | .notFound => c.candidates roots
  | .notStatic => []

/-- The disk of the first call that looked at a path, if there is one. -/
def firstDisk? (roots : List Path) (earlier : List (Call × Location)) (p : Path) : Option Disk :=
  (earlier.find? fun e => (e.1.looked roots e.2).any (· == p)).map (·.1.disk)

/-- Whether a path was a file when it was first looked at, which may be now. -/
def isFile (roots : List Path) (earlier : List (Call × Location)) (c : Call) (p : Path) : Bool :=
  ((firstDisk? roots earlier p).getD c.disk).isFile p

/-- Where the directive of a call leads if these candidates are files: to the first that is. -/
def leads (roots : List Path) (c : Call) (isFile : Path → Bool) : Location :=
  match c.directive.form with
  | .expression => .notStatic
  | _ => ((c.candidates roots).find? isFile).elim .notFound .found

/-- Where the directive of a call leads, by the calls before. -/
def location (roots : List Path) (earlier : List (Call × Location)) (c : Call) : Location :=
  c.leads roots (c.isFile roots earlier)

/-- The answer to a call that leads there. -/
def answerAt (c : Call) (l : Location) : Answer :=
  match c.ask with
  | .locate => .location l
  | .resolve => .inclusion ⟨c.directive, l.outcome c.disk.digest?⟩
  | .resolveWith digest? => .inclusion ⟨c.directive, l.outcome digest?⟩

end Call

/-- Some calls in order, each with where it leads by those before it. -/
def history (roots : List Path) (calls : List Call) : List (Call × Location) :=
  calls.foldl (fun earlier c => earlier ++ [(c, c.location roots earlier)]) []

/-! ## One call -/

section Test

variable {disk disk' : Disk} {s : SearchPath}

/-- What a test comes to: what is remembered of the path, or what the disk says. -/
def verdict (disk : Disk) (s : SearchPath) (p : Path) : Bool :=
  (s.known.find? p).getD (disk.isFile p)

theorem test_of_known {p : Path} {is : Bool} (h : s.known.find? p = some is) :
    s.test disk p = (is, s) := by
  unfold test
  rw [h]

theorem test_of_new {p : Path} (h : s.known.find? p = none) :
    s.test disk p = (disk.isFile p, { s with known := s.known.insert p (disk.isFile p) }) := by
  unfold test
  rw [h]

theorem test_fst (p : Path) : (s.test disk p).1 = s.verdict disk p := by
  unfold verdict
  cases hknown : s.known.find? p with
  | some is => rw [test_of_known hknown]; rfl
  | none => rw [test_of_new hknown]; rfl

theorem roots_test (p : Path) : (s.test disk p).2.roots = s.roots := by
  cases hknown : s.known.find? p with
  | some is => rw [test_of_known hknown]
  | none => rw [test_of_new hknown]

/-- A test adds itself to what is remembered, unless the path was tested before. -/
theorem find?_test {p q : Path} (hp : p.IsNormal) (hq : q.IsNormal) :
    (s.test disk p).2.known.find? q =
      (s.known.find? q).or (if p == q then some (disk.isFile q) else none) := by
  have hiff : (p == q) = true ↔ compare q p = .eq := by
    rw [Path.beq_iff, Path.compare_eq_iff, eq_comm]
  by_cases heq : (p == q) = true
  · rw [if_pos heq]
    obtain rfl := hp.eq_of_steps hq (Path.beq_iff.1 heq)
    cases hknown : s.known.find? p with
    | some is => rw [test_of_known hknown, hknown, Option.some_or]
    | none => rw [test_of_new hknown, Table.find?_insert, if_pos (hiff.1 heq), Option.none_or]
  · rw [if_neg heq, Option.or_none]
    cases hknown : s.known.find? p with
    | some is => rw [test_of_known hknown]
    | none => rw [test_of_new hknown, Table.find?_insert, if_neg (mt hiff.2 heq)]

/-- A test does not change what it, or another one, comes to. -/
theorem verdict_test {p q : Path} (hp : p.IsNormal) (hq : q.IsNormal) :
    (s.test disk p).2.verdict disk q = s.verdict disk q := by
  unfold verdict
  rw [find?_test hp hq]
  cases s.known.find? q with
  | some is => rfl
  | none => cases p == q <;> rfl

theorem firstOf_of_hit {p : Path} (h : s.verdict disk p = true) (cs : List Path) :
    s.firstOf disk (p :: cs) = (some p, (s.test disk p).2) := by
  rw [← test_fst] at h
  rcases htest : s.test disk p with ⟨is, t⟩
  rw [htest] at h
  simp only at h
  rw [firstOf, htest, h]

theorem firstOf_of_miss {p : Path} (h : s.verdict disk p = false) (cs : List Path) :
    s.firstOf disk (p :: cs) = (s.test disk p).2.firstOf disk cs := by
  rw [← test_fst] at h
  rcases htest : s.test disk p with ⟨is, t⟩
  rw [htest] at h
  simp only at h
  rw [firstOf, htest, h]

/-- The candidates up to the one that is found. -/
def upTo (cs : List Path) : Option Path → List Path
  | some p => cs.takeWhile (fun q => !(q == p)) ++ [p]
  | none => cs

section UpTo

variable {p : Path} {cs : List Path} {isFile : Path → Bool}

theorem upTo_find?_of_hit (h : isFile p = true) :
    upTo (p :: cs) ((p :: cs).find? isFile) = [p] := by
  rw [List.find?_cons_of_pos h]
  simp [upTo]

/-- A candidate that is no file comes before the one found. -/
theorem upTo_find?_of_miss (hcs : ∀ q ∈ p :: cs, q.IsNormal) (h : isFile p = false) :
    upTo (p :: cs) ((p :: cs).find? isFile) = p :: upTo cs (cs.find? isFile) := by
  rw [List.find?_cons_of_neg (by simp [h])]
  cases hfound : cs.find? isFile with
  | none => rfl
  | some q =>
    have hne : (p == q) = false := by
      rw [← Bool.not_eq_true]
      intro heq
      have hq : q ∈ p :: cs := List.mem_cons_of_mem p (List.mem_of_find?_eq_some hfound)
      obtain rfl := (hcs p List.mem_cons_self).eq_of_steps (hcs q hq) (Path.beq_iff.1 heq)
      cases h.symm.trans (List.find?_some hfound)
    rw [upTo, List.takeWhile_cons, hne, Bool.not_false, if_pos rfl, List.cons_append, upTo]

theorem mem_of_mem_upTo {q : Path} (h : q ∈ upTo cs (cs.find? isFile)) : q ∈ cs := by
  cases hfound : cs.find? isFile with
  | none => rwa [hfound] at h
  | some p =>
    rw [hfound] at h
    rcases List.mem_append.1 h with h | h
    · exact (List.takeWhile_sublist _).subset h
    · rw [List.mem_singleton.1 h]
      exact List.mem_of_find?_eq_some hfound

end UpTo

/-- The first candidate that the tests say is a file is found, and the candidates up to it have been
tested then. -/
theorem firstOf_spec {cs : List Path} (hcs : ∀ p ∈ cs, p.IsNormal) {isFile : Path → Bool}
    (hfile : ∀ p ∈ cs, s.verdict disk p = isFile p) :
    (s.firstOf disk cs).1 = cs.find? isFile ∧ (s.firstOf disk cs).2.roots = s.roots ∧
      ∀ q, q.IsNormal → (s.firstOf disk cs).2.known.find? q = (s.known.find? q).or
        (if (upTo cs (cs.find? isFile)).any (· == q) then some (disk.isFile q) else none) := by
  induction cs generalizing s with
  | nil => exact ⟨rfl, rfl, fun q _ => (Option.or_none).symm⟩
  | cons p cs ih =>
    obtain ⟨hp, hrest⟩ := List.forall_mem_cons.1 hcs
    obtain ⟨hverdict, hothers⟩ := List.forall_mem_cons.1 hfile
    cases his : isFile p with
    | true =>
      rw [firstOf_of_hit (hverdict.trans his), upTo_find?_of_hit his, List.find?_cons_of_pos his]
      refine ⟨rfl, roots_test p, fun q hq => ?_⟩
      rw [find?_test hp hq, List.any_cons, List.any_nil, Bool.or_false]
    | false =>
      obtain ⟨hfound, hroots, hknown⟩ := ih (s := (s.test disk p).2) hrest fun q hq =>
        (verdict_test hp (hrest q hq)).trans (hothers q hq)
      rw [firstOf_of_miss (hverdict.trans his), upTo_find?_of_miss hcs his,
        List.find?_cons_of_neg (by simp [his])]
      refine ⟨hfound, hroots.trans (roots_test p), fun q hq => ?_⟩
      rw [hknown q hq, find?_test hp hq, Option.or_assoc, List.any_cons]
      cases p == q with
      | true => simp
      | false => simp

/-- The disk is asked only about candidates that are looked at and were not tested before. -/
theorem firstOf_congr {cs : List Path} (hcs : ∀ p ∈ cs, p.IsNormal) {isFile : Path → Bool}
    (hfile : ∀ p ∈ cs, s.verdict disk p = isFile p)
    (h : ∀ p ∈ upTo cs (cs.find? isFile), s.known.find? p = none →
      disk'.isFile p = disk.isFile p) :
    s.firstOf disk' cs = s.firstOf disk cs := by
  induction cs generalizing s with
  | nil => rfl
  | cons p cs ih =>
    obtain ⟨hp, hrest⟩ := List.forall_mem_cons.1 hcs
    obtain ⟨hverdict, hothers⟩ := List.forall_mem_cons.1 hfile
    have htest (hasked : s.known.find? p = none → disk'.isFile p = disk.isFile p) :
        s.test disk' p = s.test disk p := by
      cases hknown : s.known.find? p with
      | some is => rw [test_of_known hknown, test_of_known hknown]
      | none => rw [test_of_new hknown, test_of_new hknown, hasked hknown]
    have hverdict' (hsame : s.test disk' p = s.test disk p) : s.verdict disk' p = isFile p := by
      rw [← hverdict, ← test_fst, ← test_fst, hsame]
    cases his : isFile p with
    | true =>
      rw [upTo_find?_of_hit his] at h
      have hsame := htest (h p List.mem_cons_self)
      rw [firstOf_of_hit (hverdict.trans his), firstOf_of_hit ((hverdict' hsame).trans his), hsame]
    | false =>
      rw [upTo_find?_of_miss hcs his] at h
      obtain ⟨hasked, hlater⟩ := List.forall_mem_cons.1 h
      have hsame := htest hasked
      rw [firstOf_of_miss (hverdict.trans his), firstOf_of_miss ((hverdict' hsame).trans his), hsame]
      refine ih hrest (fun q hq => (verdict_test hp (hrest q hq)).trans (hothers q hq))
        fun q hq hnew => hlater q hq ?_
      rw [find?_test hp (hrest q (mem_of_mem_upTo hq)), Option.or_eq_none_iff] at hnew
      exact hnew.1

/-- A directive that names a header leads to the first candidate that is a file. -/
theorem locate_of_static {d : Directive} (h : d.form ≠ .expression) (includer : Path) :
    s.locate disk d includer =
      ((s.firstOf disk (candidates s.roots d includer)).1.elim .notFound .found,
        (s.firstOf disk (candidates s.roots d includer)).2) := by
  unfold locate
  split
  · next hform => exact absurd hform h
  · split <;> next hfirst => rw [hfirst]; rfl

theorem Call.leads_of_static {roots : List Path} {c : Call} (h : c.directive.form ≠ .expression)
    (isFile : Path → Bool) :
    c.leads roots isFile = ((c.candidates roots).find? isFile).elim .notFound .found := by
  unfold leads
  split
  · next hform => exact absurd hform h
  · rfl

theorem Call.looked_elim (roots : List Path) (c : Call) (found : Option Path) :
    c.looked roots (found.elim .notFound .found) = upTo (c.candidates roots) found := by
  cases found <;> rfl

/-- Where a call leads, and what is remembered afterwards. -/
theorem locate_spec (s : SearchPath) (c : Call) {isFile : Path → Bool}
    (hfile : ∀ p ∈ c.candidates s.roots, s.verdict c.disk p = isFile p) :
    (s.locate c.disk c.directive c.includer).1 = c.leads s.roots isFile ∧
      (s.locate c.disk c.directive c.includer).2.roots = s.roots ∧
      ∀ q, q.IsNormal → (s.locate c.disk c.directive c.includer).2.known.find? q =
        (s.known.find? q).or (if (c.looked s.roots (c.leads s.roots isFile)).any (· == q) then
          some (c.disk.isFile q) else none) := by
  by_cases hform : c.directive.form = .expression
  · have hlocate : s.locate c.disk c.directive c.includer = (.notStatic, s) := by
      unfold locate
      rw [hform]
    have hleads : c.leads s.roots isFile = .notStatic := by
      unfold Call.leads
      rw [hform]
    rw [hlocate, hleads]
    exact ⟨rfl, rfl, fun q _ => (Option.or_none).symm⟩
  · obtain ⟨hfound, hroots, hknown⟩ := firstOf_spec
      (fun p (hp : p ∈ c.candidates s.roots) => Disk.candidates_normal hp) hfile
    rw [locate_of_static hform, Call.leads_of_static hform, Call.looked_elim]
    exact ⟨congrArg (fun found => Option.elim found _ _) hfound, hroots, hknown⟩

/-- The disk is asked only about candidates that are looked at and were not tested before. -/
theorem locate_congr (s : SearchPath) (c : Call) {isFile : Path → Bool}
    (hfile : ∀ p ∈ c.candidates s.roots, s.verdict c.disk p = isFile p)
    (h : ∀ p ∈ c.looked s.roots (c.leads s.roots isFile), s.known.find? p = none →
      disk.isFile p = c.disk.isFile p) :
    s.locate disk c.directive c.includer = s.locate c.disk c.directive c.includer := by
  by_cases hform : c.directive.form = .expression
  · unfold locate
    rw [hform]
  · rw [Call.leads_of_static hform, Call.looked_elim] at h
    have hsame := firstOf_congr
      (fun p (hp : p ∈ c.candidates s.roots) => Disk.candidates_normal hp) hfile h
    rw [locate_of_static hform, locate_of_static hform]
    exact congrArg (fun r => (Option.elim r.1 Location.notFound Location.found, r.2)) hsame

end Test

/-! ## Callbacks -/

section ResolveBy

variable {disk : Disk} {s : SearchPath} {d : Directive} {includer : Path}

/-- Digests that are there already need no callback. -/
theorem resolveWith_eq_resolveBy (digest? : Path → Option Digest) :
    s.resolveWith disk digest? d includer =
      Id.run (s.resolveBy disk (fun p => pure (digest? p)) d includer) := by
  unfold resolveWith resolveBy
  rcases s.locate disk d includer with ⟨_ | _ | _, s'⟩ <;> rfl

/-- Resolving a directive reads the header that is found. -/
theorem resolve_eq_resolveBy :
    s.resolve disk d includer = s.resolveBy disk (digestOf disk) d includer := by
  unfold resolve resolveBy digestOf
  rcases s.locate disk d includer with ⟨p | _ | _, s'⟩
  · dsimp only
    cases disk.read p <;> rfl
  · rfl
  · rfl

/-- The callback is called once, with the header that is found, or else not at all. -/
theorem state_resolveBy {σ : Type} (digest? : Path → StateM σ (Option Digest)) (x : σ) :
    ((s.resolveBy disk digest? d includer).run x).2 =
      match (s.locate disk d includer).1 with
      | .found p => ((digest? p).run x).2
      | _ => x := by
  unfold resolveBy
  rcases s.locate disk d includer with ⟨_ | _ | _, s'⟩ <;> rfl

end ResolveBy

/-! ## Calls after each other -/

theorem answer_fst (s : SearchPath) (c : Call) :
    (s.answer c).1 = c.answerAt (s.locate c.disk c.directive c.includer).1 := by
  unfold answer Call.answerAt
  cases c.ask with
  | locate => rfl
  | resolve =>
    exact congrArg (fun r => Answer.inclusion r.1) (value_resolve c.disk s c.directive c.includer)
  | resolveWith digest? => rfl

theorem answer_snd (s : SearchPath) (c : Call) :
    (s.answer c).2 = (s.locate c.disk c.directive c.includer).2 := by
  unfold answer
  cases c.ask with
  | locate => rfl
  | resolve => exact congrArg Prod.snd (value_resolve c.disk s c.directive c.includer)
  | resolveWith digest? => rfl

/-- Only candidates are looked at, so only normal paths. -/
theorem Call.looked_normal {roots : List Path} {c : Call} {isFile : Path → Bool} {p : Path}
    (h : p ∈ c.looked roots (c.leads roots isFile)) : p.IsNormal := by
  by_cases hform : c.directive.form = .expression
  · unfold leads at h
    rw [hform] at h
    cases h
  · rw [leads_of_static hform, looked_elim] at h
    exact Disk.candidates_normal (mem_of_mem_upTo h)

/-- A header is found under its normal name, also one that is only remembered. -/
theorem normal_of_locate {disk : Disk} {s : SearchPath} {d : Directive} {includer p : Path}
    (h : (s.locate disk d includer).1 = .found p) : p.IsNormal := by
  let c : Call := ⟨disk, d, includer, .locate⟩
  have hleads : c.leads s.roots (s.verdict disk) = .found p :=
    (s.locate_spec c fun _ _ => rfl).1.symm.trans h
  have hlooked : p ∈ c.looked s.roots (c.leads s.roots (s.verdict disk)) := by
    rw [hleads]
    exact List.mem_append_right _ (List.mem_singleton_self p)
  exact Call.looked_normal hlooked

/-- The last call is the first to look at a path that none before it has looked at. -/
theorem Call.firstDisk?_append {roots : List Path} {earlier : List (Call × Location)} {c : Call}
    {l : Location} {p : Path} :
    firstDisk? roots (earlier ++ [(c, l)]) p = (firstDisk? roots earlier p).or
      (if (c.looked roots l).any (· == p) then some c.disk else none) := by
  unfold firstDisk?
  rw [List.find?_append, Option.map_or, List.find?_singleton]
  cases (c.looked roots l).any (· == p) <;> rfl

/-- The memory is what the calls before have looked at, each path as it was the first time. -/
structure Mirrors (roots : List Path) (earlier : List (Call × Location)) (s : SearchPath) :
    Prop where
  roots_eq : s.roots = roots
  find?_known : ∀ p, p.IsNormal →
    s.known.find? p = (Call.firstDisk? roots earlier p).map (·.isFile p)

namespace Mirrors

variable {roots : List Path} {earlier : List (Call × Location)} {s : SearchPath}

theorem verdict_eq (h : Mirrors roots earlier s) (c : Call) {p : Path} (hp : p.IsNormal) :
    s.verdict c.disk p = c.isFile roots earlier p := by
  unfold verdict Call.isFile
  rw [h.find?_known p hp]
  cases Call.firstDisk? roots earlier p <;> rfl

/-- A call leads where the calls before it say. -/
theorem locate_eq (h : Mirrors roots earlier s) (c : Call) :
    (s.locate c.disk c.directive c.includer).1 = c.location roots earlier := by
  obtain ⟨rfl, hknown⟩ := h
  exact (s.locate_spec c fun p hp =>
    verdict_eq ⟨rfl, hknown⟩ c (Disk.candidates_normal hp)).1

/-- A call asks the disk about the paths that it is the first to look at. -/
theorem locate_congr (h : Mirrors roots earlier s) (c : Call) {disk : Disk}
    (hdisk : ∀ p ∈ c.looked roots (c.location roots earlier),
      Call.firstDisk? roots earlier p = none → disk.isFile p = c.disk.isFile p) :
    s.locate disk c.directive c.includer = s.locate c.disk c.directive c.includer := by
  obtain ⟨rfl, hknown⟩ := h
  refine s.locate_congr c (fun p hp => verdict_eq ⟨rfl, hknown⟩ c (Disk.candidates_normal hp))
    fun p hp hnew => hdisk p hp ?_
  rw [hknown p (Call.looked_normal hp)] at hnew
  exact Option.map_eq_none_iff.1 hnew

/-- Afterwards a call is one of those before. -/
theorem next (h : Mirrors roots earlier s) (c : Call) :
    Mirrors roots (earlier ++ [(c, c.location roots earlier)]) (s.answer c).2 := by
  obtain ⟨rfl, hknown⟩ := h
  obtain ⟨-, hroots, hknown'⟩ := s.locate_spec c fun p hp =>
    verdict_eq ⟨rfl, hknown⟩ c (Disk.candidates_normal hp)
  rw [answer_snd]
  refine ⟨hroots, fun p hp => ?_⟩
  rw [hknown' p hp, hknown p hp, Call.firstDisk?_append, Option.map_or]
  unfold Call.location
  congr 1
  split <;> rfl

/-- So it is from the first call on. -/
theorem foldl (h : Mirrors roots earlier s) (calls : List Call) :
    Mirrors roots
      (calls.foldl (fun earlier c => earlier ++ [(c, c.location roots earlier)]) earlier)
      (calls.foldl (fun s c => (s.answer c).2) s) := by
  induction calls generalizing earlier s with
  | nil => exact h
  | cons c calls ih => exact ih (h.next c)

end Mirrors

theorem mirrors_new (roots : List Path) : Mirrors roots [] (ofRoots roots) where
  roots_eq := rfl
  find?_known _ _ := rfl

theorem mirrors_after (roots : List Path) (calls : List Call) :
    Mirrors roots (history roots calls) (after roots calls) := by
  unfold history after
  exact (mirrors_new roots).foldl calls

theorem history_calls (roots : List Path) (calls : List Call) :
    (history roots calls).map (·.1) = calls := by
  suffices ∀ earlier : List (Call × Location),
      (calls.foldl (fun earlier c => earlier ++ [(c, c.location roots earlier)]) earlier).map (·.1) =
        earlier.map (·.1) ++ calls from this []
  induction calls with
  | nil => exact fun earlier => (List.append_nil _).symm
  | cons c calls ih =>
    intro earlier
    rw [List.foldl_cons, ih, List.map_append, List.append_assoc]
    rfl

/-- On a disk that stays as it is, the calls before do not matter. -/
theorem Call.location_of_same {roots : List Path} {earlier : List (Call × Location)} {c : Call}
    (h : ∀ e ∈ earlier, e.1.disk = c.disk) : c.location roots earlier = c.location roots [] := by
  have hfile : c.isFile roots earlier = c.isFile roots [] := by
    funext p
    unfold isFile firstDisk?
    cases hfirst : earlier.find? fun e => (e.1.looked roots e.2).any (· == p) with
    | none => rfl
    | some e => exact congrArg (Disk.isFile · p) (h e (List.mem_of_find?_eq_some hfirst))
  unfold location
  rw [hfile]

/-- **Memory of tests.** What a search path answers after any calls, with any changes of the disk
between them: a call leads to the first of its candidates that was a file when it was first looked
at, and to none if none was; only the candidates up to that one are looked at, and none if the
directive names no header. The disk is asked about no other candidate, nor about one that was looked
at before. A callback for the digest, of which both ways to resolve a directive make use, is called
once, with the header that is found, or not at all. If the disk was the same in all calls the answer
is that of a new search path. -/
theorem answer_firstTested (roots : List Path) (calls : List Call) (c : Call) :
    let earlier := history roots calls
    let s := after roots calls
    let l := c.location roots earlier
    (s.answer c).1 = c.answerAt l ∧
    (∀ p, p.IsNormal →
      (s.answer c).2.known.find? p =
        (Call.firstDisk? roots (earlier ++ [(c, l)]) p).map (·.isFile p)) ∧
    (∀ disk : Disk,
      (∀ p ∈ c.looked roots l, Call.firstDisk? roots earlier p = none →
        disk.isFile p = c.disk.isFile p) →
      s.locate disk c.directive c.includer = s.locate c.disk c.directive c.includer) ∧
    (∀ (σ : Type) (digest? : Path → StateM σ (Option Digest)) (x : σ),
      ((s.resolveBy c.disk digest? c.directive c.includer).run x).2 =
        match l with
        | .found p => ((digest? p).run x).2
        | _ => x) ∧
    (s.resolve c.disk c.directive c.includer =
        s.resolveBy c.disk (digestOf c.disk) c.directive c.includer ∧
      ∀ digest? : Path → Option Digest, s.resolveWith c.disk digest? c.directive c.includer =
        Id.run (s.resolveBy c.disk (fun p => pure (digest? p)) c.directive c.includer)) ∧
    ((∀ e ∈ calls, e.disk = c.disk) → (s.answer c).1 = ((ofRoots roots).answer c).1) := by
  intro earlier s l
  have hmirrors : Mirrors roots earlier s := mirrors_after roots calls
  have hanswer : (s.answer c).1 = c.answerAt l := by
    rw [answer_fst, hmirrors.locate_eq]
  refine ⟨hanswer, (hmirrors.next c).find?_known, fun disk => hmirrors.locate_congr c,
    fun σ digest? x => ?_, ⟨resolve_eq_resolveBy, resolveWith_eq_resolveBy⟩, fun hsame => ?_⟩
  · rw [state_resolveBy, hmirrors.locate_eq]
  · have hearlier : ∀ e ∈ earlier, e.1.disk = c.disk := fun e he =>
      hsame e.1 (history_calls roots calls ▸ List.mem_map_of_mem he)
    rw [hanswer, answer_fst, (mirrors_new roots).locate_eq]
    exact congrArg c.answerAt (Call.location_of_same hearlier)

/-- A header that is gone is still found, although one has come up before it. -/
theorem answer_firstTested_gone :
    let roots := [Path.ofText "/i"]
    let d : Directive := ⟨"h.h", .quoted, .includes⟩
    let before : Disk := .ofFiles [("/i/h.h", "")]
    let now : Disk := .ofFiles [("/p/h.h", "")]
    let first : Call := ⟨before, d, .ofText "/p/a.c", .locate⟩
    let s := after roots [first]
    (s.answer { first with disk := now }).1 = .location (.found (.ofText "/i/h.h")) ∧
      now.isFile (.ofText "/i/h.h") = false ∧ now.isFile (.ofText "/p/h.h") = true ∧
      (s.answer { first with ask := .resolve }).1 =
        ((ofRoots roots).answer { first with ask := .resolve }).1 ∧
      ∀ disk : Disk, s.locate disk d (.ofText "/p/a.c") = s.locate now d (.ofText "/p/a.c") := by
  intro roots d before now first s
  let second : Call := { first with disk := now }
  obtain ⟨hanswer, -, hasked, -, -, -⟩ := answer_firstTested roots [first] second
  obtain ⟨-, -, -, -, -, hsame⟩ :=
    answer_firstTested roots [first] { first with ask := .resolve }
  have hfound : ((second.candidates roots).find?
      (second.isFile roots (history roots [first]))).map Path.text = some "/i/h.h" := by
    decide +kernel
  have hlooked : ∀ p ∈ second.looked roots (second.location roots (history roots [first])),
      (Call.firstDisk? roots (history roots [first]) p).isSome = true :=
    List.all_eq_true.1 (by decide +kernel)
  obtain ⟨p, hp, htext⟩ := Option.map_eq_some_iff.1 hfound
  obtain rfl : p = .ofText "/i/h.h" := Path.ext htext
  refine ⟨?_, by decide +kernel, by decide +kernel, hsame ?_, fun disk => ?_⟩
  · rw [hanswer, Call.location, Call.leads_of_static (by decide), hp]
    rfl
  · intro e he
    rw [List.mem_singleton.1 he]
  · refine hasked disk fun p hp hnew => ?_
    exact absurd hnew (Option.isSome_iff_ne_none.1 (hlooked p hp))

end SearchPath

end Recompile
