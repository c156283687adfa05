/-!
# Tables in key order

A `Table` is a finite map whose entries stand in the order of their keys. Keys that compare equal
are one key even when they are written differently, as two spellings of a path are: `insert` keeps
the key that came first and takes the new value, which is why the tables of this library are not the
standard ones. A set is a table without values.

`find?_insert` and `find?_erase` say what the two changes do to a look-up.
-/

namespace Recompile

/-- A finite map with its entries in strictly increasing key order. -/
structure Table (κ β : Type) [Ord κ] where
  entries : List (κ × β)
  ordered : entries.Pairwise fun x y => compare x.1 y.1 = .lt

/-- A set is a table that holds nothing but its keys. -/
abbrev KeySet (κ : Type) [Ord κ] := Table κ Unit

namespace Table

variable {κ β : Type} [Ord κ]

instance [BEq κ] [BEq β] : BEq (Table κ β) := ⟨fun s t => s.entries == t.entries⟩

theorem ext {s t : Table κ β} (h : s.entries = t.entries) : s = t := by
  cases s
  cases t
  cases h
  rfl

/-! ## Reading -/

def empty : Table κ β := ⟨[], .nil⟩

instance : EmptyCollection (Table κ β) := ⟨empty⟩

/-- The value of the first entry whose key compares equal to `k`. -/
def lookup (k : κ) : List (κ × β) → Option β
  | [] => none
  | e :: rest => if compare k e.1 = .eq then some e.2 else lookup k rest

def find? (t : Table κ β) (k : κ) : Option β := lookup k t.entries

def contains (t : Table κ β) (k : κ) : Bool := (t.find? k).isSome

/-- The keys in increasing order, each as it was first written. -/
def keys (t : Table κ β) : List κ := t.entries.map (·.1)

/-- The values in the order of their keys. -/
def values (t : Table κ β) : List β := t.entries.map (·.2)

def size (t : Table κ β) : Nat := t.entries.length

def isEmpty (t : Table κ β) : Bool := t.entries.isEmpty

/-! ## Changing -/

/-- Puts `v` under `k`; an entry under an equal key keeps its own spelling of the key. -/
def insertEntry (k : κ) (v : β) : List (κ × β) → List (κ × β)
  | [] => [(k, v)]
  | e :: rest =>
    match compare k e.1 with
    | .lt => (k, v) :: e :: rest
    | .eq => (e.1, v) :: rest
    | .gt => e :: insertEntry k v rest

theorem insertEntry_key {k : κ} {v : β} {es : List (κ × β)} {x : κ × β}
    (h : x ∈ insertEntry k v es) : x.1 = k ∨ ∃ e ∈ es, e.1 = x.1 := by
  induction es with
  | nil => simp_all [insertEntry]
  | cons e rest ih =>
    simp only [insertEntry] at h
    split at h
    · rcases List.mem_cons.1 h with rfl | h
      · exact .inl rfl
      · exact .inr ⟨x, h, rfl⟩
    · rcases List.mem_cons.1 h with rfl | h
      · exact .inr ⟨e, List.mem_cons_self, rfl⟩
      · exact .inr ⟨x, List.mem_cons_of_mem _ h, rfl⟩
    · rcases List.mem_cons.1 h with rfl | h
      · exact .inr ⟨x, List.mem_cons_self, rfl⟩
      · rcases ih h with h | ⟨y, hy, hk⟩
        · exact .inl h
        · exact .inr ⟨y, List.mem_cons_of_mem _ hy, hk⟩

theorem insertEntry_ordered [Std.TransOrd κ] (k : κ) (v : β) {es : List (κ × β)}
    (h : es.Pairwise fun x y => compare x.1 y.1 = .lt) :
    (insertEntry k v es).Pairwise fun x y => compare x.1 y.1 = .lt := by
  induction es with
  | nil => simp [insertEntry]
  | cons e rest ih =>
    obtain ⟨he, hrest⟩ := List.pairwise_cons.1 h
    simp only [insertEntry]
    split
    · next hk =>
      refine List.pairwise_cons.2 ⟨?_, h⟩
      intro y hy
      rcases List.mem_cons.1 hy with rfl | hy
      · exact hk
      · exact Std.TransCmp.lt_trans hk (he y hy)
    · exact List.pairwise_cons.2 ⟨fun y hy => he y hy, hrest⟩
    · next hk =>
      refine List.pairwise_cons.2 ⟨?_, ih hrest⟩
      intro y hy
      rcases insertEntry_key hy with hy | ⟨z, hz, hzy⟩
      · rw [hy]
        exact Std.OrientedCmp.lt_of_gt hk
      · rw [← hzy]
        exact he z hz

/-- Puts `v` under `k`, in place of the value there, if there is one. -/
def insert [Std.TransOrd κ] (t : Table κ β) (k : κ) (v : β) : Table κ β :=
  ⟨insertEntry k v t.entries, insertEntry_ordered k v t.ordered⟩

def filter (p : κ → β → Bool) (t : Table κ β) : Table κ β :=
  ⟨t.entries.filter fun e => p e.1 e.2, t.ordered.filter _⟩

def erase (t : Table κ β) (k : κ) : Table κ β := t.filter fun x _ => compare k x != .eq

/-- The table of the given entries, put in from left to right. -/
def ofList [Std.TransOrd κ] (es : List (κ × β)) : Table κ β :=
  es.foldl (fun t e => t.insert e.1 e.2) ∅

/-! ## Sets -/

/-- Adds `k`; a member that compares equal to it stays as it is. -/
def add [Std.TransOrd κ] (s : KeySet κ) (k : κ) : KeySet κ := s.insert k ()

def addAll [Std.TransOrd κ] (s : KeySet κ) (ks : List κ) : KeySet κ := ks.foldl add s

/-- The set of the elements of a list; of equal ones the first gives the spelling. -/
def setOf [Std.TransOrd κ] (ks : List κ) : KeySet κ := addAll ∅ ks

/-- The set of the elements of a list; of equal ones the last gives the spelling. -/
def setOfLast [Std.TransOrd κ] (ks : List κ) : KeySet κ := setOf ks.reverse

def difference (s : KeySet κ) (t : Table κ β) : KeySet κ := s.filter fun k _ => !t.contains k

/-! ## Look-ups after a change -/

theorem lookup_insertEntry [Std.TransOrd κ] (k : κ) (v : β) (es : List (κ × β)) (x : κ)
    (h : es.Pairwise fun x y => compare x.1 y.1 = .lt) :
    lookup x (insertEntry k v es) = if compare x k = .eq then some v else lookup x es := by
  induction es with
  | nil => simp [insertEntry, lookup]
  | cons e rest ih =>
    obtain ⟨he, hrest⟩ := List.pairwise_cons.1 h
    simp only [insertEntry]
    split
    · simp [lookup]
    · next hk =>
      have hx : (compare x e.1 = .eq) ↔ (compare x k = .eq) :=
        ⟨fun hx => Std.TransCmp.eq_trans hx (Std.OrientedCmp.eq_symm hk),
          fun hx => Std.TransCmp.eq_trans hx hk⟩
      by_cases hxk : compare x k = .eq
      · simp [lookup, hx.2 hxk, hxk]
      · simp [lookup, hxk, mt hx.1 hxk]
    · next hk =>
      by_cases hxe : compare x e.1 = .eq
      · have hxk : compare x k ≠ .eq := by
          intro hxk
          have hke : compare k e.1 = .eq :=
            Std.TransCmp.eq_trans (Std.OrientedCmp.eq_symm hxk) hxe
          rw [hk] at hke
          cases hke
        simp [lookup, hxe, hxk]
      · simp [lookup, hxe, ih hrest]

/-- After an insertion the key, however spelled, has the new value and no other key has changed. -/
theorem find?_insert [Std.TransOrd κ] (t : Table κ β) (k : κ) (v : β) (x : κ) :
    (t.insert k v).find? x = if compare x k = .eq then some v else t.find? x :=
  lookup_insertEntry k v t.entries x t.ordered

theorem contains_insert [Std.TransOrd κ] (t : Table κ β) (k : κ) (v : β) (x : κ) :
    (t.insert k v).contains x = (compare x k == .eq || t.contains x) := by
  simp only [contains, find?_insert]
  split <;> simp_all

theorem contains_add [Std.TransOrd κ] (s : KeySet κ) (k x : κ) :
    (s.add k).contains x = (compare x k == .eq || s.contains x) :=
  contains_insert s k () x

theorem lookup_filter_ne [Std.TransOrd κ] (k x : κ) (es : List (κ × β)) :
    lookup x (es.filter fun e => compare k e.1 != .eq) =
      if compare x k = .eq then none else lookup x es := by
  induction es with
  | nil => simp [lookup]
  | cons e rest ih =>
    by_cases hk : compare k e.1 = .eq
    · by_cases hx : compare x k = .eq
      · simp [hk, ih, hx]
      · have hxe : compare x e.1 ≠ .eq := fun hxe =>
          hx (Std.TransCmp.eq_trans hxe (Std.OrientedCmp.eq_symm hk))
        simp [hk, ih, hx, lookup, hxe]
    · by_cases hxe : compare x e.1 = .eq
      · have hx : compare x k ≠ .eq := fun hx =>
          hk (Std.TransCmp.eq_trans (Std.OrientedCmp.eq_symm hx) hxe)
        simp [hk, lookup, hxe, hx]
      · simp [hk, lookup, hxe, ih]

/-- After an erasure the key is gone and no other key has changed. -/
theorem find?_erase [Std.TransOrd κ] (t : Table κ β) (k x : κ) :
    (t.erase k).find? x = if compare x k = .eq then none else t.find? x :=
  lookup_filter_ne k x t.entries

@[simp] theorem find?_empty (k : κ) : (∅ : Table κ β).find? k = none := rfl

end Table

end Recompile
