import Recompile.Table

/-!
# What a table holds

Look-ups in a table against its entries and its keys: `find?` finds the entry under an equal key
(`Table.find?_eq_some_iff`), `contains` says whether there is one (`Table.contains_iff`), and the
sets that are made from lists or by filtering hold what they should. Equality of keys is that of
`compare` throughout, so a member of a set may be spelled differently from the key asked for.
-/

namespace Recompile.Table

variable {κ β : Type} [Ord κ] [Std.TransOrd κ]

/-! ## Look-ups and entries -/

theorem lookup_congr {k k' : κ} (h : compare k k' = .eq) (es : List (κ × β)) :
    lookup k es = lookup k' es := by
  induction es with
  | nil => rfl
  | cons e rest ih =>
    have he : compare k e.1 = .eq ↔ compare k' e.1 = .eq :=
      ⟨Std.TransCmp.eq_trans (Std.OrientedCmp.eq_symm h), Std.TransCmp.eq_trans h⟩
    simp only [lookup, he, ih]

theorem find?_congr (t : Table κ β) {k k' : κ} (h : compare k k' = .eq) :
    t.find? k = t.find? k' :=
  lookup_congr h t.entries

theorem contains_congr (t : Table κ β) {k k' : κ} (h : compare k k' = .eq) :
    t.contains k = t.contains k' := by
  rw [contains, contains, find?_congr t h]

omit [Std.TransOrd κ] in
theorem mem_of_lookup {k : κ} {v : β} {es : List (κ × β)} (h : lookup k es = some v) :
    ∃ k', (k', v) ∈ es ∧ compare k k' = .eq := by
  induction es with
  | nil => cases h
  | cons e rest ih =>
    rw [lookup] at h
    split at h
    · next he =>
      obtain rfl := Option.some.inj h
      exact ⟨e.1, List.mem_cons_self, he⟩
    · obtain ⟨k', hk', he⟩ := ih h
      exact ⟨k', List.mem_cons_of_mem e hk', he⟩

theorem lookup_of_mem {k : κ} {v : β} {es : List (κ × β)}
    (hes : es.Pairwise fun x y => compare x.1 y.1 = .lt) (h : (k, v) ∈ es) :
    lookup k es = some v := by
  induction es with
  | nil => cases h
  | cons e rest ih =>
    obtain ⟨he, hrest⟩ := List.pairwise_cons.1 hes
    rw [lookup]
    rcases List.mem_cons.1 h with rfl | h
    · rw [if_pos Std.ReflCmp.compare_self]
    · have hne : compare k e.1 ≠ .eq := by
        intro hk
        have hlt := he (k, v) h
        rw [Std.OrientedCmp.eq_symm hk] at hlt
        cases hlt
      rw [if_neg hne, ih hrest h]

/-- A look-up finds the value of the entry under an equal key. -/
theorem find?_eq_some_iff (t : Table κ β) {k : κ} {v : β} :
    t.find? k = some v ↔ ∃ k', (k', v) ∈ t.entries ∧ compare k k' = .eq := by
  constructor
  · exact mem_of_lookup
  · rintro ⟨k', hk', he⟩
    rw [find?_congr t he]
    exact lookup_of_mem t.ordered hk'

theorem find?_of_mem (t : Table κ β) {k : κ} {v : β} (h : (k, v) ∈ t.entries) :
    t.find? k = some v :=
  lookup_of_mem t.ordered h

omit [Std.TransOrd κ] in
theorem contains_iff_find? (t : Table κ β) {k : κ} :
    t.contains k = true ↔ ∃ v, t.find? k = some v := by
  rw [contains, Option.isSome_iff_exists]

omit [Std.TransOrd κ] in
theorem mem_keys_of_mem {t : Table κ β} {k : κ} {v : β} (h : (k, v) ∈ t.entries) : k ∈ t.keys :=
  List.mem_map_of_mem h

omit [Std.TransOrd κ] in
theorem mem_keys_iff {t : Table κ β} {k : κ} : k ∈ t.keys ↔ ∃ v, (k, v) ∈ t.entries := by
  constructor
  · intro h
    obtain ⟨⟨k', v⟩, he, rfl⟩ := List.mem_map.1 h
    exact ⟨v, he⟩
  · rintro ⟨v, h⟩
    exact mem_keys_of_mem h

omit [Std.TransOrd κ] in
theorem mem_values_iff {t : Table κ β} {v : β} : v ∈ t.values ↔ ∃ k, (k, v) ∈ t.entries := by
  constructor
  · intro h
    obtain ⟨⟨k, v'⟩, he, rfl⟩ := List.mem_map.1 h
    exact ⟨k, he⟩
  · rintro ⟨k, h⟩
    exact List.mem_map_of_mem h

/-- A key is in a table when an equal one is among its keys. -/
theorem contains_iff (t : Table κ β) {k : κ} :
    t.contains k = true ↔ ∃ k' ∈ t.keys, compare k k' = .eq := by
  rw [contains_iff_find?]
  constructor
  · rintro ⟨v, h⟩
    obtain ⟨k', hk', he⟩ := t.find?_eq_some_iff.1 h
    exact ⟨k', mem_keys_of_mem hk', he⟩
  · rintro ⟨k', hk', he⟩
    obtain ⟨v, hv⟩ := mem_keys_iff.1 hk'
    exact ⟨v, t.find?_eq_some_iff.2 ⟨k', hv, he⟩⟩

theorem contains_of_mem_keys {t : Table κ β} {k : κ} (h : k ∈ t.keys) : t.contains k = true :=
  t.contains_iff.2 ⟨k, h, Std.ReflCmp.compare_self⟩

omit [Std.TransOrd κ] in
theorem keys_pairwise (t : Table κ β) : t.keys.Pairwise fun x y => compare x y = .lt :=
  List.pairwise_map.2 t.ordered

/-! ## Insertion -/

theorem mem_keys_insert {t : Table κ β} {k x : κ} {v : β} (h : x ∈ (t.insert k v).keys) :
    x = k ∨ x ∈ t.keys := by
  obtain ⟨w, hw⟩ := mem_keys_iff.1 h
  rcases insertEntry_key hw with hx | ⟨e, he, hx⟩
  · exact .inl hx
  · exact .inr (List.mem_map.2 ⟨e, he, hx⟩)

omit [Std.TransOrd κ] in
theorem mem_insertEntry {k x : κ} {v w : β} {es : List (κ × β)}
    (h : (x, w) ∈ insertEntry k v es) :
    (x, w) ∈ es ∨ w = v ∧ (x = k ∨ compare k x = .eq) := by
  induction es with
  | nil =>
    cases List.mem_singleton.1 h
    exact .inr ⟨rfl, .inl rfl⟩
  | cons e rest ih =>
    simp only [insertEntry] at h
    split at h
    · rcases List.mem_cons.1 h with h | h
      · cases h
        exact .inr ⟨rfl, .inl rfl⟩
      · exact .inl h
    · next heq =>
      rcases List.mem_cons.1 h with h | h
      · cases h
        exact .inr ⟨rfl, .inr heq⟩
      · exact .inl (List.mem_cons_of_mem e h)
    · rcases List.mem_cons.1 h with h | h
      · cases h
        exact .inl List.mem_cons_self
      · exact (ih h).imp_left (List.mem_cons_of_mem e)

/-- An entry after an insertion was there before or holds the new value. -/
theorem mem_insert {t : Table κ β} {k x : κ} {v w : β} (h : (x, w) ∈ (t.insert k v).entries) :
    (x, w) ∈ t.entries ∨ w = v ∧ (x = k ∨ compare k x = .eq) :=
  mem_insertEntry h

omit [Std.TransOrd κ] in
theorem insertEntry_perm {k : κ} (v : β) {es : List (κ × β)} (h : lookup k es = none) :
    (insertEntry k v es).Perm ((k, v) :: es) := by
  induction es with
  | nil => exact .refl _
  | cons e rest ih =>
    rw [lookup] at h
    split at h
    · cases h
    · next hne =>
      simp only [insertEntry]
      split
      · exact .refl _
      · next heq => exact absurd heq hne
      · exact ((ih h).cons e).trans (.swap (k, v) e rest)

/-- A new key comes to the keys that were there. -/
theorem keys_insert_perm {t : Table κ β} {k : κ} (v : β) (h : t.contains k = false) :
    (t.insert k v).keys.Perm (k :: t.keys) := by
  have hnone : lookup k t.entries = none := by simpa [contains, find?] using h
  exact (insertEntry_perm v hnone).map (·.1)

theorem mem_keys_insert_iff {t : Table κ β} {k : κ} (v : β) (h : t.contains k = false) {x : κ} :
    x ∈ (t.insert k v).keys ↔ x = k ∨ x ∈ t.keys := by
  rw [(keys_insert_perm v h).mem_iff, List.mem_cons]

/-- A new entry comes to the entries that were there. -/
theorem mem_insert_iff {t : Table κ β} {k x : κ} {v w : β} (h : t.contains k = false) :
    (x, w) ∈ (t.insert k v).entries ↔ x = k ∧ w = v ∨ (x, w) ∈ t.entries := by
  have hnone : lookup k t.entries = none := by simpa [contains, find?] using h
  have hperm : (t.insert k v).entries.Perm ((k, v) :: t.entries) := insertEntry_perm v hnone
  rw [hperm.mem_iff, List.mem_cons, Prod.mk.injEq]

theorem size_insert {t : Table κ β} {k : κ} (v : β) (h : t.contains k = false) :
    (t.insert k v).size = t.size + 1 := by
  have hlen := (keys_insert_perm v h).length_eq
  rwa [keys, keys, List.length_cons, List.length_map, List.length_map] at hlen

/-! ## Tables from lists -/

omit [Std.TransOrd κ] in
theorem insertEntry_of_gt {k : κ} {v : β} {es : List (κ × β)}
    (h : ∀ e ∈ es, compare k e.1 = .gt) : insertEntry k v es = es ++ [(k, v)] := by
  induction es with
  | nil => rfl
  | cons e rest ih =>
    have he : compare k e.1 = .gt := h e List.mem_cons_self
    rw [insertEntry, he]
    exact congrArg (e :: ·) (ih fun x hx => h x (List.mem_cons_of_mem e hx))

theorem foldl_insert_entries (t : Table κ β) {es : List (κ × β)}
    (h : (t.entries ++ es).Pairwise fun x y => compare x.1 y.1 = .lt) :
    (es.foldl (fun t e => t.insert e.1 e.2) t).entries = t.entries ++ es := by
  induction es generalizing t with
  | nil => simp
  | cons e es ih =>
    have hlt : ∀ x ∈ t.entries, compare e.1 x.1 = .gt := fun x hx =>
      Std.OrientedCmp.gt_of_lt ((List.pairwise_append.1 h).2.2 x hx e List.mem_cons_self)
    have hinsert : (t.insert e.1 e.2).entries = t.entries ++ [e] := insertEntry_of_gt hlt
    rw [List.foldl_cons, ih (t.insert e.1 e.2), hinsert]
    · simp
    · simpa [hinsert] using h

/-- A table is made again from its entries in order. -/
theorem ofList_entries (t : Table κ β) : ofList t.entries = t :=
  ext (foldl_insert_entries ∅ t.ordered)

theorem setOf_keys (s : KeySet κ) : setOf s.keys = s := by
  have hfold : ∀ (es : List (κ × Unit)) (t : KeySet κ),
      (es.map (·.1)).foldl add t = es.foldl (fun t e => t.insert e.1 e.2) t := by
    intro es t
    rw [List.foldl_map]
    rfl
  exact (hfold s.entries ∅).trans (ofList_entries s)

/-! ## Sets -/

theorem contains_insert_self (t : Table κ β) (k : κ) (v : β) : (t.insert k v).contains k = true :=
  (contains_iff_find? _).2 ⟨v, by rw [find?_insert, if_pos Std.ReflCmp.compare_self]⟩

theorem mem_keys_addAll {s : KeySet κ} {ks : List κ} {x : κ} (h : x ∈ (s.addAll ks).keys) :
    x ∈ ks ∨ x ∈ s.keys := by
  induction ks generalizing s with
  | nil => exact .inr h
  | cons k ks ih =>
    rcases ih h with h | h
    · exact .inl (List.mem_cons_of_mem k h)
    · rcases mem_keys_insert h with rfl | h
      · exact .inl List.mem_cons_self
      · exact .inr h

theorem contains_addAll (s : KeySet κ) (ks : List κ) (x : κ) :
    (s.addAll ks).contains x = true ↔ (∃ k ∈ ks, compare x k = .eq) ∨ s.contains x = true := by
  induction ks generalizing s with
  | nil => simp [addAll]
  | cons k ks ih =>
    have hrest := ih (s.add k)
    rw [contains_add, Bool.or_eq_true, beq_iff_eq] at hrest
    rw [show s.addAll (k :: ks) = (s.add k).addAll ks from rfl, hrest, or_left_comm, ← or_assoc]
    simp only [List.mem_cons, exists_eq_or_imp]

/-- The set of a list holds what is in the list. -/
theorem contains_setOf (ks : List κ) (x : κ) :
    (setOf ks).contains x = true ↔ ∃ k ∈ ks, compare x k = .eq := by
  have hempty : (∅ : KeySet κ).contains x = false := rfl
  rw [setOf, contains_addAll, hempty]
  simp only [Bool.false_eq_true, or_false]

theorem mem_of_mem_keys_setOf {ks : List κ} {x : κ} (h : x ∈ (setOf ks).keys) : x ∈ ks :=
  (mem_keys_addAll h).elim id fun h => absurd h List.not_mem_nil

omit [Std.TransOrd κ] in
theorem mem_keys_filter {p : κ → β → Bool} {t : Table κ β} {k : κ} :
    k ∈ (t.filter p).keys ↔ ∃ v, (k, v) ∈ t.entries ∧ p k v = true := by
  rw [mem_keys_iff]
  exact exists_congr fun v => List.mem_filter

omit [Std.TransOrd κ] in
/-- A filter that does not look at the values. -/
theorem mem_keys_filter_key {p : κ → Bool} {t : Table κ β} {k : κ} :
    k ∈ (t.filter fun x _ => p x).keys ↔ k ∈ t.keys ∧ p k = true := by
  rw [mem_keys_filter, mem_keys_iff, exists_and_right]

omit [Std.TransOrd κ] in
theorem mem_keys_difference {s : KeySet κ} {t : Table κ β} {k : κ} :
    k ∈ (difference s t).keys ↔ k ∈ s.keys ∧ t.contains k = false := by
  rw [difference, mem_keys_filter_key, Bool.not_eq_true']

/-- Filtering a set by a property of names, not of spellings. -/
theorem contains_filter {p : κ → Bool} (hp : ∀ x y, compare x y = .eq → p x = p y)
    (s : KeySet κ) (k : κ) :
    (s.filter fun x _ => p x).contains k = true ↔ s.contains k = true ∧ p k = true := by
  rw [contains_iff, contains_iff]
  constructor
  · rintro ⟨k', hk', he⟩
    obtain ⟨hmem, hpk⟩ := mem_keys_filter_key.1 hk'
    exact ⟨⟨k', hmem, he⟩, (hp k k' he).trans hpk⟩
  · rintro ⟨⟨k', hk', he⟩, hpk⟩
    exact ⟨k', mem_keys_filter_key.2 ⟨hk', (hp k k' he).symm.trans hpk⟩, he⟩

theorem contains_difference (s : KeySet κ) (t : Table κ β) (k : κ) :
    (difference s t).contains k = true ↔ s.contains k = true ∧ t.contains k = false := by
  rw [difference, contains_filter fun x y h => by rw [contains_congr t h], Bool.not_eq_true']

/-! ## Ordered lists -/

theorem nodup_of_ordered {ks : List κ} (h : ks.Pairwise fun x y => compare x y = .lt) :
    ks.Nodup := by
  refine h.imp fun {x y} hlt heq => ?_
  have hself : compare y y = .eq := Std.ReflCmp.compare_self
  rw [heq, hself] at hlt
  cases hlt

/-- Equal keys of one table have one spelling. -/
theorem eq_of_mem_keys_of_compare {t : Table κ β} {k k' : κ} (hk : k ∈ t.keys) (hk' : k' ∈ t.keys)
    (h : compare k k' = .eq) : k = k' := by
  have hpairs := List.pairwise_iff_getElem.1 t.keys_pairwise
  obtain ⟨i, hi, rfl⟩ := List.mem_iff_getElem.1 hk
  obtain ⟨j, hj, rfl⟩ := List.mem_iff_getElem.1 hk'
  rcases Nat.lt_trichotomy i j with hlt | rfl | hgt
  · cases h.symm.trans (hpairs i j hi hj hlt)
  · rfl
  · cases (Std.OrientedCmp.eq_symm h).symm.trans (hpairs j i hj hi hgt)

/-- An ordered list is the one with its members. -/
theorem eq_of_ordered {ks ks' : List κ} (h : ks.Pairwise fun x y => compare x y = .lt)
    (h' : ks'.Pairwise fun x y => compare x y = .lt) (hmem : ∀ k, k ∈ ks ↔ k ∈ ks') : ks = ks' := by
  have hperm : ks.Perm ks' :=
    (List.perm_ext_iff_of_nodup (nodup_of_ordered h) (nodup_of_ordered h')).2 @hmem
  refine hperm.eq_of_pairwise (fun a b _ _ hlt hgt => ?_) h h'
  exact absurd hgt (Std.OrientedCmp.not_lt_of_lt hlt)

/-- A set is known by its members, each in its spelling. -/
theorem eq_of_mem_keys {s t : KeySet κ} (h : ∀ k, k ∈ s.keys ↔ k ∈ t.keys) : s = t := by
  have hkeys : s.keys = t.keys := eq_of_ordered s.keys_pairwise t.keys_pairwise h
  rw [← setOf_keys s, hkeys, setOf_keys t]

/-- A new member of a set is one of the difference unless the other table has it. -/
theorem difference_add {s : KeySet κ} {k : κ} (hk : s.contains k = false) (t : Table κ β) :
    (s.add k).difference t =
      if t.contains k then s.difference t else (s.difference t).add k := by
  have hold : (s.difference t).contains k = false := by
    rw [← Bool.not_eq_true, contains_difference, hk]
    exact fun h => Bool.false_ne_true h.1
  refine eq_of_mem_keys fun x => ?_
  rw [mem_keys_difference, add, mem_keys_insert_iff () hk]
  cases ht : t.contains k with
  | true =>
    rw [if_pos rfl, mem_keys_difference]
    refine and_congr_left fun hx => or_iff_right ?_
    rintro rfl
    cases ht.symm.trans hx
  | false =>
    rw [if_neg Bool.false_ne_true, add, mem_keys_insert_iff () hold, mem_keys_difference]
    constructor
    · rintro ⟨rfl | hx, hxt⟩
      · exact .inl rfl
      · exact .inr ⟨hx, hxt⟩
    · rintro (rfl | ⟨hx, hxt⟩)
      · exact ⟨.inl rfl, ht⟩
      · exact ⟨.inr hx, hxt⟩

/-! ## Tables that are the same -/

omit [Std.TransOrd κ] in
theorem lookup_eq_none {k : κ} {es : List (κ × β)} (h : ∀ e ∈ es, compare k e.1 = .lt) :
    lookup k es = none := by
  induction es with
  | nil => rfl
  | cons e es ih =>
    have hne : compare k e.1 ≠ .eq := by
      rw [h e List.mem_cons_self]
      decide
    rw [lookup, if_neg hne, ih fun x hx => h x (List.mem_cons_of_mem e hx)]

theorem beq_entries [BEq κ] [BEq β] (hkeys : ∀ x y : κ, compare x y = .eq → (x == y) = true)
    {es es' : List (κ × β)} (hes : es.Pairwise fun x y => compare x.1 y.1 = .lt)
    (hes' : es'.Pairwise fun x y => compare x.1 y.1 = .lt)
    (h : ∀ k, (lookup k es == lookup k es') = true) : (es == es') = true := by
  have hself (k : κ) (v : β) (rest : List (κ × β)) : lookup k ((k, v) :: rest) = some v := by
    rw [lookup, if_pos Std.ReflCmp.compare_self]
  -- A key that comes before all keys of the other table would be missed there.
  have hmissed (k : κ) (v : β) (rest : List (κ × β)) {fs : List (κ × β)}
      (hlt : ∀ e ∈ fs, compare k e.1 = .lt) :
      ¬(lookup k ((k, v) :: rest) == lookup k fs) = true ∧
        ¬(lookup k fs == lookup k ((k, v) :: rest)) = true := by
    rw [hself, lookup_eq_none hlt]
    exact ⟨Bool.false_ne_true, Bool.false_ne_true⟩
  induction es generalizing es' with
  | nil =>
    cases es' with
    | nil => rfl
    | cons e' es' =>
      exact absurd (h e'.1) (hmissed e'.1 e'.2 es' fun x hx => absurd hx List.not_mem_nil).2
  | cons e es ih =>
    cases es' with
    | nil => exact absurd (h e.1) (hmissed e.1 e.2 es fun x hx => absurd hx List.not_mem_nil).1
    | cons e' es' =>
      obtain ⟨he, hrest⟩ := List.pairwise_cons.1 hes
      obtain ⟨he', hrest'⟩ := List.pairwise_cons.1 hes'
      cases hcmp : compare e.1 e'.1 with
      | lt =>
        refine absurd (h e.1) (hmissed e.1 e.2 es (List.forall_mem_cons.2 ⟨hcmp, fun x hx => ?_⟩)).1
        exact Std.TransCmp.lt_trans hcmp (he' x hx)
      | gt =>
        have hlt : compare e'.1 e.1 = .lt := Std.OrientedCmp.lt_of_gt hcmp
        refine absurd (h e'.1)
          (hmissed e'.1 e'.2 es' (List.forall_mem_cons.2 ⟨hlt, fun x hx => ?_⟩)).2
        exact Std.TransCmp.lt_trans hlt (he x hx)
      | eq =>
        have hvalue : (e.2 == e'.2) = true := by
          have hfirst := h e.1
          rw [hself] at hfirst
          rw [lookup, if_pos hcmp] at hfirst
          exact hfirst
        have hothers : (es == es') = true := by
          refine ih hrest hrest' fun k => ?_
          by_cases hk : compare k e.1 = .eq
          · rw [lookup_congr hk, lookup_eq_none he, lookup_congr (Std.TransCmp.eq_trans hk hcmp),
              lookup_eq_none he']
            rfl
          · have hk' : compare k e'.1 ≠ .eq := fun heq =>
              hk (Std.TransCmp.eq_trans heq (Std.OrientedCmp.eq_symm hcmp))
            have hlater := h k
            rw [lookup, if_neg hk, lookup, if_neg hk'] at hlater
            exact hlater
        change ((e.1 == e'.1 && e.2 == e'.2) && es == es') = true
        rw [hkeys _ _ hcmp, hvalue, hothers]
        rfl

/-- Tables are the same when every look-up in them comes out the same. -/
theorem beq_of_find? [BEq κ] [BEq β] (hkeys : ∀ x y : κ, compare x y = .eq → (x == y) = true)
    {s t : Table κ β} (h : ∀ k, (s.find? k == t.find? k) = true) : (s == t) = true :=
  beq_entries hkeys s.ordered t.ordered h

/-! ## Keys with one spelling -/

section LawfulKeys

variable [Std.LawfulEqOrd κ]

theorem contains_iff_mem_keys {t : Table κ β} {k : κ} : t.contains k = true ↔ k ∈ t.keys := by
  rw [contains_iff]
  constructor
  · rintro ⟨k', hk', he⟩
    rwa [Std.LawfulEqCmp.eq_of_compare he]
  · exact fun h => ⟨k, h, Std.ReflCmp.compare_self⟩

theorem mem_keys_setOf {ks : List κ} {x : κ} : x ∈ (setOf ks).keys ↔ x ∈ ks := by
  refine ⟨mem_of_mem_keys_setOf, fun h => contains_iff_mem_keys.1 ((contains_setOf ks x).2 ?_)⟩
  exact ⟨x, h, Std.ReflCmp.compare_self⟩

end LawfulKeys

end Recompile.Table
