import Mathlib.Data.List.Nodup
import Mathlib.Data.List.Sort
import Mathlib.Order.Lattice

/-!
# Dictionaries in the order of insertion

A finite map that remembers in which order its keys came: setting a key that is there replaces
its value in place, a new key goes to the end.  The order is what a loop over the entries
sees; everything else about a dictionary is in its lookups.

* `get?_sorted` — the entries may be put in the order of their keys.
-/

/-- A finite map with its entries in the order in which their keys were first set. -/
@[ext]
structure Dict (K V : Type*) where
  entries : List (K × V)
  nodup : (entries.map Prod.fst).Nodup

namespace Dict

variable {K V : Type*}

instance [DecidableEq K] [DecidableEq V] : DecidableEq (Dict K V) := fun d d' =>
  decidable_of_iff (d.entries = d'.entries) ⟨Dict.ext, fun h => h ▸ rfl⟩

/-- The dictionary without entries. -/
def empty : Dict K V := ⟨[], List.nodup_nil⟩

variable [DecidableEq K]

/-- The value at a key. -/
def get? (d : Dict K V) (k : K) : Option V :=
  (d.entries.find? fun e => e.1 = k).map Prod.snd

/-- The entries with `v` at `k`: in place of what stood there, or at the end. -/
def setEntry (k : K) (v : V) : List (K × V) → List (K × V)
  | [] => [(k, v)]
  | e :: entries => if e.1 = k then (k, v) :: entries else e :: setEntry k v entries

variable {k k' : K} {entries : List (K × V)} {v : V}

theorem mem_keys_setEntry (h : k' ∈ (setEntry k v entries).map Prod.fst) :
    k' = k ∨ k' ∈ entries.map Prod.fst := by
  induction entries with
  | nil => exact .inl (List.mem_singleton.1 h)
  | cons e entries ih =>
    rw [setEntry] at h
    split at h
    · exact (List.mem_cons.1 h).imp_right (List.mem_cons_of_mem _)
    · rcases List.mem_cons.1 h with rfl | h
      · exact .inr List.mem_cons_self
      · exact (ih h).imp_right (List.mem_cons_of_mem _)

theorem nodup_setEntry (h : (entries.map Prod.fst).Nodup) :
    ((setEntry k v entries).map Prod.fst).Nodup := by
  induction entries with
  | nil => exact List.nodup_singleton k
  | cons e entries ih =>
    rw [List.map_cons, List.nodup_cons] at h
    rw [setEntry]
    split
    · next heq =>
      rw [List.map_cons, List.nodup_cons]
      exact ⟨heq ▸ h.1, h.2⟩
    · next hne =>
      rw [List.map_cons, List.nodup_cons]
      exact ⟨fun hmem => (mem_keys_setEntry hmem).elim hne h.1, ih h.2⟩

/-- `d[k] = v`. -/
def set (d : Dict K V) (k : K) (v : V) : Dict K V :=
  ⟨setEntry k v d.entries, nodup_setEntry d.nodup⟩

/-- `del d[k]`, of a key that may not be there. -/
def erase (d : Dict K V) (k : K) : Dict K V :=
  ⟨d.entries.filter fun e => e.1 ≠ k, (List.filter_sublist.map Prod.fst).nodup d.nodup⟩

/-- The dictionary of a list of entries: of two with one key the later one counts. -/
def ofList (entries : List (K × V)) : Dict K V :=
  entries.foldl (fun d e => d.set e.1 e.2) empty

/-- Two dictionaries with the same entries, in whatever order. -/
def sameAs [DecidableEq V] (d d' : Dict K V) : Bool :=
  d.entries.length = d'.entries.length && d.entries.all fun e => d'.get? e.1 = some e.2

/-! ## Lookups and entries -/

theorem get?_eq_some {d : Dict K V} : d.get? k = some v ↔ (k, v) ∈ d.entries := by
  rw [get?, Option.map_eq_some_iff]
  constructor
  · rintro ⟨e, he, rfl⟩
    have hk : e.1 = k := by simpa using List.find?_some he
    exact hk ▸ List.mem_of_find?_eq_some he
  · intro h
    rcases hf : d.entries.find? fun e => e.1 = k with _ | e
    · have hno := List.find?_eq_none.1 hf (k, v) h
      simp at hno
    · have hk : e.1 = k := by simpa using List.find?_some hf
      have he := List.inj_on_of_nodup_map d.nodup (List.mem_of_find?_eq_some hf) h hk
      exact ⟨e, hf, by rw [he]⟩

theorem get?_eq_none {d : Dict K V} : d.get? k = none ↔ ∀ v, (k, v) ∉ d.entries := by
  constructor
  · intro h v hv
    rw [get?_eq_some.2 hv] at h
    cases h
  · intro h
    rcases hg : d.get? k with _ | v
    · rfl
    · exact absurd (get?_eq_some.1 hg) (h v)

@[simp] theorem get?_empty (k : K) : (empty : Dict K V).get? k = none := rfl

/-- Two dictionaries that answer alike at a key hold the same entries of it. -/
theorem get?_congr {d d' : Dict K V} (h : ∀ v, (k, v) ∈ d.entries ↔ (k, v) ∈ d'.entries) :
    d.get? k = d'.get? k :=
  Option.ext fun v => by rw [get?_eq_some, get?_eq_some, h]

theorem find?_setEntry (k k' : K) (v : V) (entries : List (K × V)) :
    ((setEntry k v entries).find? fun e => e.1 = k').map Prod.snd =
      if k' = k then some v else (entries.find? fun e => e.1 = k').map Prod.snd := by
  induction entries with
  | nil =>
    rw [setEntry, List.find?_cons, List.find?_nil]
    by_cases h : k' = k
    · simp [h]
    · simp [h, Ne.symm h]
  | cons e entries ih =>
    rw [setEntry]
    by_cases he : e.1 = k
    · rw [if_pos he, List.find?_cons, List.find?_cons]
      by_cases h : k' = k
      · simp [h]
      · simp [h, Ne.symm h, he]
    · rw [if_neg he, List.find?_cons, List.find?_cons]
      by_cases h : e.1 = k'
      · have hne : k' ≠ k := fun heq => he (h.trans heq)
        simp [h, hne]
      · simp only [h, decide_false]
        exact ih

/-- What setting a key makes of a lookup. -/
theorem get?_set (d : Dict K V) (k k' : K) (v : V) :
    (d.set k v).get? k' = if k' = k then some v else d.get? k' :=
  find?_setEntry k k' v d.entries

@[simp] theorem get?_set_self (d : Dict K V) (k : K) (v : V) : (d.set k v).get? k = some v := by
  rw [get?_set, if_pos rfl]

theorem get?_set_of_ne (d : Dict K V) (v : V) (h : k' ≠ k) : (d.set k v).get? k' = d.get? k' := by
  rw [get?_set, if_neg h]

theorem get?_erase (d : Dict K V) (k k' : K) :
    (d.erase k).get? k' = if k' = k then none else d.get? k' := by
  split
  · next heq =>
    subst heq
    exact get?_eq_none.2 fun v hv => by simpa using (List.mem_filter.1 hv).2
  · next hne =>
    refine Option.ext fun v => ?_
    rw [get?_eq_some, get?_eq_some, erase, List.mem_filter]
    simp [hne]

/-- A dictionary that answers nothing is empty. -/
theorem entries_eq_nil {d : Dict K V} : d.entries = [] ↔ ∀ k, d.get? k = none := by
  constructor
  · intro h k
    exact get?_eq_none.2 fun v hv => by rw [h] at hv; cases hv
  · intro h
    exact List.eq_nil_iff_forall_not_mem.2 fun e he => get?_eq_none.1 (h e.1) e.2 he

/-- Dictionaries are the same as dictionaries exactly when they answer alike. -/
theorem sameAs_iff [DecidableEq V] {d d' : Dict K V} :
    d.sameAs d' = true ↔ ∀ k, d.get? k = d'.get? k := by
  rw [sameAs, Bool.and_eq_true, decide_eq_true_iff, List.all_eq_true]
  constructor
  · rintro ⟨hlength, hall⟩
    have hsub : d.entries ⊆ d'.entries := fun e he =>
      get?_eq_some.1 (of_decide_eq_true (hall e he))
    -- as many entries on both sides, so the inclusion goes both ways
    have hperm := (List.subperm_of_subset d.nodup.of_map hsub).perm_of_length_le hlength.ge
    exact fun k => get?_congr fun v => hperm.mem_iff
  · intro h
    have hmem : ∀ e, e ∈ d.entries ↔ e ∈ d'.entries := fun e => by
      rw [← get?_eq_some (k := e.1) (v := e.2), h, get?_eq_some]
    refine ⟨((List.perm_ext_iff_of_nodup d.nodup.of_map d'.nodup.of_map).2 hmem).length_eq, ?_⟩
    exact fun e he => decide_eq_true (get?_eq_some.2 ((hmem e).1 he))

/-- `d` with other values, by key. -/
def mapValues {W : Type*} (f : K → V → W) (d : Dict K V) : Dict K W :=
  ⟨d.entries.map fun e => (e.1, f e.1 e.2), by simpa [Function.comp_def] using d.nodup⟩

theorem get?_mapValues {W : Type*} (f : K → V → W) (d : Dict K V) (k : K) :
    (d.mapValues f).get? k = (d.get? k).map (f k) := by
  refine Option.ext fun w => ?_
  rw [get?_eq_some, Option.map_eq_some_iff]
  constructor
  · intro h
    obtain ⟨e, he, heq⟩ := List.mem_map.1 h
    cases heq
    exact ⟨e.2, get?_eq_some.2 he, rfl⟩
  · rintro ⟨v, hv, rfl⟩
    exact List.mem_map.2 ⟨(k, v), get?_eq_some.1 hv, rfl⟩

theorem setEntry_of_not_mem (h : k ∉ entries.map Prod.fst) :
    setEntry k v entries = entries ++ [(k, v)] := by
  induction entries with
  | nil => rfl
  | cons e entries ih =>
    rw [List.map_cons, List.mem_cons, not_or] at h
    rw [setEntry, if_neg (Ne.symm h.1), ih h.2, List.cons_append]

/-- A list of entries with distinct keys is kept as it is. -/
theorem entries_ofList (h : (entries.map Prod.fst).Nodup) : (ofList entries).entries = entries := by
  have hfold : ∀ (d : Dict K V), ((d.entries ++ entries).map Prod.fst).Nodup →
      (entries.foldl (fun d e => d.set e.1 e.2) d).entries = d.entries ++ entries := by
    clear h
    induction entries with
    | nil => exact fun d _ => (List.append_nil _).symm
    | cons e entries ih =>
      intro d hd
      have hset : (d.set e.1 e.2).entries = d.entries ++ [e] := by
        refine setEntry_of_not_mem fun hmem => ?_
        rw [List.map_append, List.nodup_append] at hd
        exact hd.2.2 _ hmem _ List.mem_cons_self rfl
      rw [List.foldl_cons, ih _ (by rwa [hset, List.append_assoc]), hset, List.append_assoc,
        List.singleton_append]
  exact hfold empty (by simpa [empty] using h)

/-- `d` with its entries in the order of their keys. -/
def sorted {V : Type*} {K : Type*} [LinearOrder K] (d : Dict K V) : Dict K V :=
  ⟨d.entries.insertionSort fun e e' => e.1 ≤ e'.1,
    ((List.perm_insertionSort _ d.entries).map Prod.fst).nodup_iff.2 d.nodup⟩

variable {V K : Type*}

theorem mem_sorted [LinearOrder K] {d : Dict K V} {e : K × V} :
    e ∈ d.sorted.entries ↔ e ∈ d.entries :=
  (List.perm_insertionSort _ d.entries).mem_iff

@[simp] theorem get?_sorted [LinearOrder K] (d : Dict K V) (k : K) : d.sorted.get? k = d.get? k :=
  get?_congr fun _ => mem_sorted

theorem pairwise_sorted [LinearOrder K] (d : Dict K V) :
    d.sorted.entries.Pairwise fun e e' => e.1 < e'.1 := by
  have hle : d.sorted.entries.Pairwise fun e e' => e.1 ≤ e'.1 := by
    have : IsTrans (K × V) fun e e' => e.1 ≤ e'.1 := ⟨fun _ _ _ h h' => h.trans h'⟩
    have : Std.Total fun e e' : K × V => e.1 ≤ e'.1 := ⟨fun e e' => le_total e.1 e'.1⟩
    exact List.pairwise_insertionSort _ d.entries
  exact hle.imp₂ (fun _ _ hle hne => lt_of_le_of_ne hle hne)
    (List.pairwise_map.1 d.sorted.nodup)

/-- Put in order, dictionaries that answer alike are the same. -/
theorem sorted_congr [LinearOrder K] {d d' : Dict K V} (h : ∀ k, d.get? k = d'.get? k) :
    d.sorted = d'.sorted := by
  refine Dict.ext (List.Perm.eq_of_pairwise
    (fun e e' _ _ hlt hgt => absurd hgt (lt_asymm hlt)) d.pairwise_sorted d'.pairwise_sorted ?_)
  refine (List.perm_ext_iff_of_nodup d.sorted.nodup.of_map d'.sorted.nodup.of_map).2 fun e => ?_
  rw [mem_sorted, mem_sorted, ← get?_eq_some (k := e.1) (v := e.2), h, get?_eq_some]

/-- Entries that come in the order of their keys stay where they are. -/
theorem entries_sorted [LinearOrder K] {d : Dict K V}
    (h : d.entries.Pairwise fun e e' => e.1 < e'.1) : d.sorted.entries = d.entries :=
  (h.imp fun hlt => hlt.le).insertionSort_eq

end Dict
