import Mathlib.Data.List.Induction
import Mathlib.Data.List.Pairwise
import Mathlib.Order.Lattice

/-!
# Ordered tables

A finite map whose rows are kept in the order of their keys, so that a table is determined
by what it answers (`SortedTable.ext_get`) and a half-open range of it is a sublist.

* `get_put`, `get_erase` — what an update makes of a lookup.
* `mem_scan` — the rows of a range.
* `getLast?_scan` — the last row of a range is the one with the greatest key.
-/

/-- A finite map with its rows in the order of their keys. -/
structure SortedTable (K V : Type*) [LinearOrder K] where
  rows : List (K × V)
  sorted : rows.Pairwise fun r r' => r.1 < r'.1

namespace SortedTable

variable {K V : Type*} [LinearOrder K]

instance [DecidableEq V] : DecidableEq (SortedTable K V) := fun t t' =>
  decidable_of_iff (t.rows = t'.rows)
    ⟨fun h => by cases t; cases t'; cases h; rfl, fun h => h ▸ rfl⟩

/-- The table without rows. -/
def empty : SortedTable K V := ⟨[], List.Pairwise.nil⟩

/-- The value at a key. -/
def get (t : SortedTable K V) (k : K) : Option V :=
  (t.rows.find? fun r => r.1 = k).map Prod.snd

/-- The rows with `v` at `k`, in place of what stood there. -/
def insertRow (k : K) (v : V) : List (K × V) → List (K × V)
  | [] => [(k, v)]
  | r :: rows =>
    if k < r.1 then (k, v) :: r :: rows
    else if k = r.1 then (k, v) :: rows
    else r :: insertRow k v rows

variable {k : K} {rows : List (K × V)} {r : K × V}
variable {lo hi : K} {r r' : K × V} {t : SortedTable K V} {v : V}

theorem mem_insertRow (h : r ∈ insertRow k v rows) : r = (k, v) ∨ r ∈ rows := by
  induction rows with
  | nil => exact .inl (List.mem_singleton.1 h)
  | cons r' rows ih =>
    rw [insertRow] at h
    split at h
    · exact List.mem_cons.1 h
    split at h
    · rcases List.mem_cons.1 h with h | h
      · exact .inl h
      · exact .inr (List.mem_cons_of_mem _ h)
    · rcases List.mem_cons.1 h with rfl | h
      · exact .inr List.mem_cons_self
      · exact (ih h).imp_right (List.mem_cons_of_mem _)

theorem sorted_insertRow (h : rows.Pairwise fun r r' => r.1 < r'.1) :
    (insertRow k v rows).Pairwise fun r r' => r.1 < r'.1 := by
  induction rows with
  | nil => simp [insertRow]
  | cons r rows ih =>
    obtain ⟨hr, hrows⟩ := List.pairwise_cons.1 h
    rw [insertRow]
    split
    · rename_i hlt
      refine List.pairwise_cons.2 ⟨fun r' hr' => ?_, h⟩
      rcases List.mem_cons.1 hr' with rfl | hr'
      · exact hlt
      · exact hlt.trans (hr r' hr')
    split
    · rename_i heq
      exact List.pairwise_cons.2 ⟨fun r' hr' => heq ▸ hr r' hr', hrows⟩
    rename_i hlt hne
    refine List.pairwise_cons.2 ⟨fun r' hr' => ?_, ih hrows⟩
    rcases mem_insertRow hr' with rfl | hr'
    · exact lt_of_le_of_ne (not_lt.1 hlt) (Ne.symm hne)
    · exact hr r' hr'

/-- Set the value at a key. -/
def put (t : SortedTable K V) (k : K) (v : V) : SortedTable K V :=
  ⟨insertRow k v t.rows, sorted_insertRow t.sorted⟩

/-- Remove a key. -/
def erase (t : SortedTable K V) (k : K) : SortedTable K V :=
  ⟨t.rows.filter fun r => r.1 ≠ k, t.sorted.filter _⟩

/-- Remove the keys of a half-open range. -/
def eraseRange (t : SortedTable K V) (lo hi : K) : SortedTable K V :=
  ⟨t.rows.filter fun r => ¬ (lo ≤ r.1 ∧ r.1 < hi), t.sorted.filter _⟩

/-- The rows of a half-open range, in order. -/
def scan (t : SortedTable K V) (lo hi : K) : List (K × V) :=
  t.rows.filter fun r => lo ≤ r.1 ∧ r.1 < hi

/-! ## Lookups and rows -/

theorem eq_of_mem (h : rows.Pairwise fun r r' => r.1 < r'.1) (hr : r ∈ rows) (hr' : r' ∈ rows)
    (heq : r.1 = r'.1) : r = r' := by
  induction rows with
  | nil => exact absurd hr List.not_mem_nil
  | cons x rows ih =>
    obtain ⟨hx, hrows⟩ := List.pairwise_cons.1 h
    rcases List.mem_cons.1 hr with hrx | hr
    · rcases List.mem_cons.1 hr' with hrx' | hr'
      · rw [hrx, hrx']
      · exact absurd heq (hrx ▸ (hx r' hr').ne)
    · rcases List.mem_cons.1 hr' with hrx' | hr'
      · exact absurd heq.symm (hrx' ▸ (hx r hr).ne)
      · exact ih hrows hr hr'

theorem get_eq_some : t.get k = some v ↔ (k, v) ∈ t.rows := by
  rw [get, Option.map_eq_some_iff]
  constructor
  · rintro ⟨r, hr, rfl⟩
    have hk : r.1 = k := by simpa using List.find?_some hr
    exact hk ▸ List.mem_of_find?_eq_some hr
  · intro h
    rcases hf : t.rows.find? fun r => r.1 = k with _ | r
    · have := List.find?_eq_none.1 hf (k, v) h
      simp at this
    · have hk : r.1 = k := by simpa using List.find?_some hf
      have hr := eq_of_mem t.sorted (List.mem_of_find?_eq_some hf) h hk
      exact ⟨r, hf, by rw [hr]⟩

theorem get_eq_none : t.get k = none ↔ ∀ v, (k, v) ∉ t.rows := by
  constructor
  · intro h v hv
    rw [get_eq_some.2 hv] at h
    cases h
  · intro h
    rcases hg : t.get k with _ | v
    · rfl
    · exact absurd (get_eq_some.1 hg) (h v)

theorem mem_insertRow_self (k : K) (v : V) (rows : List (K × V)) : (k, v) ∈ insertRow k v rows := by
  induction rows with
  | nil => exact List.mem_singleton_self _
  | cons r rows ih =>
    rw [insertRow]
    split
    · exact List.mem_cons_self
    split
    · exact List.mem_cons_self
    · exact List.mem_cons_of_mem _ ih

theorem mem_insertRow_of_ne (hr : r ∈ rows) (hne : r.1 ≠ k) : r ∈ insertRow k v rows := by
  induction rows with
  | nil => exact absurd hr List.not_mem_nil
  | cons r' rows ih =>
    rw [insertRow]
    split
    · exact List.mem_cons_of_mem _ hr
    split
    · rename_i heq
      rcases List.mem_cons.1 hr with rfl | hr
      · exact absurd heq.symm hne
      · exact List.mem_cons_of_mem _ hr
    · rcases List.mem_cons.1 hr with rfl | hr
      · exact List.mem_cons_self
      · exact List.mem_cons_of_mem _ (ih hr)

theorem get_put (t : SortedTable K V) (k k' : K) (v : V) :
    (t.put k v).get k' = if k' = k then some v else t.get k' := by
  split
  · rename_i h
    subst h
    exact get_eq_some.2 (mem_insertRow_self ..)
  · rename_i hne
    refine Option.ext fun v' => ?_
    rw [get_eq_some, get_eq_some]
    constructor
    · intro h
      rcases mem_insertRow h with h | h
      · exact absurd (congrArg Prod.fst h) hne
      · exact h
    · exact fun h => mem_insertRow_of_ne h hne

theorem get_erase (t : SortedTable K V) (k k' : K) :
    (t.erase k).get k' = if k' = k then none else t.get k' := by
  split
  · rename_i h
    subst h
    exact get_eq_none.2 fun v hv => by simpa using (List.mem_filter.1 hv).2
  · rename_i hne
    refine Option.ext fun v' => ?_
    rw [get_eq_some, get_eq_some, erase, List.mem_filter]
    simp [hne]

theorem get_eraseRange (t : SortedTable K V) (lo hi k : K) :
    (t.eraseRange lo hi).get k = if lo ≤ k ∧ k < hi then none else t.get k := by
  split
  · rename_i h
    exact get_eq_none.2 fun v hv => of_decide_eq_true (List.mem_filter.1 hv).2 h
  rename_i h
  refine Option.ext fun v => ?_
  rw [get_eq_some, get_eq_some, eraseRange, List.mem_filter]
  exact and_iff_left (decide_eq_true h)

theorem mem_put (h : r ∈ (t.put k v).rows) : r = (k, v) ∨ r ∈ t.rows :=
  mem_insertRow h

theorem mem_erase (h : r ∈ (t.erase k).rows) : r ∈ t.rows :=
  (List.mem_filter.1 h).1

/-! ## Ranges -/

theorem mem_scan : r ∈ t.scan lo hi ↔ r ∈ t.rows ∧ lo ≤ r.1 ∧ r.1 < hi := by
  simp [scan]

/-- The last of a list of rows in the order of their keys has the greatest of them. -/
theorem le_getLast (h : rows.Pairwise fun r r' => r.1 < r'.1) (hlast : rows.getLast? = some r)
    (hr' : r' ∈ rows) : r'.1 ≤ r.1 := by
  obtain ⟨front, rfl⟩ := List.getLast?_eq_some_iff.1 hlast
  rcases List.mem_append.1 hr' with hr' | hr'
  · exact ((List.pairwise_append.1 h).2.2 r' hr' r (List.mem_singleton_self r)).le
  · rw [List.mem_singleton.1 hr']

theorem getLast?_scan (h : (t.scan lo hi).getLast? = some r) :
    r ∈ t.scan lo hi ∧ ∀ r' ∈ t.scan lo hi, r'.1 ≤ r.1 :=
  ⟨List.mem_of_getLast? h, fun _ hr' => le_getLast (t.sorted.filter _) h hr'⟩

/-! ## A table is what it answers -/

theorem ext_rows {l l' : List (K × V)} (h : l.Pairwise fun r r' => r.1 < r'.1)
    (h' : l'.Pairwise fun r r' => r.1 < r'.1) (hmem : ∀ r, r ∈ l ↔ r ∈ l') : l = l' := by
  refine List.Perm.eq_of_pairwise (fun r r' _ _ hlt hgt => absurd hgt (lt_asymm hlt)) h h' ?_
  have hnodup : ∀ {l : List (K × V)}, (l.Pairwise fun r r' => r.1 < r'.1) → l.Nodup :=
    fun hl => hl.imp fun {r r'} hlt heq => absurd (heq ▸ hlt) (lt_irrefl _)
  exact (List.perm_ext_iff_of_nodup (hnodup h) (hnodup h')).2 hmem

theorem ext_get {t' : SortedTable K V} (h : ∀ k, t.get k = t'.get k) : t = t' := by
  have hrows : t.rows = t'.rows := by
    refine ext_rows t.sorted t'.sorted fun r => ?_
    rw [← get_eq_some (t := t), ← get_eq_some (t := t'), h]
  cases t
  cases t'
  cases hrows
  rfl

/-! ## A table written out and read in again -/

/-- Rows put one after another. -/
def putAll (t : SortedTable K V) (rows : List (K × V)) : SortedTable K V :=
  rows.foldl (fun t row => t.put row.1 row.2) t

theorem mem_putAll (h : r ∈ (t.putAll rows).rows) : r ∈ rows ∨ r ∈ t.rows := by
  induction rows generalizing t with
  | nil => exact .inr h
  | cons row rows ih =>
    rcases ih h with h | h
    · exact .inl (List.mem_cons_of_mem _ h)
    · rcases mem_put h with rfl | h
      · exact .inl List.mem_cons_self
      · exact .inr h

/-- Rows of distinct keys are all there afterwards. -/
theorem get_putAll (hrows : rows.Pairwise fun r r' => r.1 < r'.1) (hr : r ∈ rows) :
    (t.putAll rows).get r.1 = some r.2 := by
  induction rows using List.reverseRecOn with
  | nil => cases hr
  | append_singleton rows row ih =>
    obtain ⟨hfront, -, hlast⟩ := List.pairwise_append.1 hrows
    rw [putAll, List.foldl_append, List.foldl_cons, List.foldl_nil, get_put]
    rcases List.mem_append.1 hr with hr | hr
    · rw [if_neg (hlast r hr row (List.mem_singleton_self row)).ne]
      exact ih hfront hr
    · rw [List.mem_singleton.1 hr, if_pos rfl]

/-- The rows of a table, put into an empty one. -/
theorem empty_putAll (t : SortedTable K V) : empty.putAll t.rows = t := by
  refine ext_get fun k => Option.ext fun v => ?_
  constructor
  · intro h
    rcases mem_putAll (get_eq_some.1 h) with h | h
    · exact get_eq_some.2 h
    · cases h
  · intro h
    exact get_putAll t.sorted (get_eq_some.1 h)

variable {t : SortedTable K V} {lo hi : K}

theorem scan_eq_rows (h : ∀ r ∈ t.rows, lo ≤ r.1 ∧ r.1 < hi) : t.scan lo hi = t.rows :=
  List.filter_eq_self.2 fun r hr => decide_eq_true (h r hr)

theorem eraseRange_eq_empty (h : ∀ r ∈ t.rows, lo ≤ r.1 ∧ r.1 < hi) :
    t.eraseRange lo hi = empty := by
  refine ext_get fun k => ?_
  rw [get_eraseRange]
  split
  · rfl
  · next hout => exact get_eq_none.2 fun v hv => hout (h _ hv)

/-! ## Other values at the same keys -/

/-- `t` with `g` of each value in its place. -/
def mapValues {W : Type*} (g : V → W) (t : SortedTable K V) : SortedTable K W :=
  ⟨t.rows.map fun r => (r.1, g r.2), List.pairwise_map.2 t.sorted⟩

variable {W : Type*} (g : V → W)

variable (t : SortedTable K V)

theorem get_mapValues (k : K) : (t.mapValues g).get k = (t.get k).map g := by
  rw [get, get, mapValues, List.find?_map, Option.map_map, Option.map_map]
  rfl

theorem scan_mapValues (lo hi : K) :
    (t.mapValues g).scan lo hi = (t.scan lo hi).map fun r => (r.1, g r.2) :=
  List.filter_map

theorem put_mapValues (k : K) (v : V) : (t.mapValues g).put k (g v) = (t.put k v).mapValues g := by
  refine ext_get fun k' => ?_
  rw [get_put, get_mapValues, get_mapValues, get_put]
  split <;> rfl

theorem erase_mapValues (k : K) : (t.mapValues g).erase k = (t.erase k).mapValues g := by
  refine ext_get fun k' => ?_
  rw [get_erase, get_mapValues, get_mapValues, get_erase]
  split <;> rfl

end SortedTable
