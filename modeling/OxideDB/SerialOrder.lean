import Mathlib.Data.List.Induction
import Mathlib.Data.List.Sort
import Mathlib.Logic.Function.Basic

/-!
# One at a time

Transactions that write rows to a store, one after the other.  What a key holds at the end is
what the last of them to write it has left (`store_of_writer`); in an order by increasing
times, the ones before a transaction are those with a smaller time (`mem_before`).
-/

namespace SerialOrder

open List

variable {τ K V : Type*} [DecidableEq K]

/-- A store with rows written to it, in their order. -/
def write (rows : List (K × V)) (store : K → Option V) : K → Option V :=
  rows.foldl (fun store row => Function.update store row.1 (some row.2)) store

/-- The store the transactions leave, one after the other. -/
def store (rows : τ → List (K × V)) (order : List τ) : K → Option V :=
  order.foldl (fun store t => write (rows t) store) fun _ => none

variable {rows : τ → List (K × V)} {order : List τ} {k : K} {v : V}

/-- A key that is not written keeps what it has. -/
theorem write_of_not_mem {rows : List (K × V)} {store : K → Option V}
    (h : ∀ v, (k, v) ∉ rows) : write rows store k = store k := by
  induction rows generalizing store with
  | nil => rfl
  | cons row rows ih =>
    have hne : k ≠ row.1 := fun heq => h row.2 (by rw [heq]; exact mem_cons_self)
    rw [write, foldl_cons]
    exact (ih fun v hv => h v (mem_cons_of_mem _ hv)).trans (Function.update_of_ne hne _ _)

/-- A key that is written, always with the same value. -/
theorem write_of_mem {rows : List (K × V)} {store : K → Option V} (h : (k, v) ∈ rows)
    (hone : ∀ w, (k, w) ∈ rows → w = v) : write rows store k = some v := by
  induction rows generalizing store with
  | nil => cases h
  | cons row rows ih =>
    rw [write, foldl_cons]
    by_cases hin : ∃ w, (k, w) ∈ rows
    · obtain ⟨w, hw⟩ := hin
      obtain rfl := hone w (mem_cons_of_mem _ hw)
      exact ih hw fun w' hw' => hone w' (mem_cons_of_mem _ hw')
    · obtain rfl := (mem_cons.1 h).resolve_right fun hmem => hin ⟨v, hmem⟩
      exact (write_of_not_mem fun w hw => hin ⟨w, hw⟩).trans (Function.update_self _ _ _)

theorem store_concat (order : List τ) (t : τ) :
    store rows (order ++ [t]) = write (rows t) (store rows order) := by
  rw [store, foldl_append]
  rfl

theorem store_of_none (h : ∀ t ∈ order, ∀ v, (k, v) ∉ rows t) : store rows order k = none := by
  induction order using reverseRecOn with
  | nil => rfl
  | append_singleton order t ih =>
    rw [store_concat, write_of_not_mem (h t (mem_append_right _ mem_cons_self))]
    exact ih fun u hu => h u (mem_append_left _ hu)

section Times

variable {time : τ → ℤ}

theorem store_of_writer (hsorted : order.Pairwise fun a b => time a < time b) {t : τ}
    (ht : t ∈ order) (hmem : (k, v) ∈ rows t) (hone : ∀ w, (k, w) ∈ rows t → w = v)
    (hlast : ∀ u ∈ order, time t < time u → ∀ w, (k, w) ∉ rows u) :
    store rows order k = some v := by
  induction order using reverseRecOn with
  | nil => cases ht
  | append_singleton order u ih =>
    rw [store_concat]
    have hbefore := pairwise_append.1 hsorted
    rcases mem_append.1 ht with hin | hend
    · have hlt : time t < time u := hbefore.2.2 t hin u mem_cons_self
      rw [write_of_not_mem (hlast u (mem_append_right _ mem_cons_self) hlt)]
      exact ih hbefore.1 hin fun u' hu' => hlast u' (mem_append_left _ hu')
    · obtain rfl := mem_singleton.1 hend
      exact write_of_mem hmem hone

/-- In an order by times, the ones before a transaction have the smaller times. -/
theorem mem_before {before after : List τ} {t u : τ}
    (hsorted : (before ++ t :: after).Pairwise fun a b => time a < time b) :
    u ∈ before ↔ u ∈ before ++ t :: after ∧ time u < time t := by
  obtain ⟨-, hafter, hbefore⟩ := pairwise_append.1 hsorted
  constructor
  · exact fun hu => ⟨mem_append_left _ hu, hbefore u hu t mem_cons_self⟩
  rintro ⟨hu, hlt⟩
  rcases mem_append.1 hu with hu | hu
  · exact hu
  · rcases mem_cons.1 hu with rfl | hu
    · exact absurd hlt (lt_irrefl _)
    · exact absurd ((pairwise_cons.1 hafter).1 u hu) (not_lt.2 hlt.le)

/-- Things with different times can be put in their order. -/
theorem exists_order (l : List τ) (hone : l.Pairwise fun a b => time a ≠ time b) :
    ∃ order : List τ, order.Perm l ∧ order.Pairwise fun a b => time a < time b := by
  refine ⟨l.insertionSort fun a b => time a ≤ time b, perm_insertionSort _ l, ?_⟩
  have hle : (l.insertionSort fun a b => time a ≤ time b).Pairwise fun a b => time a ≤ time b :=
    pairwise_insertionSort _ l
  have hne : (l.insertionSort fun a b => time a ≤ time b).Pairwise fun a b => time a ≠ time b :=
    (List.Perm.pairwise_iff (fun h => h.symm) (perm_insertionSort _ l)).2 hone
  exact (hle.and hne).imp fun h => lt_of_le_of_ne h.1 h.2

end Times

end SerialOrder
