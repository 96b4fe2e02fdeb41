import Mathlib.Data.Fintype.Card
import Mathlib.Data.Finset.Card
import Mathlib.Data.List.Sort

/-!
# Majorities

Sets of voters that hold more than half of a finite population, and the counting
fact behind every commit rule: in a sorted list of scores, the score at a position
is reached by everything from that position on.
-/

namespace Consensus

open List

variable {N : Type*} [Fintype N]

/-- More than half of the population. -/
def Majority (Q : Finset N) : Prop := Fintype.card N / 2 + 1 ≤ Q.card

instance (Q : Finset N) : Decidable (Majority Q) :=
  inferInstanceAs (Decidable (_ ≤ _))

/-- Two majorities share a member. -/
theorem Majority.inter {Q R : Finset N} (hQ : Majority Q) (hR : Majority R) :
    ∃ v, v ∈ Q ∧ v ∈ R := by
  classical
  by_contra hno
  push Not at hno
  have hdis : Disjoint Q R := Finset.disjoint_left.2 hno
  have hcard : (Q ∪ R).card ≤ Fintype.card N := Finset.card_le_univ _
  rw [Finset.card_union_of_disjoint hdis] at hcard
  unfold Majority at hQ hR
  omega

/-! ## Counting in a sorted list -/

variable {l : List ℕ} {i x : ℕ} (hs : l.Pairwise (· ≤ ·)) (hi : l[i]? = some x)
include hs hi

/-- From position `i` on, a sorted list is at least its value at `i`. -/
theorem countP_le_of_sorted : l.length - i ≤ l.countP (x ≤ ·) := by
  induction l generalizing i with
  | nil => simp at hi
  | cons a t ih =>
    rw [pairwise_cons] at hs
    cases i with
    | zero =>
      -- everything in the list is at least its head
      simp only [getElem?_cons_zero, Option.some.injEq] at hi
      subst hi
      have hall : (a :: t).countP (a ≤ ·) = (a :: t).length := by
        rw [countP_eq_length]
        intro y hy
        rcases mem_cons.1 hy with rfl | hy
        · simp
        · simpa using hs.1 y hy
      omega
    | succ i =>
      rw [getElem?_cons_succ] at hi
      have := ih hs.2 hi
      rw [countP_cons, length_cons]
      omega

/-- If enough of a sorted list is at least `k`, so is the value that far from the
end. -/
theorem le_of_countP_of_sorted {k : ℕ} (hc : l.length - i ≤ l.countP (k ≤ ·)) : k ≤ x := by
  induction l generalizing i with
  | nil => simp at hi
  | cons a t ih =>
    rw [pairwise_cons] at hs
    cases i with
    | zero =>
      simp only [getElem?_cons_zero, Option.some.injEq] at hi
      subst hi
      have hall : (a :: t).countP (k ≤ ·) = (a :: t).length :=
        le_antisymm countP_le_length (by simpa using hc)
      rw [countP_eq_length] at hall
      simpa using hall a (mem_cons_self ..)
    | succ i =>
      rw [getElem?_cons_succ] at hi
      rw [countP_cons, length_cons] at hc
      by_cases hka : k ≤ a
      · exact le_trans hka (hs.1 x (mem_of_getElem? hi))
      · exact ih hs.2 hi (by simp only [hka, decide_false] at hc; simp at hc; omega)

end Consensus
