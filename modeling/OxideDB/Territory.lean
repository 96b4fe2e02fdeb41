import Mathlib.Data.Set.Lattice
import Mathlib.Order.CompletePartialOrder

/-!
# Who owns what

A family of sets that do not meet, and the function that names the one a point is in.  The two
say the same thing: a family is described by an owner function exactly if it is disjoint
(`OwnedBy.disjoint`, `exists_ownedBy`), and the function is defined on the union.  An owner may
cede a part of what it has to one that has nothing (`OwnedBy.cede`).
-/

namespace Territory

open Option

variable {ι α : Type*} {owns owns' : ι → Set α} {owner : α → Option ι} {i j : ι} {a : α}
  {s : Set α}

/-- The points of `owns i` are those whose owner is `i`. -/
def OwnedBy (owns : ι → Set α) (owner : α → Option ι) : Prop :=
  ∀ a i, owner a = some i ↔ a ∈ owns i

theorem OwnedBy.disjoint (h : OwnedBy owns owner) :
    Pairwise fun i j => Disjoint (owns i) (owns j) := by
  intro i j hne
  rw [Set.disjoint_left]
  intro a hi hj
  have heq : some i = some j := ((h a i).2 hi).symm.trans ((h a j).2 hj)
  exact hne (some.inj heq)

/-- The owner function is defined on the union. -/
theorem OwnedBy.mem_iUnion (h : OwnedBy owns owner) :
    a ∈ ⋃ i, owns i ↔ ∃ i, owner a = some i := by
  rw [Set.mem_iUnion]
  exact exists_congr fun i => (h a i).symm

theorem OwnedBy.existsUnique (h : OwnedBy owns owner) (ha : a ∈ ⋃ i, owns i) :
    ∃! i, a ∈ owns i := by
  obtain ⟨i, hi⟩ := h.mem_iUnion.1 ha
  refine ⟨i, (h a i).1 hi, fun j hj => ?_⟩
  exact some.inj (((h a j).2 hj).symm.trans hi)

/-- Sets that do not meet have an owner function. -/
theorem exists_ownedBy (h : Pairwise fun i j => Disjoint (owns i) (owns j)) :
    ∃ owner, OwnedBy owns owner := by
  classical
  refine ⟨fun a => if ha : ∃ i, a ∈ owns i then some ha.choose else none, fun a i => ?_⟩
  dsimp only
  split_ifs with ha
  · rw [some_inj]
    refine ⟨fun heq => heq ▸ ha.choose_spec, fun hi => ?_⟩
    by_contra hne
    exact Set.disjoint_left.1 (h hne) ha.choose_spec hi
  · exact ⟨nofun, fun hi => absurd ⟨i, hi⟩ ha⟩

/-- The points of `s` go to `j`. -/
def cede (s : Set α) [DecidablePred (· ∈ s)] (owner : α → Option ι) (j : ι) : α → Option ι :=
  fun a => if a ∈ s then some j else owner a

/-- One that had nothing gets a part of what another has. -/
theorem OwnedBy.cede [DecidablePred (· ∈ s)] (h : OwnedBy owns owner) (hs : s ⊆ owns i)
    (hj : owns j = ∅) (hi' : owns' i = owns i \ s) (hj' : owns' j = s)
    (hk' : ∀ k, k ≠ i → k ≠ j → owns' k = owns k) :
    OwnedBy owns' (cede s owner j) := by
  intro a k
  by_cases hkj : k = j
  · subst hkj
    rw [hj', Territory.cede]
    split
    · next ha => exact iff_of_true rfl ha
    next ha =>
    refine iff_of_false (fun heq => ?_) ha
    have hmem := (h a k).1 heq
    rw [hj] at hmem
    exact hmem
  have hne : ¬ j = k := fun heq => hkj heq.symm
  by_cases hki : k = i
  · subst hki
    rw [hi', Territory.cede, Set.mem_sdiff]
    split
    · next ha => exact iff_of_false (fun heq => hne (some.inj heq)) fun hmem => hmem.2 ha
    · next ha => rw [h a k, and_iff_left ha]
  · rw [hk' k hki hkj, Territory.cede]
    split
    · next ha =>
      refine iff_of_false (fun heq => hne (some.inj heq)) fun hmem => hki ?_
      exact some.inj (((h a k).2 hmem).symm.trans ((h a i).2 (hs ha)))
    · exact h a k

theorem OwnedBy.cede_defined [DecidablePred (· ∈ s)] (h : OwnedBy owns owner) (hs : s ⊆ owns i) :
    (∃ k, Territory.cede s owner j a = some k) ↔ ∃ k, owner a = some k := by
  rw [Territory.cede]
  split
  · next ha => exact iff_of_true ⟨j, rfl⟩ ⟨i, (h a i).2 (hs ha)⟩
  · rfl

end Territory
