import OxideDB.Raft.FullLog
import OxideDB.Consensus.Quorum
import Mathlib.Data.List.Sort
import Mathlib.Data.Fintype.Card

/-!
# The commit rule

`_update_commit_index` sorts the match indices, puts the node's own last index after
them and reads off the one a majority reaches.  The node itself is the last of the
list, so the rule is a count of nodes exactly when its own index is the largest.
-/

namespace OxideDB.Raft.Node

open List

open Consensus (Majority)

variable {n : ℕ} {σ δ : Type} {cfg : Config n σ δ} {nd : Node n σ δ} {me : Fin n} {i : ℕ}

/-- A peer is known to hold the log up to `i`. -/
def reaches (nd : Node n σ δ) (i : ℕ) (q : Fin n) : Bool :=
  ((nd.matchIndex q).map fun k => decide (i ≤ k)).getD false

/-- The node `me` and the peers known to hold the log up to `i`. -/
def holders (nd : Node n σ δ) (me : Fin n) (i : ℕ) : Finset (Fin n) :=
  insert me (((List.finRange n).filter (nd.reaches i)).toFinset)

theorem reaches_iff {q : Fin n} :
    nd.reaches i q = true ↔ ∃ k, nd.matchIndex q = some k ∧ i ≤ k := by
  unfold reaches
  rcases nd.matchIndex q with _ | k <;> simp

theorem mem_holders {q : Fin n} :
    q ∈ nd.holders me i ↔ q = me ∨ ∃ k, nd.matchIndex q = some k ∧ i ≤ k := by
  rw [holders, Finset.mem_insert, mem_toFinset, mem_filter, reaches_iff]
  simp

/-- The leader's own place in the list counts as one node more. -/
theorem card_holders (hself : nd.matchIndex me = none) :
    (nd.holders me i).card = ((finRange n).filterMap nd.matchIndex).countP (i ≤ ·) + 1 := by
  have hme : me ∉ ((finRange n).filter (nd.reaches i)).toFinset := by
    rw [mem_toFinset, mem_filter, reaches_iff, hself]
    simp
  rw [holders, Finset.card_insert_of_notMem hme,
    toFinset_card_of_nodup ((nodup_finRange n).filter _), countP_filterMap,
    countP_eq_length_filter]
  rfl

theorem countP_matchIndices :
    nd.matchIndices.countP (i ≤ ·) =
      ((finRange n).filterMap nd.matchIndex).countP (i ≤ ·) +
        if i ≤ nd.lastLogIndex then 1 else 0 := by
  rw [matchIndices, countP_append, (perm_insertionSort _ _).countP_eq]
  simp [countP_cons]

/-- The list is sorted as long as no peer is believed to be ahead of the leader. -/
theorem matchIndices_sorted (hle : ∀ q k, nd.matchIndex q = some k → k ≤ nd.lastLogIndex) :
    nd.matchIndices.Pairwise (· ≤ ·) := by
  rw [matchIndices, pairwise_append]
  refine ⟨pairwise_insertionSort _ _, pairwise_singleton .., fun x hx y hy => ?_⟩
  rw [mem_singleton.1 hy]
  rw [(perm_insertionSort _ _).mem_iff, mem_filterMap] at hx
  obtain ⟨q, -, hq⟩ := hx
  exact hle q x hq

theorem majority_pos (n : ℕ) : 0 < majority n := Nat.succ_pos _

theorem newCommitIndex_get (h : majority n ≤ nd.matchIndices.length) :
    nd.matchIndices[nd.matchIndices.length - majority n]? =
      some (nd.matchIndices.getD (nd.matchIndices.length - majority n) 0) := by
  have hlt : nd.matchIndices.length - majority n < nd.matchIndices.length := by
    have := majority_pos n
    omega
  rw [getD_eq_getElem?_getD, getElem?_eq_getElem hlt]
  rfl

/-- **The commit index moves only to an entry of the current term that a majority
holds.** -/
theorem updateCommitIndex_cases (cfg : Config n σ δ) (hself : nd.matchIndex me = none)
    (hle : ∀ q k, nd.matchIndex q = some k → k ≤ nd.lastLogIndex) :
    nd.updateCommitIndex cfg = nd ∨ ∃ i e, nd.commitIndex < i ∧ nd.entryAt i = some e ∧
      e.term = nd.currentTerm ∧ Majority (nd.holders me i) ∧
      nd.updateCommitIndex cfg = nd.commitTo cfg i := by
  rcases updateCommitIndex_moves cfg nd with heq | ⟨hlen, i, e, rfl, hlt, he, hterm, heq⟩
  · exact .inl heq
  refine .inr ⟨_, e, hlt, he, hterm, ?_, heq⟩
  have hcount := Consensus.countP_le_of_sorted (matchIndices_sorted hle) (newCommitIndex_get hlen)
  rw [countP_matchIndices] at hcount
  rw [Majority, Fintype.card_fin, card_holders hself]
  have hmaj : majority n = n / 2 + 1 := rfl
  split at hcount <;> omega

/-- An index a majority holds is not beyond where the count falls. -/
theorem le_newCommitIndex (hself : nd.matchIndex me = none)
    (hle : ∀ q k, nd.matchIndex q = some k → k ≤ nd.lastLogIndex)
    (hi : i ≤ nd.lastLogIndex) (hmaj : Majority (nd.holders me i)) :
    majority n ≤ nd.matchIndices.length ∧
      i ≤ nd.matchIndices.getD (nd.matchIndices.length - majority n) 0 := by
  rw [Majority, Fintype.card_fin, card_holders hself] at hmaj
  have hcount : majority n ≤ nd.matchIndices.countP (i ≤ ·) := by
    rw [countP_matchIndices, if_pos hi]
    exact hmaj
  have hlen : majority n ≤ nd.matchIndices.length := le_trans hcount countP_le_length
  refine ⟨hlen, Consensus.le_of_countP_of_sorted (matchIndices_sorted hle)
    (newCommitIndex_get hlen) ?_⟩
  omega

end OxideDB.Raft.Node
