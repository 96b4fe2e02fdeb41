import OxideDB.Raft.Pieces
import OxideDB.Raft.Proposal
import OxideDB.Raft.ReadIndex

/-!
# What a leader has applied

A node's machine is asked directly in a few places, without the handshake a read makes: the
rows of a split and of a move are read this way, and so are the locks and the write records a
resolver looks at.  What such a look shows depends on the node.  One that leads a term a
majority has not left, and has committed an entry of that term, has applied everything that
was ever acknowledged; a leader that has been replaced, and one that has only just been
elected, need not have.
-/

namespace OxideDB.Raft

open Consensus (Chosen Majority)

variable {l : List LogEntry} {U : ℕ}
variable {n : ℕ} {σ δ : Type} {cfg : Config n σ δ}

/-! ## Committed is applied -/

namespace Node

/-- The node has applied what it knows to be committed. -/
def CaughtUp (nd : Node n σ δ) : Prop := nd.commitIndex ≤ nd.lastApplied

namespace CaughtUp

variable {nd nd' : Node n σ δ}

theorem applyCommittedEntries (cfg : Config n σ δ) (nd : Node n σ δ) :
    (nd.applyCommittedEntries cfg).CaughtUp := by
  obtain ⟨hc, ha⟩ := applyCommittedEntries_frame cfg nd
  rw [CaughtUp, hc, ha]
  exact le_max_right _ _

/-- A cut takes the commit index and the applied index back to one place. -/
theorem truncateFrom (h : nd.CaughtUp) (i : ℕ) : (nd.truncateFrom i).CaughtUp := by
  unfold CaughtUp at h ⊢
  simp only [Node.truncateFrom]
  exact le_min ((min_le_left _ _).trans h) le_rfl

/-- Every piece of a step leaves nothing committed and unapplied. -/
theorem keeps (cfg : Config n σ δ) : KeepsAll cfg (fun _ => True) CaughtUp where
  turns h ht := by rw [CaughtUp, ht.commitIndex, ht.lastApplied]; exact h
  saveMeta h := h
  append h _ _ := h
  commitTo _ _ _ _ _ := applyCommittedEntries ..
  absorbEntry h e _ := absorbEntry_cases (fun _ => h) (fun _ _ => h) fun _ _ _ => truncateFrom h _
  follow _ _ := applyCommittedEntries ..
  -- the snapshot is beyond what is applied, and so beyond what is committed
  replaceState h _ _ hnew := max_le (le_trans h hnew.le) le_rfl

/-- **A step of a node leaves nothing committed and unapplied.** -/
theorem handle (h : nd.CaughtUp) (me : Fin n) (input : Input n δ) :
    (nd.handle cfg me input).1.CaughtUp := by
  refine (keeps cfg).handle h (fun _ _ => trivial) me (input.holds_of_forall fun _ => trivial) ?_
  intro hf
  cases input with
  | freezeWrites reason => exact h
  | resumeWrites => exact h
  | _ => exact hf.elim

end CaughtUp
end Node

namespace RaftCluster

variable {g : RaftCluster n σ δ}

/-- **A node has applied what it knows to be committed**, whatever has happened. -/
theorem caughtUp_run {es : List (Event n)} (hr : run cfg (init cfg) es = some g) (p : Fin n) :
    (g.nodes p).CaughtUp := by
  obtain ⟨ls, hlife⟩ := nodes_live hr p
  refine Transition.run_invariant (I := Node.CaughtUp) (fun nd e nd' h hs => ?_)
    (Node.CaughtUp.applyCommittedEntries ..) hlife
  exact Node.survive_invariant (D := fun _ => True) trivial
    (fun input _ => ⟨h.handle p input, fun _ _ => trivial⟩)
    (fun _ _ => Node.CaughtUp.applyCommittedEntries ..) hs

end RaftCluster

/-! ## A leader in office -/

/-- `p` leads a term that a majority has not left, and the newest entry it knows to be
committed is of that term. -/
@[mk_iff]
structure Reigning (g : RaftCluster n σ δ) (p : Fin n) : Prop where
  leads : (g.nodes p).state = .leader
  unopposed : majority n ≤
    (Finset.univ.filter fun q => (g.nodes q).currentTerm ≤ (g.nodes p).currentTerm).card
  earned : Safety.termAt (g.nodes p) (g.nodes p).commitIndex = some (g.nodes p).currentTerm

instance (g : RaftCluster n σ δ) (p : Fin n) : Decidable (Reigning g p) :=
  decidable_of_iff' _ (reigning_iff g p)

namespace Reigning

variable {g : RaftCluster n σ δ} {p : Fin n} {a : Log n}

section

variable (h : Reigning g p) (hr : Rel cfg a g)
include h hr

theorem won_le {T : ℕ} {el : Consensus.Election (Fin n) LogEntry} (hel : a.won T = some el) :
    T ≤ (g.nodes p).currentTerm := by
  have hmaj : Majority (Finset.univ.filter fun q =>
      (g.nodes q).currentTerm ≤ (g.nodes p).currentTerm) := by
    rw [Majority, Fintype.card_fin]
    exact h.unopposed
  obtain ⟨v, hv, hvel⟩ := hmaj.inter (hr.sound.shape.wonMajority T el hel)
  obtain ⟨l, hl⟩ := hr.sound.shape.wonBallot T el hel v hvel
  have hle := hr.sound.shape.ballotTerm v T _ l hl
  rw [(hr.nodes v).term] at hle
  exact hle.trans (Finset.mem_filter.1 hv).2

/-- **Whatever is chosen, the leader knows to be committed.** -/
theorem prefix_committed (hl : Chosen a U l) :
    l <+: (g.nodes p).fullLog.take (g.nodes p).commitIndex := by
  obtain ⟨T, -, hpre⟩ := hl
  have hp := hr.nodes p
  obtain ⟨⟨el, hel, -, -⟩, hreign, -, -, hcommit⟩ := hp.leader h.leads
  rcases Nat.eq_zero_or_pos (a.commit T) with h0 | hpos
  · rw [h0, List.take_zero, List.prefix_nil] at hpre
    rw [hpre]
    exact List.nil_prefix
  have hc := hr.sound.committed T hpos
  obtain ⟨el', hel'⟩ := hc.won hr.sound.shape
  rcases Nat.eq_or_lt_of_le (h.won_le hr hel') with rfl | hlt
  · -- committed by this leader
    rw [hreign] at hpre
    exact hpre.trans (List.take_prefix_take_left hcommit)
  · -- committed before its election: it was elected with it
    have hsafe := hc.safe hr.sound.shape hr.sound.retention _ _ el hlt le_rfl hel
    have hearned := ReadIndex.earned_commit hp hr.sound hel h.earned
    have hlen := (hpre.trans hsafe).length_le
    have hlog := (hpre.trans hsafe).trans (hr.sound.shape.wonLog _ el hel)
    rw [hreign] at hlog
    exact List.prefix_take_iff.2 ⟨hlog, by omega⟩

/-- **Whatever is chosen, the leader's machine has folded in.** -/
theorem covers (hup : (g.nodes p).CaughtUp) (hl : Chosen a U l) :
    l <+: (g.nodes p).machine.history := by
  have heq : (g.nodes p).lastApplied = (g.nodes p).commitIndex :=
    le_antisymm (hr.nodes p).steady.applied_le hup
  rw [(hr.nodes p).steady.history, heq]
  exact h.prefix_committed hr hl

end

/-- **What was answered with a success, the leader's machine has folded in**, after the entries
it was answered after. -/
theorem acknowledged (h : Reigning g p) {es : List (Event n)}
    (hw : RaftCluster.Along (Proposal.Watchful cfg) cfg (RaftCluster.init cfg) es)
    (hrun : RaftCluster.run cfg (RaftCluster.init cfg) es = some g) {call : ProposeCall n}
    (hcall : call ∈ g.calls) {entry : Option LogEntry} {r : ApplyResult}
    (hst : call.status = .returned entry r) (hsucc : r.success = true) :
    ∃ e before s, e.command = call.command ∧ cfg.machine.Reached s before ∧
      before ++ [e] <+: (g.nodes p).machine.history ∧
      (cfg.machine.applyEntry s e).2.success = true := by
  obtain ⟨a, -, hr, hacc⟩ := (Proposal.Accounted.init cfg).run (Rel.init cfg) hw hrun
  have hknown := hacc call hcall
  rw [hst] at hknown
  rcases hknown with hnone | ⟨e, -, hcmd, -, before, s, ⟨-, T, hchosen⟩, hreach, hres⟩
  · exact absurd hnone (indexed_run hrun call hcall entry r hst hsucc)
  refine ⟨e, before, s, hcmd, hreach,
    h.covers hr (RaftCluster.caughtUp_run hrun p) hchosen, ?_⟩
  rw [hres] at hsucc
  exact hsucc

end Reigning
end OxideDB.Raft
