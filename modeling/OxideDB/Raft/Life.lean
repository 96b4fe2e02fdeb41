import OxideDB.Raft.Runs

/-!
# The life of one node

A node by itself: what it is asked, one step after the other, and the crashes between
two steps or inside one.  Nothing is assumed about who asks.  Whatever a group does, each
of its nodes leads such a life, so what holds of every life holds of the nodes of every
run.
-/

namespace OxideDB.Raft

open Function

/-- What can happen to a node. -/
inductive LifeEvent (n : ℕ) (δ : Type) where
  | step (input : Input n δ)
  /-- A crash between two steps, and the restart. -/
  | crash
  /-- A crash at checkpoint `j` of the step, and the restart. -/
  | crashIn (input : Input n δ) (j : ℕ)

variable {n : ℕ} {σ δ : Type} {cfg : Config n σ δ}

/-- What the node is asked, in a step it completes or in one it crashes in. -/
def LifeEvent.asked : LifeEvent n δ → Option (Input n δ)
  | .step input => some input
  | .crash => none
  | .crashIn input _ => some input

namespace Node

def survive (cfg : Config n σ δ) (me : Fin n) (nd : Node n σ δ) :
    LifeEvent n δ → Option (Node n σ δ)
  | .step input => some (nd.handle cfg me input).1
  | .crash => some (loadFromStorage cfg me nd.storage)
  | .crashIn input j =>
    ((nd.handle cfg me input).1.checkpoints[j]?).map fun cp => loadFromStorage cfg me cp.storage

/-- A life. -/
abbrev life (cfg : Config n σ δ) (me : Fin n) :
    Node n σ δ → List (LifeEvent n δ) → Option (Node n σ δ) :=
  Transition.run (survive cfg me)

/-- What a step keeps of the node, and of the disk at every write on the way, an event
keeps, if a restart turns the one into the other. -/
theorem survive_invariant {me : Fin n} {I : Node n σ δ → Prop} {D : EngineRaftStorage n δ → Prop}
    {nd nd' : Node n σ δ} {e : LifeEvent n δ} (hdisk : D nd.storage)
    (hstep : ∀ input ∈ e.asked, I (nd.handle cfg me input).1 ∧
      ∀ cp ∈ (nd.handle cfg me input).1.checkpoints, D cp.storage)
    (hload : ∀ st, D st → I (loadFromStorage cfg me st))
    (hs : nd.survive cfg me e = some nd') : I nd' := by
  cases e with
  | step input =>
    cases hs
    exact (hstep input rfl).1
  | crash =>
    cases hs
    exact hload _ hdisk
  | crashIn input j =>
    obtain ⟨cp, hcp, rfl⟩ := Option.map_eq_some_iff.1 hs
    exact hload _ ((hstep input rfl).2 cp (List.mem_of_getElem? hcp))

end Node

namespace RaftCluster

variable {g g' : RaftCluster n σ δ}

/-- In one event of the group at most one node goes through anything. -/
theorem step_lives {e : Event n} (hs : g.step cfg e = some g') (p : Fin n) :
    g'.nodes p = g.nodes p ∨ ∃ l, (g.nodes p).survive cfg p l = some (g'.nodes p) := by
  have moved : ∀ {q : Fin n} {nd : Node n σ δ} {l : LifeEvent n δ},
      (g.nodes q).survive cfg q l = some nd →
      update g.nodes q nd p = g.nodes p ∨
        ∃ l, (g.nodes p).survive cfg p l = some (update g.nodes q nd p) := by
    intro q nd l hl
    by_cases hp : p = q
    · subst hp
      rw [update_self]
      exact .inr ⟨l, hl⟩
    · exact .inl (update_of_ne hp ..)
  cases happens hs with
  | @handled a q input hin =>
    have := moved (q := q) (l := .step input) rfl
    simpa only [setNode, settle_nodes] using this
  | stood hb => exact .inl (by rw [(bystand_stands hb).nodes])
  | crashed q => exact moved (q := q) (l := .crash) rfl
  | @crashedIn a j q input cp hin hcp =>
    have := moved (q := q) (l := .crashIn input j) (by simp only [Node.survive, hcp]; rfl)
    simpa only [restart, consume_nodes] using this

/-- **The nodes of a group live.** -/
theorem nodes_live {es : List (Event n)} (hr : run cfg (init cfg) es = some g) (p : Fin n) :
    ∃ ls, Node.life cfg p (Node.loadFromStorage cfg p .empty) ls = some (g.nodes p) := by
  refine Transition.run_invariant
    (I := fun g => ∃ ls, Node.life cfg p (Node.loadFromStorage cfg p .empty) ls =
      some (g.nodes p)) ?_ ⟨[], rfl⟩ hr
  rintro g₁ e g₂ ⟨ls, hls⟩ hs
  rcases step_lives hs p with heq | ⟨l, hl⟩
  · exact ⟨ls, by rw [heq]; exact hls⟩
  · exact ⟨ls ++ [l], Transition.run_concat hls hl⟩

end RaftCluster

end OxideDB.Raft
