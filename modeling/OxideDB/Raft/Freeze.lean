import OxideDB.Raft.Pieces

/-!
# What takes a freeze off

A freeze is a flag of one node, kept in memory.  Nothing the group does among itself touches it,
elections and snapshots included; `freeze_writes` and `resume_writes` do, and so does a restart,
which comes back without it.
-/

namespace OxideDB.Raft

variable {n : ℕ} {σ δ : Type} {cfg : Config n σ δ}

namespace Node

variable (nd : Node n σ δ)

theorem commitTo_writesFrozen (i : ℕ) : (nd.commitTo cfg i).writesFrozen = nd.writesFrozen := by
  rw [commitTo, applyCommittedEntries]
  obtain ⟨m, rs, heq⟩ := applyNext_iterate cfg _ (saveCommitIndex { nd with commitIndex := i })
  rw [heq]
  exact maybeSnapshot_cases (motive := fun nd' => nd'.writesFrozen = nd.writesFrozen) rfl rfl
    fun _ _ _ _ => rfl

theorem keeps_writesFrozen (b : Bool) :
    KeepsAll cfg (fun _ => True) fun nd : Node n σ δ => nd.writesFrozen = b where
  turns h ht := ht.writesFrozen.trans h
  saveMeta h := h
  append h _ _ := h
  commitTo h _ _ _ _ := (commitTo_writesFrozen _ _).trans h
  absorbEntry h _ _ :=
    absorbEntry_cases (motive := (·.writesFrozen = b)) (fun _ => h) (fun _ _ => h) fun _ _ _ => h
  follow h i := (commitTo_writesFrozen _ i).trans h
  replaceState h _ _ _ := h

/-- **What a step of a node makes of its freeze.** -/
theorem handle_writesFrozen (me : Fin n) (input : Input n δ) :
    (nd.handle cfg me input).1.writesFrozen =
      match input with
      | .freezeWrites _ => true
      | .resumeWrites => false
      | _ => nd.writesFrozen := by
  have hother : ¬input.Freezes → (nd.handle cfg me input).1.writesFrozen = nd.writesFrozen :=
    fun hf => (keeps_writesFrozen nd.writesFrozen).handle rfl (fun _ _ => trivial) me
      (input.holds_of_forall fun _ => trivial) fun h => absurd h hf
  cases input with
  | freezeWrites reason => rfl
  | resumeWrites => rfl
  | _ => exact hother not_false

end Node

/-- The event thaws no node, and is no restart. -/
def Event.KeepsFreeze : Event n → Prop
  | .act (.resumeWrites _) | .crash _ | .crashIn _ _ => False
  | _ => True

instance (e : Event n) : Decidable e.KeepsFreeze := by
  induction e using Event.casesOn with
  | act a => induction a using Action.casesOn <;> dsimp only [Event.KeepsFreeze] <;> infer_instance
  | crash _ | crashIn _ _ => exact inferInstanceAs (Decidable False)

namespace RaftCluster

variable {g g' : RaftCluster n σ δ}

/-- **What a step of a group makes of a node's freeze.** -/
theorem writesFrozen_step {e : Event n} (he : e.KeepsFreeze) (hs : g.step cfg e = some g')
    {p : Fin n} (hp : (g.nodes p).writesFrozen = true) : (g'.nodes p).writesFrozen = true := by
  cases happens hs with
  | @handled a q input hin =>
    by_cases hq : p = q
    · subst hq
      simp only [setNode, Function.update_self, Node.handle_writesFrozen]
      -- the input that takes the freeze off comes from an event that is left out
      cases a with
      | freezeWrites _ _ => cases hin; rfl
      | resumeWrites _ => exact he.elim
      | deliver i =>
        obtain ⟨x, -, heq⟩ := Option.map_eq_some_iff.1 hin
        cases heq
        rcases x with ⟨src, dst, body⟩
        cases body <;> exact hp
      | proposeCommand k | finishRead k =>
        simp only [inputOf] at hin
        split at hin <;> cases hin
        exact hp
      | startElection q | shutdown q => cases hin; exact hp
      | _ => cases hin
    · simp only [setNode, Function.update_of_ne hq, settle_nodes]
      exact hp
  | stood hb =>
    rw [(bystand_stands hb).nodes]
    exact hp
  | crashed q => exact he.elim
  | crashedIn hin hcp => exact he.elim

theorem freezeWrites_step {q : Fin n} {reason : FreezeReason}
    (hs : g.step cfg (.act (.freezeWrites q reason)) = some g') (p : Fin n) :
    (g'.nodes p).writesFrozen = if p = q then true else (g.nodes p).writesFrozen := by
  cases hs
  split
  · rename_i hp
    subst hp
    simp only [setNode, Function.update_self, Node.handle_writesFrozen]
  · rename_i hp
    simp only [setNode, Function.update_of_ne hp, settle_nodes]

end RaftCluster

end OxideDB.Raft
