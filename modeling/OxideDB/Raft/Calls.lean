import OxideDB.Raft.Runs

/-!
# What a step makes of the proposals

The calls of `propose` a group holds open are a list, and a call is named by its place.  A step
adds one at the end, moves one on, or, where a node crashes, loses those that waited there.

* `CallsAfter.keeps` — a call keeps its place, its node and its command.
-/

namespace OxideDB.Raft

open List RaftCluster Option Node

variable {r : ApplyResult} {entry : Option LogEntry}
variable {n : ℕ} {σ δ : Type} {cfg : Config n σ δ} {g g' : RaftCluster n σ δ}

/-- What a crash of `p` makes of a call. -/
def ProposeCall.crash (p : Fin n) (call : ProposeCall n) : ProposeCall n :=
  if call.node = p then
    match call.status with
    | .returned _ _ => call
    | _ => { call with status := .lost }
  else call

/-- The list of calls after a step to `g'`. -/
inductive CallsAfter (cfg : Config n σ δ) (g g' : RaftCluster n σ δ) :
    Event n → List (ProposeCall n) → Prop
  | same {e : Event n} (hne : ∀ p command, e ≠ .act (.propose p command)) :
      CallsAfter cfg g g' e g.calls
  | refused {p : Fin n} {command : Bytes} {r : ApplyResult}
      (hr : (g.nodes p).propose cfg command = some r) :
      CallsAfter cfg g g' (.act (.propose p command)) (g.calls ++ [⟨p, command, .returned none r⟩])
  | admitted {p : Fin n} {command : Bytes} (hr : (g.nodes p).propose cfg command = none) :
      CallsAfter cfg g g' (.act (.propose p command)) (g.calls ++ [⟨p, command, .admitted⟩])
  | deposed {k : ℕ} {p : Fin n} {command : Bytes} (hk : g.calls[k]? = some ⟨p, command, .admitted⟩) :
      CallsAfter cfg g g' (.act (.proposeCommand k))
        (g.calls.set k ⟨p, command, .returned none Node.notLeader⟩)
  | appended {k : ℕ} {p : Fin n} {command : Bytes} {entry : LogEntry}
      (hk : g.calls[k]? = some ⟨p, command, .admitted⟩)
      (hout : ((g.nodes p).handle cfg p (.proposeCommand command)).2 = .appended (some entry))
      (hnode : g'.nodes p = ((g.nodes p).handle cfg p (.proposeCommand command)).1) :
      CallsAfter cfg g g' (.act (.proposeCommand k)) (g.calls.set k ⟨p, command, .waiting entry⟩)
  | failed {k : ℕ} {p : Fin n} {command : Bytes} {entry : LogEntry} {r : ApplyResult}
      (hk : g.calls[k]? = some ⟨p, command, .waiting entry⟩)
      (hlook : (g.nodes p).awaitCommit entry = some (some r)) :
      CallsAfter cfg g g' (.act (.awaitCommit k))
        (g.calls.set k ⟨p, command, .returned (some entry) r⟩)
  | settled {k : ℕ} {p : Fin n} {command : Bytes} {entry : LogEntry}
      (hk : g.calls[k]? = some ⟨p, command, .waiting entry⟩)
      (hlook : (g.nodes p).awaitCommit entry = some none) :
      CallsAfter cfg g g' (.act (.awaitCommit k)) (g.calls.set k ⟨p, command, .settled entry⟩)
  | expired {k : ℕ} {p : Fin n} {command : Bytes} {entry : LogEntry}
      (hk : g.calls[k]? = some ⟨p, command, .waiting entry⟩)
      (hlook : (g.nodes p).awaitCommit entry = none) :
      CallsAfter cfg g g' (.act (.expire k)) (g.calls.set k
        ⟨p, command, .returned (some entry) (.failure .errTimeout "Proposal timeout")⟩)
  | answered {k : ℕ} {p : Fin n} {command : Bytes} {entry : LogEntry}
      (hk : g.calls[k]? = some ⟨p, command, .settled entry⟩) :
      CallsAfter cfg g g' (.act (.answer k)) (g.calls.set k
        ⟨p, command, .returned (some entry) ((g.nodes p).proposalResult entry)⟩)
  | crashed {e : Event n} (p : Fin n) (hne : ∀ a, e ≠ .act a) :
      CallsAfter cfg g g' e (g.calls.map (ProposeCall.crash p))

variable {a : Action n} {e : Event n} {p : Fin n} {es : List (Event n)} {nd : Node n σ δ}
  {call : ProposeCall n}

/-- A step that touches a node, seen from the calls. -/
theorem callsAfter_handled {input : Input n δ} (hin : g.inputOf a = some (p, input))
    (hg' : g' = (g.settle a ((g.nodes p).handle cfg p input).2).setNode p
      ((g.nodes p).handle cfg p input).1) :
    CallsAfter cfg g g' (.act a) g'.calls := by
  subst hg'
  cases a with
  | proposeCommand k =>
    simp only [inputOf] at hin
    split at hin
    swap
    · cases hin
    rename_i q command hk
    obtain ⟨rfl, rfl⟩ := Prod.mk.inj (some.inj hin)
    simp only [setNode, settle, hk]
    split
    · rename_i call entry heq hout
      cases heq
      exact .appended hk hout (Function.update_self ..)
    · rename_i call heq hout
      cases heq
      exact .deposed hk
    · exact .same (by simp)
  | deliver i =>
    have heq : ((g.settle (.deliver i) ((g.nodes p).handle cfg p input).2).setNode p
        ((g.nodes p).handle cfg p input).1).calls = g.calls := by
      simp only [setNode, settle]
      split <;> rfl
    rw [heq]
    exact .same (by simp)
  | finishRead k =>
    have heq : ((g.settle (.finishRead k) ((g.nodes p).handle cfg p input).2).setNode p
        ((g.nodes p).handle cfg p input).1).calls = g.calls := by
      simp only [setNode, settle]
      split <;> rfl
    rw [heq]
    exact .same (by simp)
  | propose q command => cases hin
  | _ => exact .same (by simp)

/-- A step that only reads a node, seen from the calls. -/
theorem callsAfter_bystand (hb : g.bystand cfg a = some g') :
    CallsAfter cfg g g' (.act a) g'.calls := by
  cases a with
  | askVote p peer =>
    simp only [bystand] at hb
    split at hb
    · cases hb
    · obtain ⟨r, -, rfl⟩ := map_eq_some_iff.1 hb
      exact .same (by simp)
  | heartbeat p peer =>
    simp only [bystand] at hb
    split at hb
    · cases hb
    · cases hb
      rw [replicate_calls]
      exact .same (by simp)
  | shipSnapshot i =>
    simp only [bystand] at hb
    split at hb
    · split at hb
      · obtain rfl := some.inj hb; exact .same (by simp)
      · split at hb <;> (obtain rfl := some.inj hb; exact .same (by simp))
    · cases hb
  | beginRead p =>
    simp only [bystand] at hb
    split at hb
    · obtain rfl := some.inj hb; exact .same (by simp)
    split at hb
    · obtain rfl := some.inj hb; exact .same (by simp)
    · cases hb
      rw [(foldl_replicate _ _ _ _ _).2.2.1]
      exact .same (by simp)
  | propose p command =>
    simp only [bystand] at hb
    split at hb
    · rename_i refusal hr
      cases hb
      exact .refused hr
    · rename_i hr
      cases hb
      exact .admitted hr
  | awaitCommit k =>
    simp only [bystand] at hb
    split at hb
    swap
    · cases hb
    rename_i p command entry hk
    split at hb
    · rename_i refusal hlook
      cases hb
      exact .failed hk hlook
    · rename_i hlook
      cases hb
      exact .settled hk hlook
    · cases hb
      exact .same (by simp)
  | expire k =>
    simp only [bystand] at hb
    split at hb
    swap
    · cases hb
    rename_i p command entry hk
    split at hb
    swap
    · cases hb
    rename_i hlook
    cases hb
    exact .expired hk hlook
  | answer k =>
    simp only [bystand] at hb
    split at hb
    swap
    · cases hb
    rename_i p command entry hk
    cases hb
    exact .answered hk
  | _ => cases hb

/-- **What a step makes of the calls.** -/
theorem callsAfter (hs : g.step cfg e = some g') : CallsAfter cfg g g' e g'.calls := by
  cases happens hs with
  | handled hin => exact callsAfter_handled hin rfl
  | stood hb => exact callsAfter_bystand hb
  | crashed p => exact .crashed p (by simp)
  | @crashedIn a j p input cp hin hcp =>
    have hcalls : (g.consume a).calls = g.calls := by
      unfold consume
      split <;> rfl
    show CallsAfter cfg g _ (.crashIn a j) ((g.consume a).calls.map (ProposeCall.crash p))
    rw [hcalls]
    exact .crashed p (by simp)

/-! ## A call by its place -/

namespace CallsAfter

variable {e : Event n} {calls : List (ProposeCall n)} {k : ℕ} {call : ProposeCall n}

theorem crash_eq (p : Fin n) (call : ProposeCall n) :
    call.crash p = call ∨ call.crash p = { call with status := .lost } := by
  unfold ProposeCall.crash
  split
  · split
    · exact .inl rfl
    · exact .inr rfl
  · exact .inl rfl

theorem crash_returned (h : call.status = .returned entry r) : call.crash p = call := by
  unfold ProposeCall.crash
  rw [h]
  exact ite_self _

/-- A call that is moved on, seen from any place. -/
theorem get?_set {j : ℕ} {old : ProposeCall n} (new : ProposeCall n)
    (hj : g.calls[j]? = some old) (hk : g.calls[k]? = some call) :
    (g.calls.set j new)[k]? = some call ∨
      (k = j ∧ call = old ∧ (g.calls.set j new)[k]? = some new) := by
  by_cases hjk : j = k
  · subst hjk
    have hlt := (List.getElem?_eq_some_iff.1 hk).1
    exact .inr ⟨rfl, some.inj (hk.symm.trans hj), getElem?_set_self hlt⟩
  · exact .inl (by rw [getElem?_set_ne hjk]; exact hk)

theorem get?_append {new : ProposeCall n} (hk : g.calls[k]? = some call) :
    (g.calls ++ [new])[k]? = some call := by
  rw [getElem?_append_left (List.getElem?_eq_some_iff.1 hk).1]
  exact hk

/-- **A call that has returned has returned for good.** -/
theorem returned (h : CallsAfter cfg g g' e calls) (hk : g.calls[k]? = some call)
    (hst : call.status = .returned entry r) : calls[k]? = some call := by
  have hset : ∀ {j : ℕ} {p : Fin n} {command : Bytes} {old new : CallStatus},
      g.calls[j]? = some ⟨p, command, old⟩ → old ≠ .returned entry r →
        (g.calls.set j ⟨p, command, new⟩)[k]? = some call := by
    intro j p command old new hj hne
    rcases get?_set ⟨p, command, new⟩ hj hk with hsame | ⟨-, rfl, -⟩
    · exact hsame
    · exact absurd hst hne
  cases h with
  | same => exact hk
  | refused | admitted => exact get?_append hk
  | deposed hj | appended hj | failed hj | settled hj | expired hj | answered hj =>
    exact hset hj (by simp)
  | crashed p => rw [getElem?_map, hk, map_some, crash_returned hst]

end CallsAfter

theorem returned_run (hr : run cfg g es = some g') (hcall : call ∈ g.calls)
    (hst : call.status = .returned entry r) : call ∈ g'.calls := by
  obtain ⟨k, hk⟩ := getElem?_of_mem hcall
  refine mem_of_getElem? (Transition.run_invariant
    (I := fun g => g.calls[k]? = some call) (fun g e g' hk hs => ?_) hk hr)
  exact (callsAfter hs).returned hk hst

/-! ## Successes -/

theorem propose_failure {command : Bytes} (h : nd.propose cfg command = some r) :
    r.success = false ∧ r.index = none := by
  unfold propose at h
  split at h
  · obtain rfl := some.inj h; exact ⟨rfl, rfl⟩
  split at h
  · obtain rfl := some.inj h; exact ⟨rfl, rfl⟩
  · cases h

theorem awaitCommit_failure {entry : LogEntry} (h : nd.awaitCommit entry = some (some r)) :
    r.success = false ∧ r.index = none := by
  unfold awaitCommit at h
  split at h
  · split at h
    · obtain rfl := some.inj (some.inj h); exact ⟨rfl, rfl⟩
    · cases h
  · split at h
    · split at h
      · obtain rfl := some.inj (some.inj h); exact ⟨rfl, rfl⟩
      · cases h
    · cases h

theorem proposalResult_index (nd : Node n σ δ) (entry : LogEntry) :
    (nd.proposalResult entry).index = some entry.index := by
  unfold proposalResult
  split <;> rfl

/-- A call that has been told of a success has been told where. -/
def ProposeCall.Indexed (call : ProposeCall n) : Prop :=
  ∀ entry r, call.status = .returned entry r → r.success = true → r.index ≠ none

theorem ProposeCall.indexed_of_failure (hst : call.status = .returned entry r)
    (h : r.success = false) : call.Indexed := by
  intro entry' r' hst' hsucc
  obtain ⟨-, rfl⟩ := CallStatus.returned.inj (hst.symm.trans hst')
  cases h.symm.trans hsucc

theorem indexed_step (h : ∀ call ∈ g.calls, call.Indexed) (hs : g.step cfg e = some g') :
    ∀ call ∈ g'.calls, call.Indexed := by
  have hafter := callsAfter hs
  have hset : ∀ {k : ℕ} {new call : ProposeCall n}, new.Indexed → call ∈ g.calls.set k new →
      call.Indexed := by
    intro k new call hnew hc
    rcases mem_or_eq_of_mem_set hc with hc | rfl
    · exact h call hc
    · exact hnew
  have happend : ∀ {new call : ProposeCall n}, new.Indexed → call ∈ g.calls ++ [new] →
      call.Indexed := by
    intro new call hnew hc
    rcases mem_append.1 hc with hc | hc
    · exact h call hc
    · exact mem_singleton.1 hc ▸ hnew
  intro call hc
  generalize g'.calls = calls at hafter hc
  cases hafter with
  | same => exact h call hc
  | refused hr => exact happend (ProposeCall.indexed_of_failure rfl (propose_failure hr).1) hc
  | admitted => exact happend (fun _ _ hst => by cases hst) hc
  | deposed => exact hset (ProposeCall.indexed_of_failure rfl rfl) hc
  | appended | settled => exact hset (fun _ _ hst => by cases hst) hc
  | failed _ hlook =>
    exact hset (ProposeCall.indexed_of_failure rfl (awaitCommit_failure hlook).1) hc
  | expired => exact hset (ProposeCall.indexed_of_failure rfl rfl) hc
  | answered =>
    refine hset (fun entry' r hst _ => ?_) hc
    obtain ⟨-, rfl⟩ := CallStatus.returned.inj hst
    rw [proposalResult_index]
    exact some_ne_none _
  | crashed p =>
    obtain ⟨old, hold, rfl⟩ := mem_map.1 hc
    rcases CallsAfter.crash_eq p old with heq | heq
    · rw [heq]
      exact h old hold
    · rw [heq]
      exact fun _ _ hst => by cases hst

/-- **A success carries an index**, whatever has happened. -/
theorem indexed_run (hr : run cfg (init cfg) es = some g) : ∀ call ∈ g.calls, call.Indexed :=
  Transition.run_invariant (I := fun g : RaftCluster n σ δ => ∀ call ∈ g.calls, call.Indexed)
    (fun _ _ _ h hs => indexed_step h hs) (fun _ hc => by cases hc) hr

end OxideDB.Raft
