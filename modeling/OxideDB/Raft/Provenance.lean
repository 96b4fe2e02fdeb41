import OxideDB.Raft.Calls
import OxideDB.Raft.Pieces

/-!
# Where entries come from

An entry comes into a group in two ways only: a leader appends the command of a call, or the
no-op of its term.  Everything else moves entries about — from a log to the wire, from there to
another log, to a disk, into a snapshot and back.  So a property of entries that the new ones
have, all of them have.

* `Node.Holds P` — every entry a node has, in memory, on disk or half written, meets `P`.
-/

namespace OxideDB.Raft

open List Function Node

variable {e : LogEntry}
variable {n : ℕ} {σ δ : Type} {cfg : Config n σ δ} {P : LogEntry → Prop}

/-! ## One node -/

/-- Every entry on a disk meets `P`. -/
structure EngineRaftStorage.Holds (P : LogEntry → Prop) (st : EngineRaftStorage n δ) : Prop where
  log : ∀ e ∈ st.log, P e
  snapshot : ∀ s ∈ st.snapshot, s.Holds P

variable {a : Action n} {st : EngineRaftStorage n δ} {x : Packet n δ} {s : Snapshot δ}

namespace Node

/-- Every entry a node has meets `P`. -/
structure Holds (P : LogEntry → Prop) (nd : Node n σ δ) : Prop where
  log : ∀ e ∈ nd.log, P e
  history : ∀ e ∈ nd.machine.history, P e
  disk : nd.storage.Holds P
  checkpoints : ∀ cp ∈ nd.checkpoints, cp.storage.Holds P

namespace Holds

variable {nd : Node n σ δ}

section

variable (h : nd.Holds P)
include h

theorem entryAt {i : ℕ} (he : nd.entryAt i = some e) : P e := by
  unfold Node.entryAt entryIn at he
  split at he
  · exact h.log e (mem_of_getElem? he)
  · cases he

theorem write {f : EngineRaftStorage n δ → EngineRaftStorage n δ} (hf : (f nd.storage).Holds P) :
    (nd.write f).Holds P where
  log := h.log
  history := h.history
  disk := hf
  checkpoints cp hcp := by
    rcases mem_append.1 hcp with hcp | hcp
    · exact h.checkpoints cp hcp
    · rw [mem_singleton.1 hcp]
      exact hf

theorem begin : nd.begin.Holds P where
  log := h.log
  history := h.history
  disk := h.disk
  checkpoints cp hcp := by
    rw [mem_singleton.1 hcp]
    exact h.disk

theorem saveMeta : nd.saveMeta.Holds P := h.write ⟨h.disk.log, h.disk.snapshot⟩

theorem append (he : P e) : (nd.append e).Holds P := by
  have hmem : ({ nd with log := nd.log ++ [e] } : Node n σ δ).Holds P :=
    { h with
      log := fun x hx => by
        rcases mem_append.1 hx with hx | hx
        · exact h.log x hx
        · rw [mem_singleton.1 hx]
          exact he }
  refine hmem.write (f := (·.appendLogEntry e)) ⟨fun x hx => ?_, h.disk.snapshot⟩
  rcases mem_append.1 hx with hx | hx
  · exact h.disk.log x (mem_of_mem_filter hx)
  rcases mem_cons.1 hx with rfl | hx
  · exact he
  · exact h.disk.log x (mem_of_mem_filter hx)

theorem storeSnapshot (hs : s.Holds P) : (nd.storeSnapshot s).Holds P := by
  have hsaved : (nd.write (·.saveSnapshot s)).Holds P :=
    h.write ⟨h.disk.log, fun s' hs' => by rw [← Option.some.inj hs']; exact hs⟩
  exact hsaved.write
    ⟨fun e he => hsaved.disk.log e (mem_of_mem_filter he), hsaved.disk.snapshot⟩

theorem maybeSnapshot : (nd.maybeSnapshot cfg).Holds P := by
  refine maybeSnapshot_cases h ⟨h.log, h.history, h.disk, h.checkpoints⟩ fun entry data _ _ => ?_
  have hs := h.storeSnapshot (s := ⟨nd.lastApplied, entry.term, data, nd.machine.history⟩) h.history
  exact ⟨fun e he => h.log e (mem_of_mem_filter he), h.history, hs.disk, hs.checkpoints⟩

theorem applyNext : (nd.applyNext cfg).Holds P := by
  unfold Node.applyNext
  dsimp only
  split
  · exact ⟨h.log, h.history, h.disk, h.checkpoints⟩
  rename_i e he
  refine ⟨h.log, fun x hx => ?_, h.disk, h.checkpoints⟩
  rcases mem_append.1 hx with hx | hx
  · exact h.history x hx
  · rw [mem_singleton.1 hx]
    exact h.entryAt he

theorem applyCommittedEntries : (nd.applyCommittedEntries cfg).Holds P := by
  refine maybeSnapshot ?_
  generalize nd.commitIndex - nd.lastApplied = k
  induction k generalizing nd with
  | zero => exact h
  | succ k ih =>
    rw [iterate_succ_apply]
    exact ih h.applyNext

theorem commitTo (i : ℕ) : (nd.commitTo cfg i).Holds P := by
  have hmoved : ({ nd with commitIndex := i } : Node n σ δ).Holds P :=
    ⟨h.log, h.history, h.disk, h.checkpoints⟩
  exact applyCommittedEntries (hmoved.write ⟨h.disk.log, h.disk.snapshot⟩)

theorem truncateFrom (i : ℕ) : (nd.truncateFrom i).Holds P := by
  have hcut : ({ nd with log := nd.log.take (i - nd.lastIncludedIndex - 1) } : Node n σ δ).Holds P :=
    { h with log := fun e he => h.log e (mem_of_mem_take he) }
  have hsaved : (saveLogTruncate
      { nd with log := nd.log.take (i - nd.lastIncludedIndex - 1) } i).Holds P :=
    hcut.write ⟨fun e he => h.disk.log e (mem_of_mem_filter he), h.disk.snapshot⟩
  exact ⟨hsaved.log, hsaved.history, hsaved.disk, hsaved.checkpoints⟩

theorem absorbEntry (he : P e) : (nd.absorbEntry e).Holds P := by
  unfold Node.absorbEntry
  split
  · exact h
  split
  · split
    · exact (h.truncateFrom e.index).append he
    · exact h
  · exact h.append he

theorem replaceState (hs : s.Holds P) : (nd.replaceState cfg s).Holds P := by
  have hstored := h.storeSnapshot hs
  unfold Node.replaceState Node.saveCommitIndex
  refine write ?_ ?_
  · exact ⟨fun e he => h.log e (mem_of_mem_filter he), hs, hstored.disk, hstored.checkpoints⟩
  · exact ⟨hstored.disk.log, hstored.disk.snapshot⟩

end

/-- No piece of a step brings in an entry that does not meet `P`. -/
theorem keeps (cfg : Config n σ δ) : KeepsAll cfg P fun nd => nd.Holds P where
  turns h ht := by
    refine ⟨?_, ?_, ?_, ?_⟩
    · rw [ht.log]; exact h.log
    · rw [ht.machine]; exact h.history
    · rw [ht.storage]; exact h.disk
    · rw [ht.checkpoints]; exact h.checkpoints
  saveMeta h := h.saveMeta
  append h _ hp := h.append hp
  commitTo h _ _ _ _ := h.commitTo _
  absorbEntry h _ he := h.absorbEntry he
  follow h i := h.commitTo i
  replaceState h _ hs _ := h.replaceState hs

/-- **A step of a node** adds what it is handed, and the no-op of a term it wins. -/
theorem handle (hb : nd.begin.Holds P) (hnoop : ∀ t i, P ⟨t, i, noopCommand⟩) (me : Fin n)
    {input : Input n δ} (hin : input.Holds P) : (nd.handle cfg me input).1.Holds P := by
  refine (keeps cfg).handle hb hnoop me hin fun hf => ?_
  cases input with
  | freezeWrites reason => exact ⟨hb.log, hb.history, hb.disk, hb.checkpoints⟩
  | resumeWrites => exact ⟨hb.log, hb.history, hb.disk, hb.checkpoints⟩
  | _ => exact hf.elim

/-- A restart brings back what is on the disk. -/
theorem loadFromStorage (cfg : Config n σ δ) (me : Fin n) (h : st.Holds P) :
    (loadFromStorage cfg me st).Holds P := by
  have hloaded : (loadState cfg me st).Holds P := by
    unfold loadState
    dsimp only
    split
    · exact ⟨h.log, nofun, h, nofun⟩
    · rename_i s hs
      exact ⟨fun e he => h.log e (mem_of_mem_filter he), h.snapshot s hs, h, nofun⟩
  refine applyCommittedEntries (begin ?_)
  exact ⟨hloaded.log, hloaded.history, hloaded.disk, hloaded.checkpoints⟩

end Holds
end Node

/-! ## The group -/

/-- Every entry a packet carries meets `P`. -/
def Body.Holds (P : LogEntry → Prop) : Body n δ → Prop
  | .appendRequest _ r => ∀ e ∈ r.entries, P e
  | .snapshotRequest _ r => r.snapshot.Holds P
  | _ => True

namespace RaftCluster

/-- Every entry of the group meets `P`, and so will those of the calls it has admitted.  Between
two steps a node is as it is when the next one begins. -/
structure Holds (P : LogEntry → Prop) (g : RaftCluster n σ δ) : Prop where
  nodes : ∀ p, (g.nodes p).begin.Holds P
  wire : ∀ x ∈ g.wire, x.body.Holds P
  calls : ∀ call ∈ g.calls, call.status = .admitted → ∀ t i, P ⟨t, i, call.command⟩

/-- What a step may let in: a command that is admitted makes an entry that meets `P`. -/
def Admits (P : LogEntry → Prop) (cfg : Config n σ δ) (g : RaftCluster n σ δ) : Event n → Prop
  | .act (.propose p command) =>
      (g.nodes p).propose cfg command = none → ∀ t i, P ⟨t, i, command⟩
  | _ => True

namespace Holds

variable {g g' : RaftCluster n σ δ}

theorem input (h : g.Holds P) {p : Fin n} {input : Input n δ}
    (hin : g.inputOf a = some (p, input)) :
    input.Holds P := by
  cases a with
  | deliver i =>
    simp only [inputOf, Option.map_eq_some_iff, Prod.mk.injEq] at hin
    obtain ⟨x, hx, rfl, rfl⟩ := hin
    have hbody := h.wire x (mem_of_getElem? hx)
    rcases x with ⟨src, dst, body⟩
    cases body <;> exact hbody
  | proposeCommand k =>
    simp only [inputOf] at hin
    split at hin
    swap
    · cases hin
    rename_i q command hk
    cases hin
    exact h.calls _ (mem_of_getElem? hk) rfl
  | finishRead k =>
    simp only [inputOf] at hin
    split at hin
    · cases hin; trivial
    · cases hin
  | startElection q => cases hin; trivial
  | freezeWrites q reason => cases hin; trivial
  | resumeWrites q => cases hin; trivial
  | shutdown q => cases hin; trivial
  | _ => cases hin

/-- A request carries a part of its sender's log. -/
theorem appendRequest {nd : Node n σ δ} (h : nd.Holds P) {me : Fin n} {next : Option ℕ}
    {r : AppendEntriesRequest n}
    (hr : appendRequest me (nd.replicateArgs next) = some r) : ∀ e ∈ r.entries, P e := by
  unfold Node.appendRequest at hr
  dsimp only at hr
  split at hr
  · cases hr
  cases hr
  intro e he
  dsimp only at he
  split at he
  · exact h.log e (mem_of_mem_filter he)
  · cases he

theorem emitted (h : g.Holds P) (hx : Emitted g a x) : x.body.Holds P := by
  cases hx with
  | vote => trivial
  | append hne hlead htag hnext hr => exact appendRequest (h.nodes _) hr
  | snapshot hjob hs => exact (h.nodes _).disk.snapshot _ hs

theorem answered (hx : Answered cfg g a x) : x.body.Holds P := by
  obtain ⟨i, y, -, -, hreply⟩ := hx
  rcases packetReply_cases hreply with ⟨_, _, -, -, rfl⟩ | ⟨_, _, _, -, -, rfl⟩ | ⟨_, _, _, -, -, rfl⟩
    <;> trivial

theorem calls_step (h : g.Holds P) {e : Event n} (ha : Admits P cfg g e)
    (hs : g.step cfg e = some g') :
    ∀ call ∈ g'.calls, call.status = .admitted → ∀ t i, P ⟨t, i, call.command⟩ := by
  have hafter := callsAfter hs
  intro call hc hst
  generalize g'.calls = calls at hafter hc
  have hset : ∀ {k : ℕ} {new : ProposeCall n}, call ∈ g.calls.set k new → new.status ≠ .admitted →
      ∀ t i, P ⟨t, i, call.command⟩ := by
    intro k new hc hne
    rcases mem_or_eq_of_mem_set hc with hc | rfl
    · exact h.calls call hc hst
    · exact absurd hst hne
  cases hafter with
  | same => exact h.calls call hc hst
  | refused =>
    rcases mem_append.1 hc with hc | hc
    · exact h.calls call hc hst
    · rw [mem_singleton.1 hc] at hst
      cases hst
  | admitted hr =>
    rcases mem_append.1 hc with hc | hc
    · exact h.calls call hc hst
    · rw [mem_singleton.1 hc]
      exact ha hr
  | crashed p =>
    obtain ⟨old, hold, rfl⟩ := mem_map.1 hc
    rcases CallsAfter.crash_eq p old with heq | heq
    · rw [heq] at hst ⊢
      exact h.calls old hold hst
    · rw [heq] at hst
      cases hst
  | _ => exact hset hc (by simp)

/-- A node that comes back from a disk that meets `P`. -/
theorem nodes_restart (h : g.Holds P) (p q : Fin n) (hst : st.Holds P) {g₀ : RaftCluster n σ δ}
    (heq : g₀.nodes = g.nodes) : ((g₀.restart cfg q st).nodes p).begin.Holds P := by
  by_cases hp : p = q
  · subst hp
    simp only [restart, update_self]
    exact (Node.Holds.loadFromStorage cfg p hst).begin
  · simp only [restart, update_of_ne hp, heq]
    exact h.nodes p

/-- **One event of the group.** -/
theorem step (h : g.Holds P) (hnoop : ∀ t i, P ⟨t, i, noopCommand⟩) {e : Event n}
    (ha : Admits P cfg g e) (hs : g.step cfg e = some g') : g'.Holds P := by
  refine ⟨?_, ?_, h.calls_step ha hs⟩
  · intro p
    cases happens hs with
    | @handled a q input hin =>
      by_cases hp : p = q
      · subst hp
        simp only [setNode, update_self]
        exact ((h.nodes p).handle hnoop p (h.input hin)).begin
      · simp only [setNode, update_of_ne hp, settle_nodes]
        exact h.nodes p
    | stood hb =>
      rw [(bystand_stands hb).nodes]
      exact h.nodes p
    | crashed q => exact h.nodes_restart p q (h.nodes q).disk rfl
    | @crashedIn a j q input cp hin hcp =>
      refine h.nodes_restart p q ?_ (consume_nodes ..)
      exact ((h.nodes q).handle hnoop q (h.input hin)).checkpoints cp (mem_of_getElem? hcp)
  · intro x hx
    cases happens hs with
    | handled hin =>
      rcases mem_handled_wire hin hx with hx | hx
      · exact h.wire x hx
      · exact answered hx
    | stood hb =>
      rcases (bystand_stands hb).wire x hx with hx | hx
      · exact h.wire x hx
      · exact h.emitted hx
    | crashed q => exact h.wire x (mem_of_mem_filter hx)
    | @crashedIn a j q input cp hin hcp =>
      refine h.wire x ?_
      have hmem := mem_of_mem_filter hx
      unfold consume at hmem
      split at hmem
      · exact mem_of_mem_eraseIdx hmem
      · exact hmem

end Holds
end RaftCluster
end OxideDB.Raft
