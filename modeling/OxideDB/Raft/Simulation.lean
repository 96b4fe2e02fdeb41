import OxideDB.Raft.Following

/-!
# A group that keeps the rules is a replicated log

The refinement.  Five things the code leaves unchecked are asked of a step, each a
condition on the state the step finds: that an answer is processed in the term it was
given in, for votes and for acknowledgements; that a snapshot goes with the log above
it; that a node that crashes had its term on disk; and that a queued snapshot is only
sent by a node still in the office it was queued in.  A run whose steps all meet them
is a run of the `Ledger`, step for step, and everything the ledger guarantees holds of
the group.
-/

namespace OxideDB.Raft

open List RaftCluster Function LogEntry

open Consensus (Ledger Chosen Sound Moves lastTerm Steps)

variable {n : ℕ} {σ δ : Type} {cfg : Config n σ δ}

/-! ## The conditions -/

/-- A node that counts a granted vote, as a candidate, or an acknowledgement, as a
leader, is still in the term it was given in. -/
def Timely (nd : Node n σ δ) : Input n δ → Prop
  | .requestVoteReply _ r => nd.state = .candidate → r.voteGranted = true →
      r.term ≤ nd.currentTerm → r.term = nd.currentTerm
  | .appendEntriesReply _ r => nd.state = .leader → r.success = true →
      r.term ≤ nd.currentTerm → r.term = nd.currentTerm
  | .installSnapshotReply _ _ r => nd.state = .leader → r.success = true →
      r.term ≤ nd.currentTerm → r.term = nd.currentTerm
  | _ => True

instance (nd : Node n σ δ) (input : Input n δ) : Decidable (Timely nd input) := by
  induction input using Input.casesOn <;> dsimp only [Timely] <;> infer_instance

/-- A snapshot that will take effect goes with the log above it. -/
def Fitting (nd : Node n σ δ) : Input n δ → Prop
  | .installSnapshot r => nd.currentTerm ≤ r.term → nd.lastApplied < r.snapshot.index →
      nd.Fits r.snapshot
  | _ => True

instance (nd : Node n σ δ) (input : Input n δ) : Decidable (Fitting nd input) := by
  induction input using Input.casesOn <;> dsimp only [Fitting] <;> infer_instance

/-- A node that crashes has the term it is in on its disk. -/
def TermSaved (cfg : Config n σ δ) (g : RaftCluster n σ δ) : Event n → Prop
  | .act _ => True
  | .crash p => (g.nodes p).storage.currentTerm = (g.nodes p).currentTerm
  | .crashIn a j => ∀ x ∈ g.crashPoint cfg a j, x.2.storage.currentTerm = x.2.currentTerm

instance (cfg : Config n σ δ) (g : RaftCluster n σ δ) (e : Event n) :
    Decidable (TermSaved cfg g e) := by
  induction e using Event.casesOn <;> dsimp only [TermSaved] <;> infer_instance

/-- A queued snapshot is sent by a node that still leads the term it was queued in. -/
def InOffice (g : RaftCluster n σ δ) : Event n → Prop
  | .act (.shipSnapshot i) => ∀ job ∈ g.jobs[i]?,
      (g.nodes job.node).state = .leader ∧ (g.nodes job.node).currentTerm = job.term
  | _ => True

instance (g : RaftCluster n σ δ) (e : Event n) : Decidable (InOffice g e) := by
  induction e using Event.casesOn with
  | act a => induction a using Action.casesOn <;> dsimp only [InOffice] <;> infer_instance
  | crash _ | crashIn _ _ => exact inferInstanceAs (Decidable True)

/-- A step that keeps the rules. -/
@[mk_iff]
structure Orderly (cfg : Config n σ δ) (g : RaftCluster n σ δ) (e : Event n) : Prop where
  timely : g.OnInput Timely e
  fitting : g.OnInput Fitting e
  saved : TermSaved cfg g e
  office : InOffice g e

instance (cfg : Config n σ δ) (g : RaftCluster n σ δ) (e : Event n) :
    Decidable (Orderly cfg g e) :=
  decidable_of_iff' _ (orderly_iff cfg g e)

/-! ## One step of one node -/

/-- What an input reports. -/
def InputRel (cfg : Config n σ δ) (a : Log n) (p : Fin n) : Input n δ → Prop
  | .requestVote r => ∃ l, a.cand r.candidateId r.term = some l ∧
      r.lastLogIndex = l.length ∧ r.lastLogTerm = lastTerm LogEntry.term l
  | .requestVoteReply peer r => r.voteGranted = true → votedIn a peer r.term = some p
  | .appendEntries r => ∃ m, Sent a r m
  | .appendEntriesReply peer r => peer ≠ p ∧ (r.success = true →
      r.matchIndex ≤ a.ack peer r.term ∧
      ∃ el, a.won r.term = some el ∧ el.log.length < r.matchIndex)
  | .installSnapshot r => Shipped cfg a r
  | .installSnapshotReply peer index r =>
      peer ≠ p ∧ (r.success = true → index ≤ a.ack peer r.term)
  | _ => True

/-- What an answer reports. -/
def OutputRel (b : Log n) (p : Fin n) : Input n δ → Output → Prop
  | .requestVote r, .vote response => response.voteGranted = true →
      votedIn b p response.term = some r.candidateId
  | .appendEntries _, .append response => response.success = true →
      response.matchIndex ≤ b.ack p response.term ∧
      ∃ el, b.won response.term = some el ∧ el.log.length < response.matchIndex
  | .installSnapshot r, .install response => response.success = true →
      r.snapshot.index ≤ b.ack p response.term
  | _, _ => True

namespace Progress

variable {a₀ a : Log n} {p : Fin n} {nd : Node n σ δ}

/-- A change to what the ledger does not see. -/
theorem frozen (h : Progress cfg a₀ p a nd) (frozen : Bool) (reason : FreezeReason) :
    Progress cfg a₀ p a { nd with writesFrozen := frozen, freezeReason := reason } := by
  exact ⟨h.moves, { h.node with
    steady := h.node.steady.sameLog (by constructor <;> rfl)
    candidate := fun hs => { h.node.candidate hs with }
    leader := fun hs => { h.node.leader hs with } }, h.crash⟩

/-- **A step of one node** is some moves of the ledger, and its answer reports what
they did. -/
theorem handle (cfg : Config n σ δ) (hs : Sound term a) (h : NodeRel cfg a p nd)
    {input : Input n δ} (hin : InputRel cfg a p input) (ht : Timely nd input)
    (hfit : Fitting nd input) : ∃ b, Progress cfg a p b (nd.handle cfg p input).1 ∧
      OutputRel b p input (nd.handle cfg p input).2 := by
  have hb := Progress.begin hs h
  cases input with
  | startElection =>
    obtain ⟨b, hp⟩ := hb.startElection cfg
    exact ⟨b, hp, trivial⟩
  | requestVote r =>
    obtain ⟨l, hcand, hlen, hlast⟩ := hin
    exact hb.requestVote hcand hlen hlast
  | requestVoteReply peer r =>
    obtain ⟨b, hp⟩ := hb.requestVoteReply cfg hin ht
    exact ⟨b, hp, trivial⟩
  | appendEntries r =>
    obtain ⟨m, hm⟩ := hin
    exact hb.appendEntries cfg hm
  | appendEntriesReply peer r =>
    obtain ⟨b, hp⟩ := hb.replicateReply cfg hin.1 (fun hs => (hin.2 hs).1) ht
    exact ⟨b, hp, trivial⟩
  | installSnapshot r => exact hb.installSnapshot cfg hin hfit
  | installSnapshotReply peer index r =>
    obtain ⟨b, hp⟩ := hb.replicateReply cfg hin.1 hin.2 ht
    exact ⟨b, hp, trivial⟩
  | proposeCommand command =>
    simp only [Node.handle, Node.proposeCommand]
    split
    · exact ⟨a, hb, trivial⟩
    · rename_i hlead
      obtain ⟨b, hp⟩ := hb.appendOwn cfg (not_not.1 hlead) command
      exact ⟨b, hp, trivial⟩
  | confirmRead term acks =>
    simp only [Node.handle, Node.confirmRead]
    split
    · exact ⟨a, hb, trivial⟩
    rename_i hlead
    split
    · exact ⟨a, hb, trivial⟩
    · rw [not_or, not_not] at hlead
      obtain ⟨b, -, hp⟩ := hb.updateCommitIndex cfg hlead.1
      exact ⟨b, hp, trivial⟩
  | freezeWrites reason => exact ⟨a, hb.frozen true reason, trivial⟩
  | resumeWrites => exact ⟨a, hb.frozen false nd.freezeReason, trivial⟩
  | shutdown =>
    exact ⟨a, hb.retire (by constructor <;> rfl) rfl rfl rfl rfl rfl rfl,
      trivial⟩

end Progress

/-! ## What a node sends -/

namespace NodeRel

variable {a : Log n} {p : Fin n} {nd : Node n σ δ}

variable (h : NodeRel cfg a p nd)
include h

/-- A candidate asks with the log it stood with. -/
theorem voteRequest {r : RequestVoteRequest n} (hr : nd.voteRequest p = some r) :
    r.candidateId = p ∧ ∃ l, a.cand p r.term = some l ∧
      r.lastLogIndex = l.length ∧ r.lastLogTerm = lastTerm LogEntry.term l := by
  unfold Node.voteRequest at hr
  split at hr
  · cases hr
  split at hr
  · cases hr
  rename_i hcand
  cases hr
  exact ⟨rfl, nd.fullLog, (h.candidate (not_not.1 hcand)).cand, h.steady.lastLogIndex_eq,
    h.steady.lastLogTerm_eq⟩

/-- A leader has made an entry in its own term. -/
theorem ownTerm (hs : Sound LogEntry.term a) (hlead : nd.state = .leader) :
    ∃ e ∈ nd.fullLog, e.term = nd.currentTerm := by
  obtain ⟨⟨el, hel, -, hlt⟩, hreign, -, -, -⟩ := h.leader hlead
  refine ⟨nd.fullLog[el.log.length], getElem_mem hlt, ?_⟩
  refine hs.shape.wonTail _ el hel _ ?_
  rw [hreign]
  exact mem_of_getElem? (i := 0) (by
    rw [getElem?_drop, Nat.add_zero, getElem?_eq_getElem hlt])

/-- A leader sends the entries of its log from the peer's next index on. -/
theorem appendRequest (hs : Sound LogEntry.term a) (hlead : nd.state = .leader) {peer : Fin n}
    (hne : peer ≠ p) {next : Option ℕ}
    (hnext : ∀ i, next = some i → i = 1 ∨ nd.nextIndex peer = some i) {r : AppendEntriesRequest n}
    (hr : Node.appendRequest p (nd.replicateArgs next) = some r) : Sent a r nd.fullLog := by
  have hlast := h.steady.lastLogIndex_eq
  obtain ⟨-, hreign, -, hnx, -⟩ := h.leader hlead
  have hasks := h.steady.appendRequest hr
  have hle : next.getD (nd.lastLogIndex + 1) - 1 ≤ nd.fullLog.length := by
    rcases next with _ | i
    · rw [Option.getD_none, hlast]
      omega
    rw [Option.getD_some]
    rcases hnext i rfl with rfl | hi
    · omega
    · have := hnx peer i hne hi
      omega
  refine ⟨?_, h.steady.numbered, ?_, ?_, ?_, ?_, ?_, ?_⟩
  · rw [hasks.term]; exact hreign ▸ prefix_rfl
  · rw [hasks.prev]; exact hle
  · rw [hasks.entries, hasks.prev]
  · rw [hasks.prevTerm hle, hasks.prev]
  · rw [hasks.commit]; exact h.steady.commit_le
  · rw [hasks.term, hasks.commit]; exact h.chosen
  · rw [hasks.term]; exact h.ownTerm hs hlead

/-- A leader's stored snapshot is a committed prefix of its log. -/
theorem snapshotRequest (hlead : nd.state = .leader) {s : Snapshot δ}
    (hs : nd.storage.loadSnapshot = some s) : Shipped cfg a ⟨nd.currentTerm, p, s⟩ := by
  obtain ⟨hsane, -, hhist⟩ := h.steady.loadSnapshot hs
  refine ⟨hsane, ?_, ?_⟩
  · show s.history <+: a.reign nd.currentTerm
    rw [hhist, (h.leader hlead).reign]
    exact take_prefix _ _
  · show Chosen a nd.currentTerm s.history
    rw [hhist]
    exact h.chosen.of_prefix (take_prefix_take_left
      (le_trans h.steady.base_le h.steady.applied_le))

end NodeRel

/-! ## The group -/

variable {act : Action n} {p : Fin n} {b : Log n} {x : Packet n δ}

namespace Rel

variable {a : Log n} {g g' : RaftCluster n σ δ}

theorem init (cfg : Config n σ δ) : Rel cfg (Ledger.init : Log n) (init cfg) where
  sound := .init
  nodes p := by
    refine DiskRel.load ⟨⟨?_, rfl, rfl, ?_, le_rfl, nofun⟩, rfl, rfl, ?_, rfl⟩
    · exact Numbered.nil 0
    · intro e he; cases he
    · exact .nil
  wire x hx := by cases hx
  jobs job hj := by cases hj

theorem packet_input (h : PacketRel cfg a x) : InputRel cfg a x.dst (packetInput x) := by
  obtain ⟨hne, hb⟩ := h
  rcases x with ⟨src, dst, body⟩
  cases body with
  | voteRequest r =>
    obtain ⟨rfl, l, hl⟩ := hb
    exact ⟨l, hl⟩
  | voteResponse r => exact hb
  | appendRequest read r => exact hb
  | appendResponse read r => exact ⟨hne, hb⟩
  | snapshotRequest read r => exact hb
  | snapshotResponse read index r => exact ⟨hne, hb⟩

theorem input (h : Rel cfg a g) {input : Input n δ} (hin : g.inputOf act = some (p, input)) :
    InputRel cfg a p input := by
  rcases inputOf_origin hin with ⟨i, x, rfl, hx, rfl, rfl⟩ | ⟨-, hown⟩
  · exact packet_input (h.wire x (mem_of_getElem? hx))
  · cases input <;> trivial

theorem reply {y : Packet n δ} (hy : PacketRel cfg a y) {out : Output}
    (hreply : packetReply y out = some x) (hout : OutputRel b y.dst (packetInput y) out) :
    PacketRel cfg b x := by
  obtain ⟨hne, hb⟩ := hy
  rcases y with ⟨src, dst, body⟩
  rcases packetReply_cases hreply with
    ⟨r, response, hbody, rfl, rfl⟩ | ⟨read, r, response, hbody, rfl, rfl⟩ |
    ⟨read, r, response, hbody, rfl, rfl⟩
  · subst hbody
    refine ⟨hne.symm, fun hg => ?_⟩
    rw [← hb.1]
    exact hout hg
  · subst hbody
    exact ⟨hne.symm, hout⟩
  · subst hbody
    exact ⟨hne.symm, hout⟩

theorem handled (cfg : Config n σ δ) (h : Rel cfg a g) {input : Input n δ}
    (hin : g.inputOf act = some (p, input)) (ht : Timely (g.nodes p) input)
    (hfit : Fitting (g.nodes p) input) :
    ∃ b, Moves term p a b ∧
      Rel cfg b ((g.settle act ((g.nodes p).handle cfg p input).2).setNode p
        ((g.nodes p).handle cfg p input).1) := by
  obtain ⟨b, hp, hout⟩ := Progress.handle cfg h.sound (h.nodes p) (h.input hin) ht hfit
  refine ⟨b, hp.moves, hp.moves.sound, fun q => ?_, fun x hx => ?_, fun job hj => ?_⟩
  · by_cases hq : q = p
    · subst hq
      simp only [setNode, update_self]
      exact hp.node
    · simp only [setNode, update_of_ne hq, settle_nodes]
      exact (h.nodes q).other hp.moves hq
  · rcases mem_handled_wire hin hx with hx | ⟨i, y, rfl, hy, hreply⟩
    · exact (h.wire x hx).grows hp.moves.grows
    simp only [inputOf, hy, Option.map_some, Option.some.injEq,
      Prod.mk.injEq] at hin
    obtain ⟨rfl, rfl⟩ := hin
    exact reply (h.wire y (mem_of_getElem? hy)) hreply hout
  · simp only [setNode, settle_jobs] at hj
    exact h.jobs job hj

variable (h : Rel cfg a g)
include h

/-- A node comes back from a disk that stands for its share of a later ledger. -/
theorem restarted (act : Action n) {st : EngineRaftStorage n δ} (hm : Moves LogEntry.term p a b)
    (hd : DiskRel cfg b p st) :
    Rel cfg b ((g.consume act).restart cfg p st) where
  sound := hm.sound
  nodes q := by
    by_cases hq : q = p
    · subst hq
      simp only [restart, update_self]
      exact hd.load
    · simp only [restart, update_of_ne hq, consume_nodes]
      exact (h.nodes q).other hm hq
  wire x hx := (h.wire x (mem_restart_wire hx)).grows hm.grows
  jobs job hj := by
    have hj := (mem_filter.1 hj).1
    rw [consume_jobs] at hj
    exact h.jobs job hj

/-- What a node sends by itself reports the truth. -/
theorem emitted (hoff : InOffice g (.act act)) (hx : RaftCluster.Emitted g act x) :
    PacketRel cfg a x := by
  cases hx with
  | vote hne hr => exact ⟨hne.symm, (h.nodes _).voteRequest hr⟩
  | append hne hlead _ hnext hr =>
    exact ⟨hne.symm, _, (h.nodes _).appendRequest h.sound hlead hne hnext hr⟩
  | @snapshot i job s hjob hs =>
    obtain ⟨hlead, hterm⟩ := hoff job hjob
    refine ⟨(h.jobs job (mem_of_getElem? hjob)).symm, ?_⟩
    rw [← hterm]
    exact (h.nodes job.node).snapshotRequest hlead hs

/-- **One event of a group**, kept to the rules, is some steps of the ledger. -/
theorem step {e : Event n} (ho : Orderly cfg g e) (hs : g.step cfg e = some g') :
    ∃ b, Steps term a b ∧ a.Grows b ∧ Rel cfg b g' := by
  have ht := ho.timely
  have hf := ho.fitting
  have hsv := ho.saved
  have hof := ho.office
  cases happens hs with
  | @handled act p input hin =>
    obtain ⟨b, hm, hr⟩ := h.handled cfg hin (ht _ hin) (hf _ hin)
    exact ⟨b, hm.steps, hm.grows, hr⟩
  | @stood act _ hb =>
    have hst := bystand_stands hb
    refine ⟨a, .refl, .refl a, h.sound, fun p => by rw [hst.nodes]; exact h.nodes p,
      fun x hx => ?_, fun job hj => ?_⟩
    · rcases hst.wire x hx with hx | hx
      · exact h.wire x hx
      · exact h.emitted hof hx
    · rcases hst.jobs job hj with hj | hj
      · exact h.jobs job hj
      · exact hj.ne
  | crashed p =>
    exact ⟨a, .refl, .refl a,
      h.restarted (.startElection p) (.refl h.sound p) ((h.nodes p).disk hsv)⟩
  | @crashedIn act j p input cp hin hcp =>
    obtain ⟨b, hp, -⟩ := Progress.handle cfg h.sound (h.nodes p) (h.input hin)
      (ht _ hin) (hf _ hin)
    obtain ⟨b', hm, hd⟩ := hp.crash cp (mem_of_getElem? hcp)
      (hsv (p, cp) (by simp [crashPoint, hin, hcp]))
    exact ⟨b', hm.steps, hm.grows, h.restarted act hm hd⟩

/-- **The refinement.**  A run of the group that keeps the rules is a run of the
ledger. -/
theorem run {es : List (Event n)} (ho : Along (Orderly cfg) cfg g es)
    (hr : run cfg g es = some g') : ∃ b, Steps term a b ∧ a.Grows b ∧ Rel cfg b g' := by
  refine ho.invariant (I := fun g' => ∃ b, Steps term a b ∧ a.Grows b ∧ Rel cfg b g') ?_
    ⟨a, .refl, .refl a, h⟩ hr
  rintro g₁ e g₂ hP ⟨b, hs, hg, h₁⟩ hstep
  obtain ⟨b', hs', hg', h₂⟩ := h₁.step hP hstep
  exact ⟨b', hs.trans hs', hg.trans hg', h₂⟩

end Rel

end OxideDB.Raft
