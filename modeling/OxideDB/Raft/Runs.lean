import OxideDB.Raft.Cluster

/-!
# What a step of a group can do

One inversion for each thing that can happen to a group.
-/

namespace OxideDB.Raft

open List Option

variable {out : Output}

/-- The inputs a node gives itself, or takes from a client. -/
def Input.isOwn {n : ℕ} {δ : Type} : Input n δ → Prop
  | .startElection | .proposeCommand _ | .confirmRead _ _ | .freezeWrites _ | .resumeWrites
  | .shutdown => True
  | _ => False

namespace RaftCluster

variable {n : ℕ} {σ δ : Type} {cfg : Config n σ δ} {g g' : RaftCluster n σ δ}

/-! ## The four kinds of step -/

/-- What an event leaves. -/
inductive Happens (cfg : Config n σ δ) (g : RaftCluster n σ δ) :
    Event n → RaftCluster n σ δ → Prop
  | handled {a : Action n} {p : Fin n} {input : Input n δ}
      (hin : g.inputOf a = some (p, input)) :
      Happens cfg g (.act a) ((g.settle a ((g.nodes p).handle cfg p input).2).setNode p
        ((g.nodes p).handle cfg p input).1)
  | stood {a : Action n} {g' : RaftCluster n σ δ} (hb : g.bystand cfg a = some g') :
      Happens cfg g (.act a) g'
  | crashed (p : Fin n) : Happens cfg g (.crash p) (g.restart cfg p (g.nodes p).storage)
  | crashedIn {a : Action n} {j : ℕ} {p : Fin n} {input : Input n δ} {cp : Checkpoint n δ}
      (hin : g.inputOf a = some (p, input))
      (hcp : ((g.nodes p).handle cfg p input).1.checkpoints[j]? = some cp) :
      Happens cfg g (.crashIn a j) ((g.consume a).restart cfg p cp.storage)

/-- **Nothing else can happen.** -/
theorem happens {e : Event n} (h : g.step cfg e = some g') : Happens cfg g e g' := by
  cases e with
  | act a =>
    rw [step, act] at h
    rcases hin : g.inputOf a with _ | ⟨p, input⟩
    · rw [hin] at h
      exact .stood h
    · rw [hin] at h
      cases h
      exact .handled hin
  | crash p =>
    cases h
    exact .crashed p
  | crashIn a j =>
    rw [step, crashPoint] at h
    rcases hin : g.inputOf a with _ | ⟨p, input⟩
    · simp [hin] at h
    · simp only [hin, Option.map_map, Option.map_eq_some_iff, Function.comp] at h
      obtain ⟨cp, hcp, rfl⟩ := h
      exact .crashedIn hin hcp

/-! ## Where an input comes from -/

variable {a : Action n}
variable {p : Fin n} {input : Input n δ}

/-- An input is a packet's, or the node's own. -/
theorem inputOf_origin (hin : g.inputOf a = some (p, input)) :
    (∃ i x, a = .deliver i ∧ g.wire[i]? = some x ∧ x.dst = p ∧ input = packetInput x) ∨
      ((∀ i, a ≠ .deliver i) ∧ input.isOwn) := by
  cases a with
  | deliver i =>
    simp only [inputOf, map_eq_some_iff, Prod.mk.injEq] at hin
    obtain ⟨x, hx, hp, hi⟩ := hin
    exact .inl ⟨i, x, rfl, hx, hp, hi.symm⟩
  | proposeCommand k =>
    refine .inr ⟨by simp, ?_⟩
    simp only [inputOf] at hin
    split at hin
    · cases hin; trivial
    · cases hin
  | finishRead k =>
    refine .inr ⟨by simp, ?_⟩
    simp only [inputOf] at hin
    split at hin
    · cases hin; trivial
    · cases hin
  | startElection q => cases hin; exact .inr ⟨by simp, trivial⟩
  | freezeWrites q reason => cases hin; exact .inr ⟨by simp, trivial⟩
  | resumeWrites q => cases hin; exact .inr ⟨by simp, trivial⟩
  | shutdown q => cases hin; exact .inr ⟨by simp, trivial⟩
  | _ => cases hin

/-! ## What is new on the wire -/

/-- What replication is tagged with: nothing, or the read that begins with it. -/
def Tagged (g : RaftCluster n σ δ) (a : Action n) (p : Fin n) (read : Option ℕ) : Prop :=
  read = none ∨ (a = .beginRead p ∧ read = some g.reads.length)

/-- A packet a node may put on the wire by itself, in the step `a`. -/
inductive Emitted (g : RaftCluster n σ δ) : Action n → Packet n δ → Prop
  | vote {a : Action n} {p peer : Fin n} {r : RequestVoteRequest n} (hne : peer ≠ p)
      (hr : (g.nodes p).voteRequest p = some r) : Emitted g a ⟨p, peer, .voteRequest r⟩
  | append {a : Action n} {p peer : Fin n} {read next : Option ℕ} {r : AppendEntriesRequest n}
      (hne : peer ≠ p) (hlead : (g.nodes p).state = .leader) (htag : Tagged g a p read)
      (hnext : ∀ i, next = some i → i = 1 ∨ (g.nodes p).nextIndex peer = some i)
      (hr : Node.appendRequest p ((g.nodes p).replicateArgs next) = some r) :
      Emitted g a ⟨p, peer, .appendRequest read r⟩
  | snapshot {i : ℕ} {job : SnapshotJob n} {s : Snapshot δ} (hjob : g.jobs[i]? = some job)
      (hs : (g.nodes job.node).storage.loadSnapshot = some s) :
      Emitted g (.shipSnapshot i)
        ⟨job.node, job.peer, .snapshotRequest job.read ⟨job.term, job.node, s⟩⟩

/-- A job a leader may queue in the step `a`. -/
structure Dispatched (g : RaftCluster n σ δ) (a : Action n) (job : SnapshotJob n) : Prop where
  ne : job.peer ≠ job.node
  leader : (g.nodes job.node).state = .leader
  term : job.term = (g.nodes job.node).currentTerm
  tag : Tagged g a job.node job.read

/-- The three kinds of request, and their answers. -/
theorem packetReply_cases {x y : Packet n δ} (h : packetReply y out = some x) :
    (∃ r response, y.body = .voteRequest r ∧ out = .vote response ∧
      x = ⟨y.dst, y.src, .voteResponse response⟩) ∨
    (∃ read r response, y.body = .appendRequest read r ∧ out = .append response ∧
      x = ⟨y.dst, y.src, .appendResponse read response⟩) ∨
    (∃ read r response, y.body = .snapshotRequest read r ∧ out = .install response ∧
      x = ⟨y.dst, y.src, .snapshotResponse read r.snapshot.index response⟩) := by
  unfold packetReply at h
  split at h
  · rename_i r response hb
    exact .inl ⟨r, response, hb, rfl, (some.inj h).symm⟩
  · rename_i read r response hb
    exact .inr (.inl ⟨read, r, response, hb, rfl, (some.inj h).symm⟩)
  · rename_i read r response hb
    exact .inr (.inr ⟨read, r, response, hb, rfl, (some.inj h).symm⟩)
  · cases h

/-- The answer to the packet a step took off the wire. -/
def Answered (cfg : Config n σ δ) (g : RaftCluster n σ δ) (a : Action n) (x : Packet n δ) :
    Prop :=
  ∃ i y, a = .deliver i ∧ g.wire[i]? = some y ∧
    packetReply y ((g.nodes y.dst).handle cfg y.dst (packetInput y)).2 = some x

@[simp] theorem settle_nodes (a : Action n) (out : Output) :
    (g.settle a out).nodes = g.nodes := by
  unfold settle
  split
  · split <;> rfl
  · split <;> rfl
  · split <;> rfl
  · rfl

@[simp] theorem settle_jobs (a : Action n) (out : Output) : (g.settle a out).jobs = g.jobs := by
  unfold settle
  split
  · split <;> rfl
  · split <;> rfl
  · split <;> rfl
  · rfl

variable {x : Packet n δ}

theorem mem_settle_wire (hx : x ∈ (g.settle a out).wire) :
    x ∈ g.wire ∨ ∃ i y, a = .deliver i ∧ g.wire[i]? = some y ∧ packetReply y out = some x := by
  unfold settle at hx
  split at hx
  · rename_i i
    split at hx
    · rename_i y hy
      rcases mem_append.1 hx with hx | hx
      · exact .inl (mem_of_mem_eraseIdx hx)
      · exact .inr ⟨i, y, rfl, hy, mem_toList.1 hx⟩
    · exact .inl hx
  · split at hx <;> exact .inl hx
  · split at hx <;> exact .inl hx
  · exact .inl hx

theorem mem_handled_wire (hin : g.inputOf a = some (p, input))
    (hx : x ∈ ((g.settle a ((g.nodes p).handle cfg p input).2).setNode p
      ((g.nodes p).handle cfg p input).1).wire) :
    x ∈ g.wire ∨ Answered cfg g a x := by
  rcases mem_settle_wire hx with hx | ⟨i, y, rfl, hy, hr⟩
  · exact .inl hx
  · simp only [inputOf, hy, map_some, some.injEq, Prod.mk.injEq] at hin
    obtain ⟨rfl, rfl⟩ := hin
    exact .inr ⟨i, y, rfl, hy, hr⟩

/-! ## What a step that only reads leaves -/

section

variable (p peer : Fin n) (read : Option ℕ) (args : Node.ReplicateArgs)

@[simp] theorem replicate_nodes : (g.replicate p peer read args).nodes = g.nodes := by
  unfold replicate
  split
  · rfl
  · split <;> rfl

@[simp] theorem replicate_reads : (g.replicate p peer read args).reads = g.reads := by
  unfold replicate
  split
  · rfl
  · split <;> rfl

@[simp] theorem replicate_calls : (g.replicate p peer read args).calls = g.calls := by
  unfold replicate
  split
  · rfl
  · split <;> rfl

end

section

variable {p peer : Fin n} {read : Option ℕ} {args : Node.ReplicateArgs}

theorem mem_replicate_wire (hx : x ∈ (g.replicate p peer read args).wire) :
    x ∈ g.wire ∨ ∃ r, Node.appendRequest p args = some r ∧
      x = ⟨p, peer, .appendRequest read r⟩ := by
  unfold replicate at hx
  split at hx
  · exact .inl hx
  split at hx
  · rename_i r hr
    rcases mem_append.1 hx with hx | hx
    · exact .inl hx
    · exact .inr ⟨r, hr, mem_singleton.1 hx⟩
  · exact .inl hx

theorem mem_replicate_jobs {job : SnapshotJob n} (hj : job ∈ (g.replicate p peer read args).jobs) :
    job ∈ g.jobs ∨ job = ⟨p, peer, args.term, read⟩ := by
  unfold replicate at hj
  split at hj
  · rcases mem_append.1 hj with hj | hj
    · exact .inl hj
    · exact .inr (mem_singleton.1 hj)
  · split at hj <;> exact .inl hj

end

/-- What talking to several peers at once leaves: induction over the peers. -/
theorem foldl_replicate (p : Fin n) (read : Option ℕ) (args : Fin n → Node.ReplicateArgs)
    (ps : List (Fin n)) (g : RaftCluster n σ δ) :
    let g' := ps.foldl (fun g peer => g.replicate p peer read (args peer)) g
    g'.nodes = g.nodes ∧ g'.reads = g.reads ∧ g'.calls = g.calls ∧
    (∀ x ∈ g'.wire, x ∈ g.wire ∨ ∃ peer ∈ ps, ∃ r, Node.appendRequest p (args peer) = some r ∧
      x = ⟨p, peer, .appendRequest read r⟩) ∧
    (∀ job ∈ g'.jobs, job ∈ g.jobs ∨ ∃ peer ∈ ps, job = ⟨p, peer, (args peer).term, read⟩) := by
  induction ps generalizing g with
  | nil => exact ⟨rfl, rfl, rfl, fun _ hx => .inl hx, fun _ hx => .inl hx⟩
  | cons q ps ih =>
    obtain ⟨hn, hr, hc, hw, hj⟩ := ih (g.replicate p q read (args q))
    refine ⟨by simpa using hn, by simpa using hr, by simpa using hc, ?_, ?_⟩
    · intro x hx
      rcases hw x hx with hx | ⟨peer, hp, r, hx⟩
      · rcases mem_replicate_wire hx with hx | ⟨r, hx⟩
        · exact .inl hx
        · exact .inr ⟨q, mem_cons_self, r, hx⟩
      · exact .inr ⟨peer, mem_cons_of_mem _ hp, r, hx⟩
    · intro job hjob
      rcases hj job hjob with hjob | ⟨peer, hp, hjob⟩
      · rcases mem_replicate_jobs hjob with hjob | hjob
        · exact .inl hjob
        · exact .inr ⟨q, mem_cons_self, hjob⟩
      · exact .inr ⟨peer, mem_cons_of_mem _ hp, hjob⟩

/-- A step that only reads changes no node, and adds to the wire and to the queue
only what a node may put there. -/
structure Stands (g : RaftCluster n σ δ) (a : Action n) (g' : RaftCluster n σ δ) : Prop where
  nodes : g'.nodes = g.nodes
  wire : ∀ x ∈ g'.wire, x ∈ g.wire ∨ Emitted g a x
  jobs : ∀ job ∈ g'.jobs, job ∈ g.jobs ∨ Dispatched g a job

theorem Stands.of_eq {g g' : RaftCluster n σ δ} (hn : g'.nodes = g.nodes) (hw : g'.wire = g.wire)
    (hj : g'.jobs = g.jobs) : Stands g a g' :=
  ⟨hn, fun _ hx => .inl (hw ▸ hx), fun _ hx => .inl (hj ▸ hx)⟩

theorem heartbeat_stands {peer : Fin n} (hb : g.bystand cfg (.heartbeat p peer) = some g') :
    Stands g (.heartbeat p peer) g' := by
  simp only [bystand] at hb
  split at hb
  · cases hb
  rename_i hno
  simp only [not_or, not_not, Bool.not_eq_true] at hno
  obtain ⟨hne, -, hlead⟩ := hno
  cases hb
  refine ⟨by simp, fun x hx => ?_, fun job hj => ?_⟩
  · rcases mem_replicate_wire hx with hx | ⟨r, hr, rfl⟩
    · exact .inl hx
    · exact .inr (.append hne hlead (.inl rfl) (fun i hi => .inr hi) hr)
  · rcases mem_replicate_jobs hj with hj | rfl
    · exact .inl hj
    · exact .inr ⟨hne, hlead, rfl, .inl rfl⟩

theorem shipSnapshot_stands {i : ℕ} (hb : g.bystand cfg (.shipSnapshot i) = some g') :
    Stands g (.shipSnapshot i) g' := by
  simp only [bystand] at hb
  split at hb
  swap
  · cases hb
  rename_i job hjob
  split at hb
  · cases hb
    exact ⟨rfl, fun x hx => .inl hx, fun x hx => .inl (mem_of_mem_eraseIdx hx)⟩
  split at hb
  · rename_i s hs
    cases hb
    refine ⟨rfl, fun x hx => ?_, fun x hx => .inl (mem_of_mem_eraseIdx hx)⟩
    rcases mem_append.1 hx with hx | hx
    · exact .inl hx
    · rw [mem_singleton.1 hx]
      exact .inr (.snapshot hjob hs)
  · cases hb
    exact ⟨rfl, fun x hx => .inl hx, fun x hx => .inl (mem_of_mem_eraseIdx hx)⟩

theorem mem_peers {q : Fin n} (h : q ∈ peers p) : q ≠ p := by
  simpa [peers] using h

theorem beginRead_stands (hb : g.bystand cfg (.beginRead p) = some g') :
    Stands g (.beginRead p) g' := by
  simp only [bystand] at hb
  split at hb
  · cases hb
    exact .of_eq rfl rfl rfl
  rename_i hlead
  rw [not_not] at hlead
  split at hb
  · cases hb
    exact .of_eq rfl rfl rfl
  cases hb
  obtain ⟨hn, -, -, hw, hj⟩ := foldl_replicate p (some g.reads.length)
    (fun peer => (g.nodes p).replicateArgs (some (((g.nodes p).nextIndex peer).getD 1))) (peers p)
    { g with reads := g.reads ++ [⟨p, (g.nodes p).currentTerm, ∅, .asking⟩] }
  refine ⟨hn, fun x hx => ?_, fun job hjob => ?_⟩
  · rcases hw x hx with hx | ⟨peer, hp, r, hr, rfl⟩
    · exact .inl hx
    refine .inr (.append (mem_peers hp) hlead (.inr ⟨rfl, rfl⟩) ?_ hr)
    intro i hi
    rcases hnext : (g.nodes p).nextIndex peer with _ | k
    · rw [hnext] at hi; exact .inl (some.inj hi).symm
    · rw [hnext] at hi; exact .inr hi
  · rcases hj job hjob with hjob | ⟨peer, hp, rfl⟩
    · exact .inl hjob
    · exact .inr ⟨mem_peers hp, hlead, rfl, .inr ⟨rfl, rfl⟩⟩

/-- **A step that only reads a node.** -/
theorem bystand_stands (hb : g.bystand cfg a = some g') : Stands g a g' := by
  cases a with
  | askVote p peer =>
    simp only [bystand] at hb
    split at hb
    · cases hb
    rename_i hne
    obtain ⟨r, hr, rfl⟩ := map_eq_some_iff.1 hb
    refine ⟨rfl, fun x hx => ?_, fun x hx => .inl hx⟩
    rcases mem_append.1 hx with hx | hx
    · exact .inl hx
    · rw [mem_singleton.1 hx]
      exact .inr (.vote hne hr)
  | heartbeat p peer => exact heartbeat_stands hb
  | shipSnapshot i => exact shipSnapshot_stands hb
  | beginRead p => exact beginRead_stands hb
  | propose p command =>
    simp only [bystand] at hb
    split at hb <;> (cases hb; exact .of_eq rfl rfl rfl)
  | awaitCommit k =>
    simp only [bystand] at hb
    split at hb
    · split at hb <;> (cases hb; exact .of_eq rfl rfl rfl)
    · cases hb
  | expire k =>
    simp only [bystand] at hb
    split at hb
    · split at hb
      · cases hb; exact .of_eq rfl rfl rfl
      · cases hb
    · cases hb
  | answer k =>
    simp only [bystand] at hb
    split at hb
    · cases hb; exact .of_eq rfl rfl rfl
    · cases hb
  | _ => cases hb

/-! ## Crashes -/

theorem mem_restart_wire {st : EngineRaftStorage n δ}
    (hx : x ∈ ((g.consume a).restart cfg p st).wire) : x ∈ g.wire := by
  have hx := (mem_filter.1 hx).1
  unfold consume at hx
  split at hx
  · exact mem_of_mem_eraseIdx hx
  · exact hx

@[simp] theorem consume_nodes (a : Action n) : (g.consume a).nodes = g.nodes := by
  unfold consume
  split <;> rfl

@[simp] theorem consume_jobs (a : Action n) : (g.consume a).jobs = g.jobs := by
  unfold consume
  split <;> rfl

/-! ## Runs under a condition -/

/-- A condition on a node and what it is asked, as a condition on the steps of a
group: whatever a step asks of a node, crashed in or not, meets it. -/
def OnInput (C : Node n σ δ → Input n δ → Prop) (g : RaftCluster n σ δ) : Event n → Prop
  | .act a | .crashIn a _ => ∀ x ∈ g.inputOf a, C (g.nodes x.1) x.2
  | .crash _ => True

instance (C : Node n σ δ → Input n δ → Prop) [∀ nd input, Decidable (C nd input)]
    (g : RaftCluster n σ δ) (e : Event n) : Decidable (OnInput C g e) := by
  induction e using Event.casesOn <;> dsimp only [OnInput] <;> infer_instance

end RaftCluster

/-! ## A group to run -/

/-- The smallest state machine that forgets nothing: it keeps the commands it was
given, in order. -/
def tape : StateMachine (List Bytes) (List Bytes) where
  init := []
  apply s c := (s ++ [c], .ok)
  snapshot := some
  restore := id

theorem tape_lawful : tape.Lawful := fun _ _ h => (some.inj h).symm

/-- A group of `n` nodes over a tape, which compacts every `interval` entries. -/
def tapes (n interval : ℕ) : Config n (List Bytes) (List Bytes) :=
  ⟨tape, fun _ => interval, 1024, fun _ => true⟩

/-- The literals of `Fin 3` and `Fin 5`, the nodes of the groups run below, are read with these two,
whatever a module imports besides. -/
instance neZero_three : @NeZero ℕ Zero.ofOfNat0 3 := ⟨Nat.succ_ne_zero 2⟩

instance neZero_five : @NeZero ℕ Zero.ofOfNat0 5 := ⟨Nat.succ_ne_zero 4⟩

/-- `p` starts an election and asks `v`; the request, and then the answer, is the packet
at place `w`. -/
def electing {n : ℕ} (p v : Fin n) (w : ℕ) : List (Event n) :=
  [.act (.startElection p), .act (.askVote p v), .act (.deliver w), .act (.deliver w)]

/-- `p` sends `q` what it is missing; the request, and then the answer, is the packet at
place `w`. -/
def feeding {n : ℕ} (p q : Fin n) (w : ℕ) : List (Event n) :=
  [.act (.heartbeat p q), .act (.deliver w), .act (.deliver w)]

/-- `p` sends `q` its snapshot. -/
def shipping {n : ℕ} (p q : Fin n) : List (Event n) :=
  [.act (.heartbeat p q), .act (.shipSnapshot 0), .act (.deliver 0), .act (.deliver 0)]

/-- A client proposes `command` at `p`, in call `k`. -/
def proposing {n : ℕ} (p : Fin n) (command : Bytes) (k : ℕ) : List (Event n) :=
  [.act (.propose p command), .act (.proposeCommand k)]

end OxideDB.Raft
