import OxideDB.Shard.Source

/-!
# What the rows of a copy stand for

The rows a split or a move copies are meant to be the shard: nothing that was acknowledged is
missing from them, and nothing is added to the shard behind them.  Both are up to the node the
rows are read of and the moment they are read at.  The node is one that takes itself for the
leader, which an old leader does until it hears of the new one; and what the flow waits for
before it reads is that callers are answered, which a caller whose wait has run out is while its
entry is still on its way.
-/

namespace OxideDB.Shard.Source

open Raft (Bytes LogEntry RaftCluster ProposeCall ApplyResult Reigning Drained Orderly Refuses)
open Raft.Proposal (Watchful)
open Storage MVCCStorage Transition

variable {k v : Bytes} {m : MVCCStateMachine}
variable {n : ℕ} {cfg : Settings n} {s s' : Source n} {x : Step n}

/-! ## The group's part in a run -/

/-- What the flow makes happen keeps the rules. -/
theorem watchful_made {e : Raft.Event n} (he : Made e) (g : Group n) : Watchful cfg g e := by
  cases e with
  | act a =>
    cases a with
    | freezeWrites q reason | resumeWrites q | shutdown q =>
      refine ⟨⟨fun y hy => ?_, fun y hy => ?_, trivial, trivial⟩, trivial⟩ <;>
        (cases hy; trivial)
    | beginRead q =>
      refine ⟨⟨fun y hy => ?_, fun y hy => ?_, trivial, trivial⟩, trivial⟩ <;> cases hy
    | _ => exact he.elim
  | crash q => exact he.elim
  | crashIn a j => exact he.elim

/-- A run of the flow is a run of its group, which keeps the rules where the group's own steps
do. -/
theorem group_run {P : Group n → Raft.Event n → Prop}
    {Q : Source n → Step n → Prop} (hgroup : ∀ s e, Q s (.group e) → P s.group e)
    (hmade : ∀ g e, Made e → P g e) {es : List (Step n)} (h : Along Q cfg s es)
    (hr : run cfg s es = some s') : ∃ es', RaftCluster.Along P cfg s.group es' ∧
      RaftCluster.run cfg s.group es' = some s'.group := by
  refine h.project Source.group (fun s x s' hQ hs => ?_) hr
  rcases step_group hs with hsame | ⟨e, hg, hx⟩
  · exact .inl hsame
  refine .inr ⟨e, ?_, hg⟩
  rcases hx with rfl | hmake
  · exact hgroup s e hQ
  · exact hmade s.group e hmake

/-! ## Nothing acknowledged is missing -/

/-- The steps of the group keep its rules, and rows are read of a leader in office. -/
def Fresh (cfg : Settings n) (s : Source n) : Step n → Prop
  | .group e => Watchful cfg s.group e
  | .proceed => ∀ p ∈ s.phase.source, Reigning s.group p
  | _ => True

instance (cfg : Settings n) (s : Source n) (x : Step n) : Decidable (Fresh cfg s x) := by
  induction x using Step.casesOn <;> dsimp only [Fresh] <;> infer_instance

theorem mem_scanVersions {start stop : Bytes} {read : List (Bytes × Bytes × ℤ)}
    (h : m.storage.scanVersions start stop m.lastAppliedTimestamp = .ok read) (hlo : start ≤ k)
    (hhi : k < stop) : (∃ t, (k, v, t) ∈ read) ↔
      ∃ t, Newest (m.maps.visible k m.lastAppliedTimestamp) (some (t, some v)) := by
  obtain ⟨lo', hlo', hrest⟩ := bind_ok h
  obtain ⟨hi', hhi', -⟩ := bind_ok hrest
  have hstart : ValidKey start := Option.some.inj (checkUserKey_ok hlo') ▸ lo'.2
  have hstop : ValidKey stop := Option.some.inj (checkUserKey_ok hhi') ▸ hi'.2
  obtain ⟨read', hread, -, hmem⟩ :=
    scanVersions_valid m.storage hstart hstop m.lastAppliedTimestamp
  cases h.symm.trans hread
  refine exists_congr fun t => ?_
  rw [hmem]
  exact ⟨fun hrow => hrow.2.2, fun hrow => ⟨hlo, hhi, hrow⟩⟩

/-- **The rows of a job**, however they are read: the keys it covers whose newest version is a
value. -/
theorem mem_rows {job : Job} {rows : List (Bytes × Bytes)}
    (h : job.rows m = .ok rows ∨ job.rowsThrough m = .ok rows) (hk : job.Covers k) :
    (k, v) ∈ rows ↔
      ∃ t, Newest (m.maps.visible k m.lastAppliedTimestamp) (some (t, some v)) := by
  -- the rows of the whole range, and then those above the split point
  obtain ⟨read, hread, hrows⟩ : ∃ read,
      m.storage.scanVersions job.start job.stop m.lastAppliedTimestamp = .ok read ∧
      ((k, v) ∈ rows ↔ (k, v) ∈ read.map fun row => (row.1, row.2.1)) := by
    have hthrough : ∀ {read}, m.scanVersions job.start job.stop none = .ok read →
        m.storage.scanVersions job.start job.stop m.lastAppliedTimestamp = .ok read := by
      intro read hread
      obtain ⟨hlo, hhi, hfree⟩ := MVCCStateMachine.unlocked_of_scanVersions hread
      obtain ⟨read', hread', hstored, -⟩ :=
        MVCCStateMachine.scanVersions_unlocked hlo hhi hfree
      cases hread.symm.trans hread'
      exact hstored
    have habove : ∀ splitKey ∈ job.splitKey, ∀ all : List (Bytes × Bytes),
        (k, v) ∈ all.filter (fun row => splitKey ≤ row.1) ↔ (k, v) ∈ all := by
      intro splitKey hsplit all
      rw [List.mem_filter]
      exact and_iff_left (decide_eq_true (hk.2.2 splitKey hsplit))
    rcases h with h | h
    · unfold Job.rows at h
      split at h
      · rename_i splitKey hsplit
        obtain ⟨all, hall, hrows⟩ := bind_ok h
        obtain ⟨read, hread, heq⟩ := bind_ok hall
        cases heq
        cases hrows
        exact ⟨read, hread, habove splitKey hsplit _⟩
      · obtain ⟨read, hread, heq⟩ := bind_ok h
        cases heq
        exact ⟨read, hread, Iff.rfl⟩
    · unfold Job.rowsThrough at h
      split at h
      · rename_i splitKey hsplit
        obtain ⟨read, hread, hrows⟩ := bind_ok h
        cases hrows
        exact ⟨read, hthrough hread, habove splitKey hsplit _⟩
      · obtain ⟨read, hread, heq⟩ := bind_ok h
        cases heq
        exact ⟨read, hthrough hread, Iff.rfl⟩
  rw [hrows, ← mem_scanVersions hread hk.1 hk.2.1, List.mem_map]
  constructor
  · rintro ⟨⟨k', v', t⟩, hrow, heq⟩
    cases heq
    exact ⟨t, hrow⟩
  · rintro ⟨t, hrow⟩
    exact ⟨_, hrow, rfl⟩

/-- **The copied rows miss nothing**: of every write that was acknowledged before they were read,
they show the version it wrote, or a newer one. -/
theorem copied_rows_complete (C : Coding) (interval : Fin n → ℕ) (window : ℕ)
    (es₁ es₂ : List (Step n)) (x : Step n) (s₁ s₂ s₃ : Source n)
    (hes : Along (Fresh (C.config interval window)) (C.config interval window)
      (init (C.config interval window)) (es₁ ++ (es₂ ++ [x])))
    (h₁ : run (C.config interval window) (init (C.config interval window)) es₁ = some s₁)
    (h₂ : run (C.config interval window) s₁ es₂ = some s₂)
    (hs : s₂.step (C.config interval window) x = some s₃) (hnot : ¬ s₂.phase.HasRows)
    (p : Fin n) (rows : List (Bytes × Bytes)) (hcopy : s₃.phase = .copying p rows)
    (call : ProposeCall n) (hcall : call ∈ s₁.group.calls) (entry : Option LogEntry)
    (r : ApplyResult) (hst : call.status = .returned entry r) (hok : r.success = true)
    (cmd : Command) (hcmd : C.unpack call.command = .ok cmd) :
    ∃ before e m₀, e.command = call.command ∧ C.machine.Reached m₀ before ∧
      before ++ [e] <+: (s₂.group.nodes p).machine.history ∧
      ∀ k t₀, m₀.written cmd = some (k, t₀) → s₂.job.Covers k →
        ∃ t w, t₀ ≤ t ∧ Newest ((s₂.machine p).maps.visible k (s₂.machine p).lastAppliedTimestamp)
          (some (t, w)) ∧ ∀ v, (k, v) ∈ rows ↔ w = some v := by
  obtain ⟨rfl, hsource, -, hrows⟩ := step_copying hs hnot hcopy
  have hrest := hes.right h₁
  have hfresh : Reigning s₂.group p := (hrest.right h₂).1 p hsource
  obtain ⟨es', hes', hr'⟩ := group_run (P := Watchful (C.config interval window))
    (fun _ _ h => h) (fun g _ he => watchful_made he g) hes.left h₁
  obtain ⟨es'', hes'', hr''⟩ := group_run (P := Watchful (C.config interval window))
    (fun _ _ h => h) (fun g _ he => watchful_made he g) hrest.left h₂
  have hrun : RaftCluster.run (C.config interval window)
      (RaftCluster.init (C.config interval window)) (es' ++ es'') = some s₂.group :=
    run_join hr' hr''
  obtain ⟨now, m₀, m₁, answer, happlied, hanswer, hlater, before, e, hcommand, hreach, hpre⟩ :=
    acknowledged hfresh (hes'.append hr' hes'') hrun (Raft.returned_run hr'' hcall hst) hst hok hcmd
  refine ⟨before, e, m₀, hcommand, hreach, hpre, fun k t₀ hw hk => ?_⟩
  obtain ⟨t, w, hle, hnew⟩ := (hlater.keeps (I := fun m => m.Written k t₀)
    (fun hm ha => hm.applied ha) (happlied.written hanswer hw)).newest
  refine ⟨t, w, hle, hnew, fun v => ?_⟩
  rw [mem_rows hrows hk]
  constructor
  · rintro ⟨t', hnew'⟩
    cases MVCCStateMachine.Newest.unique hnew hnew'
    rfl
  · rintro rfl
    exact ⟨t, hnew⟩

/-- A shard's group of three. -/
def trio : Settings 3 := packed.config (fun _ => 0) 1024

/-- A client sets `[5]` at node `p`, in call 0; `q` acknowledges it and the client is answered. -/
def setting (p q : Fin 3) : List (Raft.Event 3) :=
  Raft.proposing p setFive 0 ++ Raft.feeding p q 0 ++
    [.act (.awaitCommit 0), .act (.answer 0)]

/-- A split at `[3]`, up to where it reads the rows. -/
def splitting : List (Step 3) := .begin ⟨[1], [9], some [3]⟩ :: List.replicate 9 .proceed

/-- The steps of the group keep its rules. -/
def Ruled (cfg : Settings n) (s : Source n) : Step n → Prop
  | .group e => Watchful cfg s.group e
  | _ => True

instance (cfg : Settings n) (s : Source n) (x : Step n) : Decidable (Ruled cfg s x) := by
  induction x using Step.casesOn <;> dsimp only [Ruled] <;> infer_instance

/-- Node 0 leads term 1.  Node 1 is elected by node 2, and a client sets a key there. -/
def deposed : List (Step 3) :=
  (Raft.electing 0 1 0 ++ Raft.electing 1 2 0 ++ setting 1 2).map .group

/-- A split that begins after that finds node 0 leading, and reads no row. -/
theorem deposed_leader_read :
    Along (Ruled trio) trio (init trio) (deposed ++ (splitting ++ [.proceed])) ∧
    ∃ s₁, run trio (init trio) deposed = some s₁ ∧
      (s₁.phase = .idle ∧ (s₁.machine 1).get [5] none = .ok (.ok (some [7]) 1) ∧
        ∃ call ∈ s₁.group.calls, call.command = setFive ∧
          call.status = .returned (some ⟨2, 2, setFive⟩) (.ok none (some 2))) ∧
      ∃ s₂ ∈ run trio s₁ (splitting ++ [.proceed]),
        s₂.phase = .copying 0 [] ∧ s₂.job = ⟨[1], [9], some [3]⟩ :=
  ⟨by decide +kernel, exists_of_any (by decide +kernel)⟩

/-- Node 0 leads, and a client sets a key there. -/
def reigning : List (Step 3) := (Raft.electing 0 1 0 ++ setting 0 1).map .group

theorem copied_rows_complete_reigning : ∃ s₂ : Source 3,
    run trio (init trio) (reigning ++ splitting) = some s₂ ∧
    ∃ rows t w, (s₂.step trio .proceed).map (·.phase) = some (.copying 0 rows) ∧ 1 ≤ t ∧
      Newest ((s₂.machine 0).maps.visible [5] (s₂.machine 0).lastAppliedTimestamp) (some (t, w)) ∧
      ∀ v, ([5], v) ∈ rows ↔ w = some v := by
  obtain ⟨s₁, h₁, ⟨call, hcall, hcommand, hst⟩, h₂⟩ : ∃ s₁,
      run trio (init trio) reigning = some s₁ ∧
      (∃ call ∈ s₁.group.calls, call.command = setFive ∧
        call.status = .returned (some ⟨1, 2, setFive⟩) (.ok none (some 2))) ∧
      (run trio s₁ splitting).any (fun s₂ => (¬ s₂.phase.HasRows ∧
        s₂.job = ⟨[1], [9], some [3]⟩) ∧ (run trio s₂ [.proceed]).any (fun s₃ =>
          s₃.phase = .copying 0 [([5], [7])]) = true) = true :=
    exists_of_any (by decide +kernel)
  obtain ⟨s₂, h₂, ⟨hnot, hjob⟩, h₃⟩ := exists_of_any h₂
  obtain ⟨s₃, h₃, hcopy⟩ := exists_of_any h₃
  obtain ⟨_, hs, hlast⟩ := run_cons h₃
  cases hlast
  obtain ⟨_, _, _, -, -, -, hall⟩ := copied_rows_complete packed (fun _ => 0) 1024 reigning
    splitting .proceed s₁ s₂ s₃ (by decide +kernel) h₁ h₂ hs hnot 0 _ hcopy call hcall _ _ hst rfl
    { type := .set, key := some [5], value := some [7], timestamp := some 1 }
    (by rw [hcommand]; rfl)
  obtain ⟨t, w, hle, hnew, hmem⟩ := hall [5] 1 rfl (by rw [hjob]; unfold Job.Covers; decide)
  exact ⟨s₂, run_join h₁ h₂, _, t, w, by rw [hs, Option.map_some, hcopy], hle, hnew,
    hmem⟩

/-! ## Nothing is added behind the rows -/

/-- The steps of the group keep its rules, no replica restarts from the first one frozen to the
rows copied, and rows are read when the log has drained and the replicas of other sides are frozen
too. -/
def Still (cfg : Settings n) (s : Source n) : Step n → Prop
  | .group e => Orderly cfg s.group e ∧ (s.phase.Holds → e.KeepsFreeze)
  | .proceed => ∀ p ∈ s.phase.source, Drained cfg s.group p ∧ s.OthersFrozen
  | _ => True

instance (cfg : Settings n) (s : Source n) (x : Step n) : Decidable (Still cfg s x) := by
  induction x using Step.casesOn <;> dsimp only [Still] <;> infer_instance

/-- From the rows read on: no replica restarts, and nothing is thawed.  The routing table may be
told, the replicas may be closed, and the flow may die and be resumed. -/
def Kept (cfg : Settings n) (s : Source n) : Step n → Prop
  | .group e => Orderly cfg s.group e ∧ e.KeepsFreeze
  | .proceed => ¬ s.phase.Thaws
  | _ => True

instance (cfg : Settings n) (s : Source n) (x : Step n) : Decidable (Kept cfg s x) := by
  induction x using Step.casesOn <;> dsimp only [Kept] <;> infer_instance

/-- The replicas of its side that the flow has been at are frozen. -/
structure Frozen (s : Source n) : Prop where
  full : s.phase.Full → ∀ q ∈ s.own, (s.group.nodes q).writesFrozen = true
  partly : ∀ leader left, s.phase = .freezing leader left →
    ∀ q ∈ s.own, q ∉ left → (s.group.nodes q).writesFrozen = true

theorem Full.holds {phase : Phase n} (h : phase.Full) : phase.Holds := by
  cases phase with
  | freezing _ _ => exact h.elim
  | _ => exact h

theorem full_of_source {phase : Phase n} {p : Fin n} (h : phase.source = some p) :
    phase.Full := by
  cases phase with
  | reading _ | rowRead _ _ => trivial
  | _ => cases h

theorem frozen_init : Frozen (init cfg) :=
  ⟨fun h => h.elim, nofun⟩

/-- A phase in which the flow holds nothing asks for nothing. -/
theorem frozen_of_not_holds (h : ¬ s.phase.Holds) : Frozen s :=
  ⟨fun hfull => absurd (Full.holds hfull) h, fun _ _ hphase => by
    rw [hphase] at h
    exact absurd trivial h⟩

theorem frozen_of_full (hfull : s.phase.Full)
    (h : ∀ q ∈ s.own, (s.group.nodes q).writesFrozen = true) : Frozen s :=
  ⟨fun _ => h, fun _ _ hphase => by
    rw [hphase] at hfull
    exact hfull.elim⟩

theorem Frozen.step (h : Frozen s) (hstill : Still cfg s x) (hs : s.step cfg x = some s') :
    Frozen s' := by
  cases moves hs with
  | group hg =>
    refine ⟨fun hfull q hq => ?_, fun leader left hphase q hq hleft => ?_⟩
    · exact RaftCluster.writesFrozen_step (hstill.2 (Full.holds hfull)) hg (h.full hfull q hq)
    · refine RaftCluster.writesFrozen_step (hstill.2 ?_) hg (h.partly leader left hphase q hq hleft)
      rw [show s.phase = _ from hphase]
      trivial
  | began =>
    refine ⟨fun hfull => hfull.elim, fun leader left hphase q hq hleft => ?_⟩
    cases hphase
    exact absurd hq hleft
  | @froze _ leader q left g hphase hg =>
    refine ⟨fun hfull => hfull.elim, fun leader' left' heq q' hq' hleft => ?_⟩
    cases heq
    rw [RaftCluster.freezeWrites_step hg]
    split
    · rfl
    rename_i hne
    refine h.partly leader (q :: left) hphase q' hq' fun hmem => ?_
    rcases List.mem_cons.1 hmem with heq | hmem
    · exact hne heq
    · exact hleft hmem
  | @asked _ p _ _ hfull hphase hg =>
    exact frozen_of_full hphase.1 fun q hq =>
      RaftCluster.writesFrozen_step (e := .act (.beginRead p)) trivial hg (h.full hfull q hq)
  | turned hphase =>
    rcases hphase with hphase | ⟨hfull', -, hfrom⟩
    · exact frozen_of_not_holds hphase
    refine frozen_of_full hfull' fun q hq => ?_
    rcases hfrom with hfull | ⟨leader, heq⟩
    · exact h.full hfull q hq
    · exact h.partly leader [] heq q hq List.not_mem_nil
  | read hsource _ => exact frozen_of_full trivial fun q hq => h.full (full_of_source hsource) q hq
  | thawed _ _ | closed _ => exact frozen_of_not_holds id

/-- What is frozen stays so. -/
theorem Kept.step (hkept : Kept cfg s x) (hs : s.step cfg x = some s')
    (h : ∀ q, (s.group.nodes q).writesFrozen = true) (q : Fin n) :
    (s'.group.nodes q).writesFrozen = true := by
  cases moves hs with
  | group hg => exact RaftCluster.writesFrozen_step hkept.2 hg (h q)
  | @froze _ _ p _ _ _ hg =>
    exact RaftCluster.writesFrozen_step (e := .act (.freezeWrites p _)) trivial hg (h q)
  | @asked _ p _ _ _ _ hg =>
    exact RaftCluster.writesFrozen_step (e := .act (.beginRead p)) trivial hg (h q)
  | @closed p _ _ hg =>
    exact RaftCluster.writesFrozen_step (e := .act (.shutdown p)) trivial hg (h q)
  | thawed hphase _ =>
    refine absurd ?_ hkept
    rw [hphase]
    trivial
  | began | turned _ | read _ _ => exact h q

/-- While nothing is thawed, a command that adds rows is refused. -/
theorem kept_run {es : List (Step n)} (hfrozen : ∀ q, (s.group.nodes q).writesFrozen = true)
    (hes : Along (Kept cfg) cfg s es) (hr : run cfg s es = some s') :
    ∃ es', RaftCluster.Along (fun g e => Orderly cfg g e ∧ Refuses cfg g e) cfg s.group es' ∧
      RaftCluster.run cfg s.group es' = some s'.group := by
  have hall : Along (fun s x => Kept cfg s x ∧ ∀ q, (s.group.nodes q).writesFrozen = true)
      cfg s es :=
    hes.derive (fun _ _ _ hkept h hs => hkept.step hs h) (fun _ _ hkept h => ⟨hkept, h⟩) hfrozen
  refine group_run (fun s e hQ => ⟨hQ.1.1, ?_⟩) (fun g e he => ⟨(watchful_made he g).1, ?_⟩) hall hr
  · unfold Refuses
    split
    · exact fun _ => hQ.2 _
    · trivial
  · unfold Refuses
    split
    · exact he.elim
    · trivial

/-- A command that adds rows. -/
def AddsRows (C : Coding) (e : LogEntry) : Prop :=
  ∃ cmd, C.unpack e.command = .ok cmd ∧
    (cmd.type = .set ∨ cmd.type = .delete ∨ cmd.type = .prewrite)

theorem AddsRows.writes {C : Coding} {e : LogEntry} (h : AddsRows C e) (interval : Fin n → ℕ)
    (window : ℕ) : e.Writes (C.config interval window) := by
  obtain ⟨cmd, hcmd, htype⟩ := h
  refine ⟨fun hnoop => ?_, ?_⟩
  · obtain ⟨err, herr⟩ := C.unpack_noop
    rw [hnoop, herr] at hcmd
    cases hcmd
  · show C.writesNewData e.command = true
    unfold Coding.writesNewData
    rw [hcmd]
    rcases htype with htype | htype | htype <;> simp [htype]

/-- The steps of the group keep its rules, and no replica restarts while the flow holds it. -/
def Upright (cfg : Settings n) (s : Source n) : Step n → Prop
  | .group e => Orderly cfg s.group e ∧ (s.phase.Holds → e.KeepsFreeze)
  | _ => True

instance (cfg : Settings n) (s : Source n) (x : Step n) : Decidable (Upright cfg s x) := by
  induction x using Step.casesOn <;> dsimp only [Upright] <;> infer_instance

/-- Node 0 leads and appends a client's command; the client's wait runs out. -/
def expired : List (Step 3) :=
  (Raft.electing 0 1 0 ++ Raft.proposing 0 setFive 0 ++
    [Raft.Event.act (.expire 0)]).map .group

/-- A move, up to where it reads the rows. -/
def moving : List (Step 3) := .begin ⟨[1], [9], none⟩ :: List.replicate 9 .proceed

/-- From the rows read to the replicas closed: node 2 learns of the command before the routing table
is told, and the client sets another key after that, in vain. -/
def leaving : List (Step 3) :=
  (Raft.feeding 0 2 0).map .group ++ [.finish, .group (.act (.propose 0 setFive))] ++
    List.replicate 3 .proceed

end OxideDB.Shard.Source
