import OxideDB.Raft.Simulation
import OxideDB.Raft.Election

/-!
# What an orderly group guarantees

The safety properties of the log, read off the ledger an orderly run stands for,
and for each the run that shows what becomes of it without the rules.
-/

namespace OxideDB.Raft.Safety

open List RaftCluster Transition LogEntry
open Consensus (Chosen Sound Majority lastTerm Valid)

variable {l : List LogEntry} {e : LogEntry}
variable {n : ℕ} {σ δ : Type} {cfg : Config n σ δ}

/-! ## State machine safety -/

/-- The node has folded `command` into its state machine at index `i`, itself or by
restoring a snapshot that had. -/
def Folded (nd : Node n σ δ) (i : ℕ) (command : Bytes) : Prop :=
  ∃ e ∈ nd.machine.history, e.index = i ∧ e.command = command

instance (nd : Node n σ δ) (i : ℕ) (command : Bytes) : Decidable (Folded nd i command) := by
  unfold Folded
  infer_instance

variable {p : Fin n} {a : Log n} {nd : Node n σ δ}

theorem history_chosen (h : NodeRel cfg a p nd) : Chosen a nd.currentTerm nd.machine.history := by
  rw [h.steady.history]
  exact h.chosen.of_prefix (take_prefix_take_left h.steady.applied_le)

/-- In numbered entries, an index names one entry. -/
theorem eq_of_index_eq (hl : Numbered 0 l) {e' : LogEntry} (he : e ∈ l) (he' : e' ∈ l)
    (hi : e.index = e'.index) : e = e' := by
  obtain ⟨j, hj⟩ := getElem?_of_mem he
  obtain ⟨k, hk⟩ := getElem?_of_mem he'
  have hj' := hl j e hj
  have hk' := hl k e' hk
  have hjk : j = k := by omega
  rw [hjk, hk] at hj
  exact (Option.some.inj hj).symm

/-- **Histories never fork**: of what two nodes have folded in, at any two moments of
an orderly run, one is a prefix of the other. -/
theorem histories_comparable {es₁ es₂ : List (Event n)} {g₁ g₂ : RaftCluster n σ δ}
    (ho : Along (Orderly cfg) cfg (init cfg) (es₁ ++ es₂))
    (h₁ : run cfg (init cfg) es₁ = some g₁)
    (h₂ : run cfg g₁ es₂ = some g₂) (p q : Fin n) :
    (g₁.nodes p).machine.history <+: (g₂.nodes q).machine.history ∨
      (g₂.nodes q).machine.history <+: (g₁.nodes p).machine.history := by
  obtain ⟨a₁, -, -, hr₁⟩ := (Rel.init cfg).run ho.left h₁
  obtain ⟨a₂, -, hg, hr₂⟩ := hr₁.run (ho.right h₁) h₂
  exact ((history_chosen (hr₁.nodes p)).grows hg).comparable hr₂.sound
    (history_chosen (hr₂.nodes q))

/-- **State machine safety.**  Whatever two nodes have folded in at one index, at any
two moments of an orderly run, is the same command. -/
theorem state_machine_safety (cfg : Config n σ δ) (es₁ es₂ : List (Event n))
    (g₁ g₂ : RaftCluster n σ δ)
    (ho : Along (Orderly cfg) cfg (init cfg) (es₁ ++ es₂))
    (h₁ : run cfg (init cfg) es₁ = some g₁)
    (h₂ : run cfg g₁ es₂ = some g₂) (p q : Fin n) (i : ℕ) (c d : Bytes)
    (hp : Folded (g₁.nodes p) i c) (hq : Folded (g₂.nodes q) i d) : c = d := by
  obtain ⟨e, he, hei, rfl⟩ := hp
  obtain ⟨e', he', hei', rfl⟩ := hq
  obtain ⟨a₁, -, -, hr₁⟩ := (Rel.init cfg).run ho.left h₁
  obtain ⟨a₂, -, -, hr₂⟩ := hr₁.run (ho.right h₁) h₂
  have hn₁ : Numbered 0 (g₁.nodes p).machine.history := by
    rw [(hr₁.nodes p).steady.history]; exact (hr₁.nodes p).steady.numbered.take _
  have hn₂ : Numbered 0 (g₂.nodes q).machine.history := by
    rw [(hr₂.nodes q).steady.history]; exact (hr₂.nodes q).steady.numbered.take _
  have hsame : e = e' := by
    rcases histories_comparable ho h₁ h₂ p q with hpre | hpre
    · exact eq_of_index_eq hn₂ (hpre.subset he) he' (hei.trans hei'.symm)
    · exact eq_of_index_eq hn₁ he (hpre.subset he') (hei.trans hei'.symm)
  rw [hsame]

/-- Two leaders of one term each get node 1 to acknowledge an entry of their own at
index 2. -/
def twoLeaders : List (Event 3) :=
  Election.lateVote ++ proposing 0 [1] 0 ++ proposing 2 [2] 1 ++ feeding 0 1 0 ++ feeding 2 1 0

theorem twoLeaders_fold_two :
    ∃ g, run (tapes 3 0) (init (tapes 3 0)) twoLeaders = some g ∧
      Folded (g.nodes 0) 2 [1] ∧ Folded (g.nodes 2) 2 [2] :=
  exists_of_any (by decide)

/-- A command is committed with node 1's help, and folded into node 0's snapshot. -/
def replicated : List (Event 3) := electing 0 1 0 ++ proposing 0 [7] 0 ++ feeding 0 1 0

/-- Node 2, which has seen none of it, is sent the snapshot and crashes. -/
def caughtUp : List (Event 3) := shipping 0 2 ++ [.crash 2]

theorem state_machine_safety_caughtUp :
    ∃ g₁ g₂ c d, run (tapes 3 2) (init (tapes 3 2)) replicated = some g₁ ∧
      run (tapes 3 2) g₁ caughtUp = some g₂ ∧ Folded (g₁.nodes 0) 2 c ∧
      Folded (g₂.nodes 2) 2 d ∧ c = d := by
  obtain ⟨g₁, h₁, hp, h⟩ : ∃ g₁,
      run (tapes 3 2) (init (tapes 3 2)) replicated = some g₁ ∧
      Folded (g₁.nodes 0) 2 [7] ∧ (run (tapes 3 2) g₁ caughtUp).any
        (fun g₂ => Folded (g₂.nodes 2) 2 [7]) = true :=
    exists_of_any (by decide)
  obtain ⟨g₂, h₂, hq⟩ := exists_of_any h
  exact ⟨g₁, g₂, [7], [7], h₁, h₂, hp, hq,
    state_machine_safety (tapes 3 2) replicated caughtUp g₁ g₂ (by decide) h₁ h₂ 0 2 2 [7] [7]
      hp hq⟩

/-! ## What commit means -/

/-- The entries a node holds, inside its snapshot or in its log. -/
def held (nd : Node n σ δ) : List LogEntry :=
  (nd.storage.snapshot.map (·.history)).getD [] ++ nd.log

/-- The nodes that hold an entry. -/
def holders (g : RaftCluster n σ δ) (e : LogEntry) : Finset (Fin n) :=
  Finset.univ.filter fun q => e ∈ held (g.nodes q)

/-- Where the step raises the commit index of a leader, the leader holds an entry at the
new one, and a majority holds that very entry. -/
def CommitsOnMajority (cfg : Config n σ δ) (g : RaftCluster n σ δ) (ev : Event n) : Prop :=
  ∀ g' ∈ g.step cfg ev, ∀ p, (g'.nodes p).state = .leader →
    (g.nodes p).commitIndex < (g'.nodes p).commitIndex →
    (∃ e ∈ held (g'.nodes p), e.index = (g'.nodes p).commitIndex) ∧
    ∀ e ∈ held (g'.nodes p), e.index = (g'.nodes p).commitIndex →
      majority n ≤ (holders g' e).card

instance (cfg : Config n σ δ) (g : RaftCluster n σ δ) (ev : Event n) :
    Decidable (CommitsOnMajority cfg g ev) := by
  unfold CommitsOnMajority
  infer_instance

theorem held_eq (h : nd.Steady cfg) : held nd = nd.fullLog := by
  show nd.storage.folded ++ nd.log = nd.fullLog
  rw [h.diskFolded, h.log_eq, take_append_drop]

/-- **Chosen means stored on a majority.** -/
theorem chosen_held {g : RaftCluster n σ δ} (h : Rel cfg a g) {T : ℕ} (hl : Chosen a T l)
    (he : e ∈ l) : majority n ≤ (holders g e).card := by
  obtain ⟨U, -, hpre⟩ := hl
  -- the commit it goes back to has a majority behind it, which still holds it all
  have hpos : 0 < a.commit U := by
    by_contra h0
    have := hpre.subset he
    rw [Nat.le_zero.1 (not_lt.1 h0), take_zero] at this
    cases this
  have hc := h.sound.committed U hpos
  obtain ⟨Q, hQ, hack⟩ := hc.quorum
  have hsub : Q ⊆ holders g e := by
    intro v hv
    have hkept := hc.kept h.sound.shape h.sound.retention (hack v hv)
    rw [(h.nodes v).log] at hkept
    rw [holders, Finset.mem_filter]
    refine ⟨Finset.mem_univ v, ?_⟩
    rw [held_eq (h.nodes v).steady]
    exact (hpre.trans hkept).subset he
  have := Finset.card_le_card hsub
  rw [Majority, Fintype.card_fin] at hQ
  exact le_trans hQ this

/-- An entry a node holds, and knows to be committed, is among its committed entries. -/
theorem mem_committed (h : nd.Steady cfg) (he : e ∈ held nd) (hle : e.index ≤ nd.commitIndex) :
    e ∈ nd.fullLog.take nd.commitIndex := by
  rw [held_eq h] at he
  obtain ⟨k, hk⟩ := getElem?_of_mem he
  have hidx := h.numbered k e hk
  exact mem_of_getElem? (i := k) (by rw [getElem?_take_of_lt (by omega), hk])

/-- **A leader commits on a majority**, in every step of an orderly run. -/
theorem commits_on_majority (cfg : Config n σ δ) (es : List (Event n))
    (ho : Along (Orderly cfg) cfg (init cfg) es) :
    Along (CommitsOnMajority cfg) cfg (init cfg) es := by
  refine ho.derive (I := fun g => ∃ a, Rel cfg a g) ?_ ?_ ⟨_, Rel.init cfg⟩
  · rintro g e g' hP ⟨a, h⟩ hs
    obtain ⟨b, -, -, hb⟩ := h.step hP hs
    exact ⟨b, hb⟩
  · rintro g ev hP ⟨a, h⟩ g' hs p - hlt
    obtain ⟨b, -, -, hb⟩ := h.step hP hs
    have hst := (hb.nodes p).steady
    refine ⟨?_, fun e he hi =>
      chosen_held hb (hb.nodes p).chosen (mem_committed hst he hi.le)⟩
    have hle := hst.commit_le
    obtain ⟨e, he⟩ : ∃ e, (g'.nodes p).fullLog[(g'.nodes p).commitIndex - 1]? = some e :=
      ⟨_, getElem?_eq_getElem (by omega)⟩
    refine ⟨e, by rw [held_eq hst]; exact mem_of_getElem? he, ?_⟩
    have := hst.numbered _ e he
    omega

/-- Node 1, the leader of term 1, appends two entries nobody else sees.  Node 2 wins
term 2, commits an entry at index 2 with node 0, and sends node 1 its snapshot; node 1
keeps its own entry at index 3 above it, and reports index 3 as its last. -/
def keptSuffix : List (Event 3) :=
  electing 1 0 0 ++ proposing 1 [1] 0 ++ proposing 1 [1] 1 ++ [.act (.startElection 2)] ++
    electing 2 0 0 ++ proposing 2 [2] 2 ++ feeding 2 0 0 ++ shipping 2 1 ++ feeding 2 1 0 ++
    [.act (.propose 2 [3])]

/-- The next entry of node 2 is committed at index 3 as soon as it is appended, and
nobody else holds it. -/
theorem keptSuffix_commits_alone :
    Election.OneLeaderPerTerm (tapes 3 2) (keptSuffix ++ [.act (.proposeCommand 3)]) ∧
    ∃ g, run (tapes 3 2) (init (tapes 3 2)) keptSuffix = some g ∧
      (∃ g' ∈ g.step (tapes 3 2) (.act (.proposeCommand 3)), (g'.nodes 2).state = .leader ∧
        (g.nodes 2).commitIndex = 2 ∧ (g'.nodes 2).commitIndex = 3 ∧
        ⟨2, 3, [3]⟩ ∈ held (g'.nodes 2) ∧ holders g' ⟨2, 3, [3]⟩ = {2}) ∧
      ¬ CommitsOnMajority (tapes 3 2) g (.act (.proposeCommand 3)) :=
  ⟨Election.oneLeaderPerTerm (by decide), exists_of_any (by decide)⟩

theorem commits_on_majority_caughtUp :
    Along (Orderly (tapes 3 2)) (tapes 3 2) (init (tapes 3 2))
      (replicated ++ caughtUp) ∧
    Along (CommitsOnMajority (tapes 3 2)) (tapes 3 2)
      (init (tapes 3 2)) (replicated ++ caughtUp) :=
  ⟨by decide, commits_on_majority (tapes 3 2) (replicated ++ caughtUp) (by decide)⟩

/-! ## Log matching -/

/-- The term a node knows at index `i`: its entry's, or at the snapshot's boundary the
snapshot's. -/
def termAt (nd : Node n σ δ) (i : ℕ) : Option ℕ :=
  match nd.entryAt i with
  | some e => some e.term
  | none => if i = nd.lastIncludedIndex then some nd.lastIncludedTerm else none

theorem termAt_eq (h : nd.Steady cfg) {i t : ℕ} (ht : termAt nd i = some t) :
    i ≤ nd.fullLog.length ∧ t = lastTerm term (nd.fullLog.take i) := by
  unfold termAt at ht
  split at ht
  · rename_i e he
    cases ht
    have hlt : nd.lastIncludedIndex < i := by
      by_contra hge
      rw [Node.Steady.entryAt_none nd (by omega)] at he
      cases he
    rw [h.entryAt_eq hlt] at he
    have := (List.getElem?_eq_some_iff.1 he).1
    exact ⟨by omega, (Node.lastTerm_take (by omega) he).symm⟩
  · split at ht
    · rename_i hi
      cases ht
      rw [hi]
      exact ⟨h.base_le_length, h.baseTerm⟩
    · cases ht

/-- **Log matching.**  In every state of an orderly run, two nodes that hold entries of
one term at an index agree on every term both know at or below it. -/
theorem log_matching (cfg : Config n σ δ) (es : List (Event n)) (g : RaftCluster n σ δ)
    (ho : Along (Orderly cfg) cfg (init cfg) es)
    (hr : run cfg (init cfg) es = some g) (p q : Fin n) (j : ℕ)
    (e e' : LogEntry) (hp : (g.nodes p).entryAt j = some e) (hq : (g.nodes q).entryAt j = some e')
    (hterm : e.term = e'.term) (i : ℕ) (hi : i ≤ j) (t u : ℕ)
    (ht : termAt (g.nodes p) i = some t) (hu : termAt (g.nodes q) i = some u) : t = u := by
  obtain ⟨a, -, -, h⟩ := (Rel.init cfg).run ho hr
  have whole : ∀ r x, (g.nodes r).entryAt j = some x → 0 < j ∧
      (g.nodes r).fullLog[j - 1]? = some x := by
    intro r x hx
    have hlt : (g.nodes r).lastIncludedIndex < j := by
      by_contra hge
      rw [Node.Steady.entryAt_none _ (by omega)] at hx
      cases hx
    rw [(h.nodes r).steady.entryAt_eq hlt] at hx
    exact ⟨by omega, hx⟩
  have valid : ∀ r, Valid term a.reign (g.nodes r).fullLog := by
    intro r
    rw [← (h.nodes r).log]
    exact h.sound.shape.logValid r
  obtain ⟨hj, hp⟩ := whole p e hp
  obtain ⟨-, hq⟩ := whole q e' hq
  have hsame := (valid p).matching (valid q) hp hq hterm
  rw [Nat.sub_add_cancel hj] at hsame
  have htake : (g.nodes p).fullLog.take i = (g.nodes q).fullLog.take i := by
    rw [← min_eq_left hi, ← take_take, hsame, take_take]
  rw [(termAt_eq (h.nodes p).steady ht).2, (termAt_eq (h.nodes q).steady hu).2, htake]

/-- Two votes, one after the other. -/
def electingTwice (p v w : Fin 5) : List (Event 5) :=
  electing p v 0 ++ [.act (.askVote p w), .act (.deliver 0), .act (.deliver 0)]

/-- Node 1 leads term 1 and copies two entries to node 3.  Node 4 wins term 2, commits
another entry at index 2 with nodes 0 and 2, and sends node 1 its snapshot. -/
def foreignPrefix : List (Event 5) :=
  electingTwice 1 0 2 ++ proposing 1 [1] 0 ++ proposing 1 [1] 1 ++ feeding 1 3 0 ++
    [.act (.startElection 4)] ++ electingTwice 4 0 2 ++ proposing 4 [2] 2 ++ feeding 4 0 0 ++
    feeding 4 2 0 ++ shipping 4 1

/-- Nodes 1 and 3 hold the same entry of term 1 at index 3; below it, at index 2, one
knows term 2 and the other term 1. -/
theorem foreignPrefix_mismatch :
    Election.OneLeaderPerTerm (tapes 5 2) foreignPrefix ∧
    ∃ g, run (tapes 5 2) (init (tapes 5 2)) foreignPrefix = some g ∧
      (g.nodes 1).entryAt 3 = some ⟨1, 3, [1]⟩ ∧ (g.nodes 3).entryAt 3 = some ⟨1, 3, [1]⟩ ∧
      termAt (g.nodes 1) 2 = some 2 ∧ termAt (g.nodes 3) 2 = some 1 :=
  ⟨Election.oneLeaderPerTerm (by decide), exists_of_any (by decide)⟩

/-- Both node 0 and node 1 have folded two entries away, and hold a third. -/
def thirdEntry : List (Event 3) := replicated ++ proposing 0 [8] 1 ++ feeding 0 1 0

theorem log_matching_thirdEntry :
    ∃ g e e' t u, run (tapes 3 2) (init (tapes 3 2)) thirdEntry = some g ∧
      (g.nodes 0).entryAt 3 = some e ∧ (g.nodes 1).entryAt 3 = some e' ∧ e.term = e'.term ∧
      termAt (g.nodes 0) 2 = some t ∧ termAt (g.nodes 1) 2 = some u ∧ t = u := by
  obtain ⟨g, hr, he, he', ht, hu⟩ : ∃ g,
      run (tapes 3 2) (init (tapes 3 2)) thirdEntry = some g ∧
      (g.nodes 0).entryAt 3 = some ⟨1, 3, [8]⟩ ∧ (g.nodes 1).entryAt 3 = some ⟨1, 3, [8]⟩ ∧
      termAt (g.nodes 0) 2 = some 1 ∧ termAt (g.nodes 1) 2 = some 1 :=
    exists_of_any (by decide)
  exact ⟨g, _, _, 1, 1, hr, he, he', rfl, ht, hu,
    log_matching (tapes 3 2) thirdEntry g (by decide) hr 0 1 3 _ _ he he' rfl 2 (by decide) 1 1
      ht hu⟩

/-! ## What a leader knows of its own term -/

/-- A leader with an entry of its term at or below its commit index, in its log or folded into
its snapshot. -/
def CommittedOwn (nd : Node n σ δ) : Prop :=
  nd.state = .leader ∧ ∃ e ∈ nd.fullLog, e.term = nd.currentTerm ∧ e.index ≤ nd.commitIndex

instance (nd : Node n σ δ) : Decidable (CommittedOwn nd) := inferInstanceAs (Decidable (_ ∧ _))

/-- `has_committed_in_its_own_term` looks at the last committed entry, if that is still in the
log. -/
theorem hasCommitted_iff (h : nd.Steady cfg) :
    nd.hasCommittedInItsOwnTerm = true ↔ nd.state = .leader ∧
      nd.lastIncludedIndex < nd.commitIndex ∧
      lastTerm term (nd.fullLog.take nd.commitIndex) = nd.currentTerm := by
  unfold Node.hasCommittedInItsOwnTerm
  by_cases hlead : nd.state = .leader
  swap
  · simp only [ne_eq, hlead, not_false_eq_true, if_true, Bool.false_eq_true, false_and]
  rw [if_neg (not_not.2 hlead), and_iff_right hlead]
  rcases Nat.lt_or_ge nd.lastIncludedIndex nd.commitIndex with hlt | hge
  · have hle := h.commit_le
    have he := getElem?_eq_getElem (l := nd.fullLog) (i := nd.commitIndex - 1) (by omega)
    rw [h.entryAt_eq hlt, he, Node.lastTerm_take (by omega) he, and_iff_right hlt,
      decide_eq_true_iff]
  · rw [Node.Steady.entryAt_none nd hge]
    simp only [Bool.false_eq_true, false_iff, not_and]
    exact fun hlt => absurd hlt (not_lt.2 hge)

/-- Terms do not fall along the log and stop at the leader's own, so an entry of its term is
committed when the last committed entry is one. -/
theorem committedOwn_iff (hs : Sound term a) (h : NodeRel cfg a p nd)
    (hlead : nd.state = .leader) :
    CommittedOwn nd ↔ lastTerm term (nd.fullLog.take nd.commitIndex) = nd.currentTerm := by
  have hsorted := hs.shape.sorted (hs.shape.logValid p)
  have hterm := hs.shape.logTerm p
  rw [h.log] at hsorted hterm
  rw [h.term] at hterm
  obtain ⟨el, hwon, -, -⟩ := (h.leader hlead).won
  have hpos := (hs.shape.candTerm _ _ _ (hs.shape.wonCand _ el hwon)).1
  constructor
  · rintro ⟨-, e, he, ht, hi⟩
    have hmem : e ∈ nd.fullLog.take nd.commitIndex := by
      obtain ⟨j, hj⟩ := getElem?_of_mem he
      have hnum := h.steady.numbered j e hj
      exact mem_of_getElem? ((getElem?_take_of_lt (by omega)).trans hj)
    have hge : nd.currentTerm ≤ lastTerm term (nd.fullLog.take nd.commitIndex) :=
      ht ▸ Consensus.Committed.le_lastTerm (hsorted.sublist (take_sublist _ _)) hmem
    refine le_antisymm ?_ hge
    unfold lastTerm
    split
    · rename_i x hx
      exact hterm x (mem_of_mem_take (mem_of_getLast? hx))
    · exact Nat.zero_le _
  · intro heq
    unfold lastTerm at heq
    split at heq
    · rename_i x hx
      have hmem := mem_of_getLast? hx
      obtain ⟨j, hj⟩ := getElem?_of_mem hmem
      have hnum := h.steady.numbered.take nd.commitIndex j x hj
      have hj := (List.getElem?_eq_some_iff.1 hj).1
      rw [length_take] at hj
      exact ⟨hlead, x, mem_of_mem_take hmem, heq, by omega⟩
    · omega

/-- **A leader knows when it has committed in its own term, unless it has folded that away**: in
every orderly run, the answer is right but when the snapshot ends at the commit index, with an
entry of the current term. -/
theorem own_term_commit_known (cfg : Config n σ δ) (es : List (Event n)) (g : RaftCluster n σ δ)
    (ho : Along (Orderly cfg) cfg (init cfg) es)
    (hr : run cfg (init cfg) es = some g) (p : Fin n) :
    ((g.nodes p).hasCommittedInItsOwnTerm = true ↔ CommittedOwn (g.nodes p)) ↔
      ¬((g.nodes p).state = .leader ∧ (g.nodes p).lastIncludedIndex = (g.nodes p).commitIndex ∧
        (g.nodes p).lastIncludedTerm = (g.nodes p).currentTerm) := by
  obtain ⟨a, -, -, h⟩ := (Rel.init cfg).run ho hr
  have hnode := h.nodes p
  have hbase := hnode.steady.base_le.trans hnode.steady.applied_le
  rw [hasCommitted_iff hnode.steady]
  by_cases hlead : (g.nodes p).state = .leader
  swap
  · exact iff_of_true (iff_of_false (fun h => hlead h.1) fun h => hlead h.1) fun h => hlead h.1
  rw [committedOwn_iff h.sound hnode hlead, and_iff_right hlead, and_iff_right hlead]
  rcases hbase.lt_or_eq with hlt | heq
  · exact iff_of_true (and_iff_right hlt) fun h => hlt.ne h.1
  · rw [hnode.steady.baseTerm, heq]
    simp only [lt_irrefl, false_and, true_and, false_iff]

/-- Node 0 has committed two entries of term 1 and folded both away: it says it has not. -/
theorem folded_commit_denied :
    ∃ g, run (tapes 3 2) (init (tapes 3 2)) replicated = some g ∧
      CommittedOwn (g.nodes 0) ∧ (g.nodes 0).hasCommittedInItsOwnTerm = false :=
  exists_of_any (by decide)

/-- Where compaction waits for a third entry, it knows. -/
theorem own_term_commit_known_unfolded :
    ∃ g, run (tapes 3 3) (init (tapes 3 3)) replicated = some g ∧
      CommittedOwn (g.nodes 0) ∧ (g.nodes 0).hasCommittedInItsOwnTerm = true := by
  exact Transition.exists_run (p := fun g => CommittedOwn (g.nodes 0) ∧
      ¬((g.nodes 0).state = .leader ∧ (g.nodes 0).lastIncludedIndex = (g.nodes 0).commitIndex ∧
        (g.nodes 0).lastIncludedTerm = (g.nodes 0).currentTerm)) (by decide)
    fun g hr ⟨hown, hcond⟩ => ⟨hown,
      ((own_term_commit_known (tapes 3 3) replicated g (by decide) hr 0).2 hcond).2 hown⟩

end OxideDB.Raft.Safety
