import OxideDB.Raft.Calls
import OxideDB.Raft.Safety

/-!
# Answered proposals

A call of `propose` appends an entry, waits until the commit index has passed it, looks
whether the entry at its index is still of its term, and reports what the machine
answered there.  The look comes late: by then the entry may have been overwritten and
folded away, and the answer may have left the window.  Where the waiter still sees what
it needs, its report is about its own entry.
-/

namespace OxideDB.Raft.Proposal

open List RaftCluster Node
open Consensus (Ledger Chosen Sound prefix_getElem?)

variable {command : Bytes} {l : List LogEntry}
variable {n : ℕ} {σ δ : Type} {cfg : Config n σ δ} {g g' : RaftCluster n σ δ}

/-! ## What a step makes of a call -/

/-- What a step to `g'` can make of a call. -/
inductive CallMoves (cfg : Config n σ δ) (g : RaftCluster n σ δ) :
    Event n → RaftCluster n σ δ → ProposeCall n → ProposeCall n → Prop
  | same {e : Event n} {g' : RaftCluster n σ δ} (c : ProposeCall n) : CallMoves cfg g e g' c c
  | appended {k : ℕ} {g' : RaftCluster n σ δ} {c : ProposeCall n} {entry : LogEntry}
      (hnode : g'.nodes c.node =
        ((g.nodes c.node).handle cfg c.node (.proposeCommand c.command)).1)
      (hout : ((g.nodes c.node).handle cfg c.node (.proposeCommand c.command)).2 =
        .appended (some entry)) :
      CallMoves cfg g (.act (.proposeCommand k)) g' c { c with status := .waiting entry }
  | settled {k : ℕ} {g' : RaftCluster n σ δ} {c : ProposeCall n} {entry : LogEntry}
      (hc : g.calls[k]? = some c) (hst : c.status = .waiting entry)
      (hlook : (g.nodes c.node).awaitCommit entry = some none) :
      CallMoves cfg g (.act (.awaitCommit k)) g' c { c with status := .settled entry }
  | answered {k : ℕ} {g' : RaftCluster n σ δ} {c : ProposeCall n} {entry : LogEntry}
      (hc : g.calls[k]? = some c) (hst : c.status = .settled entry) :
      CallMoves cfg g (.act (.answer k)) g' c
        { c with status := .returned (some entry) ((g.nodes c.node).proposalResult entry) }
  | refused {e : Event n} {g' : RaftCluster n σ δ} {c : ProposeCall n} {entry : Option LogEntry}
      {r : ApplyResult} (hr : r.index = none) :
      CallMoves cfg g e g' c { c with status := .returned entry r }
  | lost {e : Event n} {g' : RaftCluster n σ δ} (c : ProposeCall n) :
      CallMoves cfg g e g' c { c with status := .lost }

/-- A call that has only just come in. -/
def Opened (c : ProposeCall n) : Prop :=
  c.status = .admitted ∨ ∃ r, c.status = .returned none r ∧ r.index = none

/-- **What a step makes of one call.** -/
theorem call_step {e : Event n} (hs : g.step cfg e = some g') {c' : ProposeCall n}
    (hc : c' ∈ g'.calls) : Opened c' ∨ ∃ c ∈ g.calls, CallMoves cfg g e g' c c' := by
  have hafter := callsAfter hs
  -- a call that is moved on, among the others
  have hset : ∀ {k : ℕ} {c new : ProposeCall n}, g.calls[k]? = some c → c' ∈ g.calls.set k new →
      CallMoves cfg g e g' c new → ∃ c ∈ g.calls, CallMoves cfg g e g' c c' := by
    intro k c new hk hc hmove
    rcases mem_or_eq_of_mem_set hc with hc | rfl
    · exact ⟨c', hc, .same c'⟩
    · exact ⟨c, mem_of_getElem? hk, hmove⟩
  generalize hcalls : g'.calls = calls at hafter hc
  cases hafter with
  | same => exact .inr ⟨c', hc, .same c'⟩
  | refused hr =>
    rcases mem_append.1 hc with hc | hc
    · exact .inr ⟨c', hc, .same c'⟩
    · rw [mem_singleton.1 hc]
      exact .inl (.inr ⟨_, rfl, (propose_failure hr).2⟩)
  | admitted =>
    rcases mem_append.1 hc with hc | hc
    · exact .inr ⟨c', hc, .same c'⟩
    · rw [mem_singleton.1 hc]
      exact .inl (.inl rfl)
  | deposed hk => exact .inr (hset hk hc (.refused rfl))
  | appended hk hout hnode => exact .inr (hset hk hc (.appended hnode hout))
  | failed hk hlook => exact .inr (hset hk hc (.refused (awaitCommit_failure hlook).2))
  | settled hk hlook => exact .inr (hset hk hc (.settled hk rfl hlook))
  | expired hk => exact .inr (hset hk hc (.refused rfl))
  | answered hk => exact .inr (hset hk hc (.answered hk rfl))
  | crashed p =>
    obtain ⟨c, hmem, rfl⟩ := mem_map.1 hc
    refine .inr ⟨c, hmem, ?_⟩
    rcases CallsAfter.crash_eq p c with heq | heq <;> rw [heq]
    · exact .same c
    · exact .lost c

/-! ## The condition on waiters -/

/-- The entry a call waits for. -/
def awaited : CallStatus → Option LogEntry
  | .waiting entry => some entry
  | _ => none

/-- The entry a call has seen committed. -/
def seen : CallStatus → Option LogEntry
  | .settled entry => some entry
  | _ => none

/-- A waiter that finds its index committed can tell whose entry is there: the log still
has it, or the node has not left the term it was appended in.  A caller that fetches its
result finds one. -/
def InView (g : RaftCluster n σ δ) : Event n → Prop
  | .act (.awaitCommit k) => ∀ c ∈ g.calls[k]?, ∀ entry ∈ awaited c.status,
      entry.index ≤ (g.nodes c.node).commitIndex →
        ((g.nodes c.node).entryAt entry.index).isSome ∨
          (g.nodes c.node).currentTerm = entry.term
  | .act (.answer k) => ∀ c ∈ g.calls[k]?, ∀ entry ∈ seen c.status,
      ((g.nodes c.node).applyResults.lookup entry.index).isSome
  | _ => True

instance (g : RaftCluster n σ δ) (e : Event n) : Decidable (InView g e) := by
  induction e using Event.casesOn with
  | act a => induction a using Action.casesOn <;> dsimp only [InView] <;> infer_instance
  | crash _ | crashIn _ _ => exact inferInstanceAs (Decidable True)

/-- A step that keeps the rules, this one included. -/
def Watchful (cfg : Config n σ δ) (g : RaftCluster n σ δ) (e : Event n) : Prop :=
  Orderly cfg g e ∧ InView g e

instance (cfg : Config n σ δ) (g : RaftCluster n σ δ) (e : Event n) :
    Decidable (Watchful cfg g e) :=
  inferInstanceAs (Decidable (_ ∧ _))

/-! ## What a call knows -/

/-- The entry is where its term's leader put it. -/
def Placed (a : Log n) (entry : LogEntry) : Prop :=
  0 < entry.index ∧ (a.reign entry.term)[entry.index - 1]? = some entry

/-- The entry is chosen, after the entries `l`. -/
def ChosenAfter (a : Log n) (entry : LogEntry) (l : List LogEntry) : Prop :=
  l.length + 1 = entry.index ∧ ∃ T, Chosen a T (l ++ [entry])

/-- The result is what the machine answered to the entry, where it was chosen. -/
def Answers (cfg : Config n σ δ) (a : Log n) (entry : LogEntry) (r : ApplyResult) : Prop :=
  r.index = some entry.index ∧ ∃ l s, ChosenAfter a entry l ∧ cfg.machine.Reached s l ∧
    r = { (cfg.machine.applyEntry s entry).2 with
      index := some entry.index, leaderAddress := none }

/-- What a call of `command` knows about its entry. -/
def StatusRel (cfg : Config n σ δ) (a : Log n) (command : Bytes) : CallStatus → Prop
  | .admitted | .lost => True
  | .waiting entry => entry.command = command ∧ Placed a entry
  | .settled entry => entry.command = command ∧ ∃ l, ChosenAfter a entry l
  | .returned entry r => r.index = none ∨
      ∃ e, entry = some e ∧ e.command = command ∧ Answers cfg a e r

section Knowing

variable {a b : Log n} {p : Fin n} {nd : Node n σ δ} {entry : LogEntry}

theorem Placed.grows (hg : a.Grows b) (h : Placed a entry) : Placed b entry :=
  ⟨h.1, prefix_getElem? (hg.reign entry.term) h.2⟩

theorem ChosenAfter.grows (hg : a.Grows b) (h : ChosenAfter a entry l) : ChosenAfter b entry l :=
  ⟨h.1, h.2.imp fun _ hc => hc.grows hg⟩

theorem StatusRel.grows (hg : a.Grows b) {status : CallStatus}
    (h : StatusRel cfg a command status) :
    StatusRel cfg b command status := by
  cases status with
  | admitted => trivial
  | lost => trivial
  | waiting e => exact ⟨h.1, h.2.grows hg⟩
  | settled e => exact ⟨h.1, h.2.imp fun _ hl => hl.grows hg⟩
  | returned e r =>
    rcases h with h | ⟨e, he, hcmd, hi, l, s, hl, hrest⟩
    · exact .inl h
    · exact .inr ⟨e, he, hcmd, hi, l, s, hl.grows hg, hrest⟩

/-- What is chosen at one place is chosen once. -/
theorem ChosenAfter.unique (hs : Sound LogEntry.term a) {entry' : LogEntry} {l' : List LogEntry}
    (h : ChosenAfter a entry l) (h' : ChosenAfter a entry' l') (hi : entry.index = entry'.index) :
    l = l' ∧ entry = entry' := by
  obtain ⟨hlen, T, hc⟩ := h
  obtain ⟨hlen', U, hc'⟩ := h'
  have heq : (l ++ [entry]).length = (l' ++ [entry']).length := by
    simp only [length_append, length_singleton]; omega
  have hsame : l ++ [entry] = l' ++ [entry'] := by
    rcases hc.comparable hs hc' with hp | hp
    · exact hp.eq_of_length heq
    · exact (hp.eq_of_length heq.symm).symm
  obtain ⟨h₁, h₂⟩ := append_inj' hsame rfl
  exact ⟨h₁, singleton_inj.1 h₂⟩

/-- The first `i` entries of a log, the last one apart. -/
theorem take_eq_append {i : ℕ} {e : LogEntry} (hi : 0 < i) (he : l[i - 1]? = some e) :
    l.take i = l.take (i - 1) ++ [e] := by
  obtain ⟨hlt, rfl⟩ := List.getElem?_eq_some_iff.1 he
  rw [take_append_getElem hlt, Nat.sub_add_cancel hi]

/-- An entry at or below a node's commit index is chosen where it stands. -/
theorem chosenAfter_of_committed (h : NodeRel cfg a p nd) (hpos : 0 < entry.index)
    (hle : entry.index ≤ nd.commitIndex) (he : nd.fullLog[entry.index - 1]? = some entry) :
    ChosenAfter a entry (nd.fullLog.take (entry.index - 1)) := by
  have hlt := (List.getElem?_eq_some_iff.1 he).1
  refine ⟨by rw [length_take]; omega, nd.currentTerm, ?_⟩
  rw [← take_eq_append hpos he]
  exact h.chosen.of_prefix (List.take_prefix_take_left hle)

/-- **The look of a waiter that still sees its entry, or its term.** -/
theorem settled_chosen (h : NodeRel cfg a p nd) (hs : Sound LogEntry.term a)
    (hp : Placed a entry) (hlook : nd.awaitCommit entry = some none)
    (hview : entry.index ≤ nd.commitIndex →
      (nd.entryAt entry.index).isSome ∨ nd.currentTerm = entry.term) :
    ∃ l, ChosenAfter a entry l := by
  obtain ⟨hpos, hreign⟩ := hp
  unfold awaitCommit at hlook
  split at hlook
  · split at hlook <;> cases hlook
  rename_i hle
  rw [not_lt] at hle
  refine ⟨_, chosenAfter_of_committed h hpos hle ?_⟩
  have hlen := h.steady.commit_le
  rcases hview hle with hsome | hterm
  · -- the log still has an entry there, and it is of the entry's term
    obtain ⟨x, hx⟩ := Option.isSome_iff_exists.1 hsome
    rw [hx] at hlook
    dsimp only at hlook
    split at hlook
    · cases hlook
    rename_i ht
    rw [not_not] at ht
    have hbase : nd.lastIncludedIndex < entry.index := by
      by_contra hge
      rw [Node.Steady.entryAt_none nd (not_lt.1 hge)] at hx
      cases hx
    rw [h.steady.entryAt_eq hbase] at hx
    have hsame := Progress.matching h hs prefix_rfl _ x entry hx hreign ht
    have := congrArg (·[entry.index - 1]?) hsame
    simp only [getElem?_take_of_lt (Nat.lt_succ_self _)] at this
    rw [this, hreign]
  · -- the term's leader has all that is committed up to its term
    obtain ⟨el, hel⟩ : ∃ el, a.won nd.currentTerm = some el := by
      rcases hw : a.won nd.currentTerm with _ | el
      · rw [hterm] at hw
        rw [hs.shape.unwon _ hw] at hreign
        cases hreign
      · exact ⟨el, rfl⟩
    have hpre := h.chosen.prefix_reign hs hel
    have hx : (nd.fullLog.take nd.commitIndex)[entry.index - 1]? =
        some nd.fullLog[entry.index - 1] := by
      rw [getElem?_take_of_lt (by omega), getElem?_eq_getElem]
    have := prefix_getElem? hpre hx
    rw [hterm, hreign] at this
    rw [getElem?_eq_getElem (by omega)]
    exact this.symm

/-- **A result from the window** is the machine's answer to what is chosen there. -/
theorem answered_result (h : NodeRel cfg a p nd) (hs : Sound LogEntry.term a)
    (hl : ChosenAfter a entry l) (hview : (nd.applyResults.lookup entry.index).isSome) :
    Answers cfg a entry (nd.proposalResult entry) := by
  obtain ⟨r, hr⟩ := Option.isSome_iff_exists.1 hview
  obtain ⟨l', e, s, hpre, hlen, hreach, hans⟩ :=
    h.steady.results (entry.index, r) (lookup_eq_some_iff.1 hr |>.elim fun l₁ hl₁ => by
      obtain ⟨l₂, heq, -⟩ := hl₁
      rw [heq]
      exact mem_append_right _ mem_cons_self)
  have hnum : Numbered 0 nd.machine.history := by
    rw [h.steady.history]; exact h.steady.numbered.take _
  have hidx : e.index = entry.index := by
    have := hnum l'.length e (prefix_getElem? hpre (by simp))
    omega
  have hl' : ChosenAfter a e l' :=
    ⟨hlen.trans hidx.symm, nd.currentTerm, Chosen.of_prefix (Safety.history_chosen h) hpre⟩
  obtain ⟨rfl, rfl⟩ := hl'.unique hs hl hidx
  have hres : nd.proposalResult e = { (cfg.machine.applyEntry s e).2 with
      index := some e.index, leaderAddress := none } := by
    unfold proposalResult
    rw [hr]
    rw [← hans]
  exact ⟨by rw [hres], l', s, hl', hreach, hres⟩

variable (cfg : Config n σ δ) (h : NodeRel cfg a p nd) (hs : Sound LogEntry.term a)
include h hs

theorem proposeCommand_fullLog (hlead : nd.state = .leader) (e : LogEntry)
    (he : e.index = nd.fullLog.length + 1) :
    ((nd.append e).updateCommitIndex cfg).fullLog = nd.fullLog ++ [e] := by
  have hl := append_leads h.steady he
  have hlast : (nd.append e).lastLogIndex = nd.fullLog.length + 1 := by
    rw [hl.steady.lastLogIndex_eq, hl.holds.1, length_append, length_singleton]
  have hmatch := Progress.matchIndex_le h hs hlead
  rw [h.steady.lastLogIndex_eq] at hmatch
  have hself : (nd.append e).matchIndex p = none := h.self
  have hmatch' : ∀ q k, (nd.append e).matchIndex q = some k → k ≤ (nd.append e).lastLogIndex := by
    intro q k hq
    rw [hlast]
    exact le_trans (hmatch q k hq) (Nat.le_succ _)
  rcases updateCommitIndex_cases cfg hself hmatch' with heq | ⟨i, x, hlt, hx, -, -, heq⟩
  · rw [heq]; exact hl.holds.1
  have hbase : (nd.append e).lastIncludedIndex < i := by
    by_contra hge
    rw [Node.Steady.entryAt_none (nd.append e) (not_lt.1 hge)] at hx
    cases hx
  rw [hl.steady.entryAt_eq hbase] at hx
  have hi := (List.getElem?_eq_some_iff.1 hx).1
  rw [heq, (commitTo_leads cfg hl.steady hlt.le (by omega)).1.holds.1]
  exact hl.holds.1

/-- **The entry a call appends** stands in its term's log. -/
theorem appended_placed
    (hout : (nd.handle cfg p (.proposeCommand command)).2 = .appended (some entry))
    (hb : NodeRel cfg b p (nd.handle cfg p (.proposeCommand command)).1) :
    entry.command = command ∧ Placed b entry := by
  have hbegin := (Progress.begin hs h).node
  have hq : nd.begin.Quiet (nd.begin.proposeCommand cfg command).1 := .proposeCommand _ _
  simp only [handle, proposeCommand] at hout hb hq
  split at hout
  · cases hout
  rename_i hlead
  rw [if_neg hlead] at hb hq
  rw [not_not] at hlead
  simp only [Output.appended.injEq, Option.some.injEq] at hout
  have hidx : nd.begin.lastLogIndex + 1 = nd.begin.fullLog.length + 1 := by
    rw [hbegin.steady.lastLogIndex_eq]
  have hreign := (hb.leader (hq.state.trans hlead)).reign
  rw [hq.currentTerm, proposeCommand_fullLog cfg hbegin hs hlead _ hidx] at hreign
  subst hout
  refine ⟨rfl, Nat.succ_pos _, ?_⟩
  show (b.reign nd.begin.currentTerm)[nd.begin.lastLogIndex + 1 - 1]? = _
  rw [hreign, Nat.add_sub_cancel, hbegin.steady.lastLogIndex_eq, getElem?_concat_length]

end Knowing

/-! ## Runs -/

/-- Every call knows what it says. -/
def Accounted (cfg : Config n σ δ) (a : Log n) (g : RaftCluster n σ δ) : Prop :=
  ∀ c ∈ g.calls, StatusRel cfg a c.command c.status

/-- One event keeps it: one case for each thing that can happen to a call. -/
theorem Accounted.step {a b : Log n} (h : Accounted cfg a g) (hr : Rel cfg a g)
    (hb : Rel cfg b g') (hg : a.Grows b) {e : Event n} (hw : Watchful cfg g e)
    (hs : g.step cfg e = some g') : Accounted cfg b g' := by
  intro c' hc'
  rcases call_step hs hc' with hopen | ⟨c, hc, hmove⟩
  · rcases hopen with hst | ⟨r, hst, hri⟩
    · rw [hst]; trivial
    · rw [hst]; exact .inl hri
  have hold := h c hc
  cases hmove with
  | same => exact hold.grows hg
  | appended hnode hout =>
    exact appended_placed cfg (hr.nodes c.node) hr.sound hout (hnode ▸ hb.nodes c.node)
  | @settled k _ _ entry hk hst hlook =>
    rw [hst] at hold
    obtain ⟨l, hl⟩ := settled_chosen (hr.nodes c.node) hr.sound hold.2 hlook
      (hw.2 c hk entry (by rw [hst]; rfl))
    exact ⟨hold.1, l, hl.grows hg⟩
  | @answered k _ _ entry hk hst =>
    rw [hst] at hold
    obtain ⟨hcmd, l, hl⟩ := hold
    have hans : StatusRel cfg a c.command
        (.returned (some entry) ((g.nodes c.node).proposalResult entry)) :=
      .inr ⟨entry, rfl, hcmd, answered_result (hr.nodes c.node) hr.sound hl
        (hw.2 c hk entry (by rw [hst]; rfl))⟩
    exact hans.grows hg
  | refused hri => exact .inl hri
  | lost => trivial

theorem Accounted.init (cfg : Config n σ δ) : Accounted cfg Ledger.init (init cfg) :=
  nofun

theorem Accounted.run {a : Log n} (h : Accounted cfg a g) (hr : Rel cfg a g)
    {es : List (Event n)} (hw : Along (Watchful cfg) cfg g es)
    (hs : run cfg g es = some g') :
    ∃ b, a.Grows b ∧ Rel cfg b g' ∧ Accounted cfg b g' := by
  refine hw.invariant (I := fun g' => ∃ b, a.Grows b ∧ Rel cfg b g' ∧ Accounted cfg b g') ?_
    ⟨a, .refl a, hr, h⟩ hs
  rintro g₁ e g₂ hP ⟨b, hgb, hrb, hacc⟩ hstep
  obtain ⟨b', -, hg, hrb'⟩ := hrb.step hP.1 hstep
  exact ⟨b', hgb.trans hg, hrb', hacc.step hrb hrb' hg hP hstep⟩

/-- **A result that carries an index is about the call's own entry.**  In a watchful run
that has come to `g₂`, with `g₁` any moment of it: the entry the call appended has its
command, a majority holds it, no node has another one committed at its index, and the
result is what the machine answers to it after the entries before it, the ones every node
that has got that far has folded in. -/
theorem answered_proposal (cfg : Config n σ δ) (es₁ es₂ : List (Event n))
    (g₁ g₂ : RaftCluster n σ δ)
    (hw : Along (Watchful cfg) cfg (init cfg) (es₁ ++ es₂))
    (h₁ : run cfg (init cfg) es₁ = some g₁)
    (h₂ : run cfg g₁ es₂ = some g₂) (call : ProposeCall n) (hcall : call ∈ g₂.calls)
    (appended : Option LogEntry) (result : ApplyResult)
    (hdone : call.status = .returned appended result) (i : ℕ) (hi : result.index = some i) :
    ∃ entry, appended = some entry ∧ entry.index = i ∧ entry.command = call.command ∧
      majority n ≤ (Safety.holders g₂ entry).card ∧
      (∀ q, ∀ e ∈ Safety.held (g₁.nodes q), e.index = i → i ≤ (g₁.nodes q).commitIndex →
        e = entry) ∧
      ∃ before s, before.length + 1 = i ∧ cfg.machine.Reached s before ∧
        (∀ q, i ≤ (g₁.nodes q).lastApplied →
          before ++ [entry] <+: (g₁.nodes q).machine.history) ∧
        result.success = (cfg.machine.applyEntry s entry).2.success ∧
        result.errorCode = (cfg.machine.applyEntry s entry).2.errorCode ∧
        result.errorMsg = (cfg.machine.applyEntry s entry).2.errorMsg ∧
        result.data = (cfg.machine.applyEntry s entry).2.data := by
  obtain ⟨a₁, -, hr₁, hacc₁⟩ := (Accounted.init cfg).run (Rel.init cfg) hw.left h₁
  obtain ⟨a₂, hg, hr₂, hacc₂⟩ := hacc₁.run hr₁ (hw.right h₁) h₂
  have hknown := hacc₂ call hcall
  rw [hdone] at hknown
  rcases hknown with hnone | ⟨entry, rfl, hcmd, hidx, before, s, hafter, hreach, hres⟩
  · rw [hnone] at hi; cases hi
  obtain rfl : entry.index = i := Option.some.inj (hidx.symm.trans hi)
  have hafter' := hafter
  obtain ⟨hlen, T, hchosen⟩ := hafter'
  refine ⟨entry, rfl, rfl, hcmd, Safety.chosen_held hr₂ hchosen (mem_append_right _
    mem_cons_self), fun q e he hei hle => ?_, before, s, hlen, hreach, fun q hq => ?_, ?_⟩
  · -- another node's committed entry at this index
    have hst := (hr₁.nodes q).steady
    obtain ⟨k, hk⟩ := getElem?_of_mem (Safety.held_eq hst ▸ he)
    have hek := hst.numbered k e hk
    obtain rfl : k = e.index - 1 := by omega
    have := (chosenAfter_of_committed (hr₁.nodes q) (by omega) (hei.trans_le hle) hk).grows hg
    exact (this.unique hr₂.sound hafter hei).2
  · have hhist := (Safety.history_chosen (hr₁.nodes q)).grows hg
    rcases hchosen.comparable hr₂.sound hhist with hp | hp
    · exact hp
    · refine (hp.eq_of_length_le ?_).symm ▸ prefix_rfl
      rw [(hr₁.nodes q).steady.length_history, length_append, length_singleton]
      omega
  · rw [hres]
    exact ⟨rfl, rfl, rfl, rfl⟩

/-- Node 0, the leader of term 1, appends a command at index 2 that nobody else sees.
Node 2 wins term 2, commits another command there with node 1 and folds it away, and
sends node 0 its snapshot.  Only then does the caller at node 0 run again. -/
def overwritten : List (Event 3) :=
  electing 0 1 0 ++ proposing 0 [1] 0 ++ [.act (.startElection 2)] ++ electing 2 1 0 ++
    proposing 2 [2] 1 ++ feeding 2 1 0 ++ shipping 2 0 ++
    [.act (.awaitCommit 0), .act (.answer 0)]

/-- It is told that its command succeeded at index 2, where every node that has committed
anything there has the other one. -/
theorem overwritten_proposal_succeeds :
    ∃ g, run (tapes 3 2) (init (tapes 3 2)) overwritten = some g ∧
      (∃ call ∈ g.calls[0]?, call.command = [1] ∧
        call.status = .returned (some ⟨1, 2, [1]⟩) (.ok none (some 2))) ∧
      (∀ q, ∀ e ∈ Safety.held (g.nodes q), e.index = 2 → e = ⟨2, 2, [2]⟩) ∧
      (g.nodes 0).commitIndex = 2 ∧ (g.nodes 2).commitIndex = 2 :=
  Transition.exists_of_any (by decide)

/-- The caller of a command that is committed, and folded away, while its node leads. -/
def answered : List (Event 3) :=
  Safety.replicated ++ [.act (.awaitCommit 0), .act (.answer 0)]

theorem answered_proposal_answered :
    ∃ g call, run (tapes 3 2) (init (tapes 3 2)) answered = some g ∧
      call ∈ g.calls ∧ call.status = .returned (some ⟨1, 2, [7]⟩) (.ok none (some 2)) ∧
      ∃ entry, some ⟨1, 2, [7]⟩ = some entry ∧ entry.command = call.command ∧
        majority 3 ≤ (Safety.holders g entry).card := by
  obtain ⟨g, hr, call, hcall, hdone⟩ : ∃ g,
      run (tapes 3 2) (init (tapes 3 2)) answered = some g ∧
      ∃ call ∈ g.calls, call.status = .returned (some ⟨1, 2, [7]⟩) (.ok none (some 2)) :=
    Transition.exists_of_any (by decide)
  obtain ⟨entry, hentry, -, hcmd, hmaj, -⟩ := answered_proposal (tapes 3 2) answered [] g g
    (by decide) hr rfl call hcall _ _ hdone 2 rfl
  exact ⟨g, call, hr, hcall, hdone, entry, hentry, hcmd, hmaj⟩

end OxideDB.Raft.Proposal
