import OxideDB.Raft.Freshness
import OxideDB.Raft.Provenance

/-!
# A freeze as a boundary

A frozen node refuses the commands that would add rows.  Whether a freeze of all replicas is a
boundary — nothing that adds rows is applied after it — is up to what it finds: a command that
was let in before and is still on its way to a log, and an entry that is in a log and not yet
committed, are both beyond the refusal.  Where the leader in office has committed all of its
log, and no such command is on its way, there is neither.
-/

namespace OxideDB.Raft

open List

open Consensus (Valid lastTerm)

variable {n : ℕ} {σ δ : Type} {cfg : Config n σ δ} {g g' : RaftCluster n σ δ} {p : Fin n}

/-- The entry is a command that adds rows, and no no-op. -/
def LogEntry.Writes (cfg : Config n σ δ) (e : LogEntry) : Prop :=
  e.command ≠ noopCommand ∧ cfg.writesNewData e.command = true

/-- The leader in office has committed all of its log, and no command that adds rows is on its
way to a log. -/
@[mk_iff]
structure Drained (cfg : Config n σ δ) (g : RaftCluster n σ δ) (p : Fin n) : Prop where
  reigning : Reigning g p
  whole : (g.nodes p).lastLogIndex = (g.nodes p).commitIndex
  calls : ∀ call ∈ g.calls, call.status = .admitted → cfg.writesNewData call.command = false

instance (cfg : Config n σ δ) (g : RaftCluster n σ δ) (p : Fin n) : Decidable (Drained cfg g p) :=
  decidable_of_iff' _ (drained_iff cfg g p)

/-- A command that adds rows finds the node it is proposed to frozen. -/
def Refuses (cfg : Config n σ δ) (g : RaftCluster n σ δ) : Event n → Prop
  | .act (.propose p command) =>
      cfg.writesNewData command = true → (g.nodes p).writesFrozen = true
  | _ => True

/-- Beyond an index and from a term on, no entry adds rows. -/
def RowsEnd (cfg : Config n σ δ) (term index : ℕ) (e : LogEntry) : Prop :=
  term ≤ e.term → index < e.index → ¬ e.Writes cfg

theorem rowsEnd_noop (cfg : Config n σ δ) (term index t i : ℕ) :
    RowsEnd cfg term index ⟨t, i, noopCommand⟩ :=
  fun _ _ h => h.1 rfl

/-- What a step that keeps the condition lets in adds no rows. -/
theorem Refuses.admits {e : Event n} (h : Refuses cfg g e) (term index : ℕ) :
    g.Admits (RowsEnd cfg term index) cfg e := by
  cases e with
  | act a =>
    cases a with
    | propose q command =>
      intro hadmitted t i _ _ hwrites
      unfold Node.propose at hadmitted
      split at hadmitted
      · cases hadmitted
      · rw [if_pos ⟨h hwrites.2, hwrites.2⟩] at hadmitted
        cases hadmitted
    | _ => trivial
  | crash q => trivial
  | crashIn a j => trivial

namespace Drained

variable {a : Log n}

variable (h : Drained cfg g p) (hr : Rel cfg a g)
include h hr

/-- In any log the ledger knows, the entries from the leader's term on end where its log ends. -/
theorem index_le {l : List LogEntry} (hl : Valid LogEntry.term a.reign l) (hn : Numbered 0 l)
    {e : LogEntry} (he : e ∈ l) (ht : (g.nodes p).currentTerm ≤ e.term) :
    e.index ≤ (g.nodes p).commitIndex := by
  obtain ⟨k, hk⟩ := getElem?_of_mem he
  obtain ⟨el, hel⟩ := hr.sound.shape.won_of_mem hl hk
  have hterm : e.term = (g.nodes p).currentTerm := le_antisymm (h.reigning.won_le hr hel) ht
  have hlen := (hl k e hk).length_le
  have hlt := (List.getElem?_eq_some_iff.1 hk).1
  have hreign := ((hr.nodes p).leader h.reigning.leads).reign
  have hwhole := h.whole
  rw [hterm, hreign, List.length_take, min_eq_left hlt] at hlen
  rw [(hr.nodes p).steady.lastLogIndex_eq] at hwhole
  have := hn k e hk
  omega

/-- **At the boundary no entry is beyond it.** -/
theorem holds : g.Holds (RowsEnd cfg (g.nodes p).currentTerm (g.nodes p).commitIndex) := by
  have within : ∀ {l : List LogEntry}, Valid LogEntry.term a.reign l → Numbered 0 l →
      ∀ e ∈ l, RowsEnd cfg (g.nodes p).currentTerm (g.nodes p).commitIndex e :=
    fun hl hn e he ht hi => absurd (h.index_le hr hl hn he ht) (not_le.2 hi)
  refine ⟨fun q => ?_, fun x hx => ?_, fun call hcall hst t i _ _ hwrites => ?_⟩
  · have hq := hr.nodes q
    have hfull := within (hq.log ▸ hr.sound.shape.logValid q) hq.steady.numbered
    have hlog : ∀ e ∈ (g.nodes q).log, e ∈ (g.nodes q).fullLog :=
      fun e he => mem_append_right _ he
    have hhist : ∀ e ∈ (g.nodes q).machine.history, e ∈ (g.nodes q).fullLog := fun e he => by
      rw [hq.steady.history] at he
      exact mem_of_mem_take he
    have hdisk : (g.nodes q).storage.Holds
        (RowsEnd cfg (g.nodes p).currentTerm (g.nodes p).commitIndex) := by
      refine ⟨fun e he => ?_, fun s hs e he => ?_⟩
      · by_cases hbase : (g.nodes q).storage.base < e.index
        · refine hfull e (hlog e ?_)
          rw [← hq.steady.diskLive]
          exact mem_filter.2 ⟨he, decide_eq_true hbase⟩
        · -- what the snapshot covers is committed
          intro _ hi
          have hcommitted := (h.reigning.prefix_committed hr hq.chosen).length_le
          rw [length_take, length_take] at hcommitted
          have hbase' := hq.steady.diskBase
          have hle := hq.steady.base_le
          have happ := hq.steady.applied_le
          have hcom := hq.steady.commit_le
          omega
      · refine hfull e ?_
        have hfolded : (g.nodes q).storage.folded = s.history := by
          unfold EngineRaftStorage.folded
          rw [Option.mem_def.1 hs]
          rfl
        rw [hq.steady.diskFolded] at hfolded
        rw [← hfolded] at he
        exact mem_of_mem_take he
    refine ⟨fun e he => hfull e (hlog e he), fun e he => hfull e (hhist e he), hdisk, ?_⟩
    intro cp hcp
    rw [mem_singleton.1 hcp]
    exact hdisk
  · have hbody := (hr.wire x hx).body
    rcases x with ⟨src, dst, body⟩
    cases body with
    | appendRequest read r =>
      obtain ⟨m, hm⟩ := hbody
      intro e he
      rw [hm.entries] at he
      exact within ((hr.sound.shape.reignValid r.term).of_isPrefix hm.reign) hm.numbered e
        (mem_of_mem_drop he)
    | snapshotRequest read r =>
      exact within ((hr.sound.shape.reignValid r.term).of_isPrefix hbody.reign)
        hbody.sane.numbered
    | _ => trivial
  · cases (h.calls call hcall hst).symm.trans hwrites.2

/-- The newest entry the leader has committed is of its term. -/
theorem last_term :
    ∃ e, (g.nodes p).fullLog[(g.nodes p).commitIndex - 1]? = some e ∧
      e.term = (g.nodes p).currentTerm ∧ 0 < (g.nodes p).commitIndex := by
  obtain ⟨⟨el, hel, -⟩, -⟩ := (hr.nodes p).leader h.reigning.leads
  have hpos : 0 < (g.nodes p).currentTerm :=
    (hr.sound.shape.candTerm _ _ _ (hr.sound.shape.wonCand _ el hel)).1
  obtain ⟨hle, hlast⟩ := Safety.termAt_eq (hr.nodes p).steady h.reigning.earned
  unfold lastTerm at hlast
  split at hlast
  · rename_i e he
    rw [getLast?_eq_getElem?, length_take, min_eq_left hle] at he
    have hlt := (List.getElem?_eq_some_iff.1 he).1
    rw [length_take] at hlt
    rw [getElem?_take_of_lt (by omega)] at he
    exact ⟨e, he, hlast.symm, by omega⟩
  · omega

/-- **What is applied beyond the boundary adds no rows**, on any node and however the group runs
on. -/
theorem boundary (hup : (g.nodes p).CaughtUp) {es : List (Event n)}
    (hes : RaftCluster.Along (fun g e => Orderly cfg g e ∧ Refuses cfg g e) cfg g es)
    (hrun : RaftCluster.run cfg g es = some g') (q : Fin n) {e : LogEntry}
    (he : e ∈ (g'.nodes q).machine.history) (hwrites : e.Writes cfg) :
    e ∈ (g.nodes p).machine.history := by
  obtain ⟨b, hg, hrb, hholds⟩ : ∃ b, a.Grows b ∧ Rel cfg b g' ∧
      g'.Holds (RowsEnd cfg (g.nodes p).currentTerm (g.nodes p).commitIndex) := by
    refine hes.invariant (I := fun g' => ∃ b, a.Grows b ∧ Rel cfg b g' ∧
      g'.Holds (RowsEnd cfg (g.nodes p).currentTerm (g.nodes p).commitIndex)) ?_
      ⟨a, .refl a, hr, h.holds hr⟩ hrun
    rintro g₁ e g₂ ⟨ho, href⟩ ⟨b, hgb, hrb, hb⟩ hs
    obtain ⟨b', -, hg', hrb'⟩ := hrb.step ho hs
    exact ⟨b', hgb.trans hg', hrb', hb.step (rowsEnd_noop cfg _ _) (href.admits _ _) hs⟩
  have hhist : (g.nodes p).machine.history = (g.nodes p).fullLog.take (g.nodes p).commitIndex := by
    rw [(hr.nodes p).steady.history, le_antisymm (hr.nodes p).steady.applied_le hup]
  have hq := hrb.nodes q
  rcases ((Safety.history_chosen (hr.nodes p)).grows hg).comparable hrb.sound
    (Safety.history_chosen hq) with hpre | hpre
  swap
  · exact hpre.subset he
  -- the node has gone on from where the boundary was
  obtain ⟨k, hk⟩ := getElem?_of_mem he
  rcases Nat.lt_or_ge k (g.nodes p).machine.history.length with hlt | hge
  · have hsame := Consensus.prefix_getElem? hpre (getElem?_eq_getElem hlt)
    rw [hk] at hsame
    rw [Option.some.inj hsame]
    exact getElem_mem hlt
  exfalso
  obtain ⟨last, hlast, hterm, hpos⟩ := h.last_term hr
  have hlen : (g.nodes p).machine.history.length = (g.nodes p).commitIndex := by
    rw [hhist, length_take]
    exact min_eq_left (hr.nodes p).steady.commit_le
  have hlast' : (g'.nodes q).machine.history[(g.nodes p).commitIndex - 1]? = some last := by
    refine Consensus.prefix_getElem? hpre ?_
    rw [hhist, getElem?_take_of_lt (by omega)]
    exact hlast
  have hvalid : Valid LogEntry.term b.reign (g'.nodes q).machine.history := by
    refine (hrb.sound.shape.logValid q).of_isPrefix ?_
    rw [hq.log, hq.steady.history]
    exact take_prefix _ _
  have hsorted := hrb.sound.shape.sorted hvalid
  have hle : last.term ≤ e.term := by
    have hi := (List.getElem?_eq_some_iff.1 hlast').1
    have hj := (List.getElem?_eq_some_iff.1 hk).1
    rw [getElem?_eq_getElem hi] at hlast'
    rw [getElem?_eq_getElem hj] at hk
    rw [← Option.some.inj hlast', ← Option.some.inj hk]
    exact pairwise_iff_getElem.1 hsorted _ _ hi hj (by omega)
  have hindex : e.index = 0 + k + 1 := by
    have hnum : Numbered 0 (g'.nodes q).machine.history := by
      rw [hq.steady.history]
      exact hq.steady.numbered.take _
    exact hnum k e hk
  exact (hholds.nodes q).history e he (hterm ▸ hle) (by omega) hwrites

end Drained

end OxideDB.Raft
