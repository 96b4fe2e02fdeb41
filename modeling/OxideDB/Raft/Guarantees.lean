import OxideDB.Raft.Freshness
import OxideDB.Raft.Provenance
import OxideDB.Raft.Recovery

/-!
# What a group keeps

What holds between one moment of a run and any later one, whatever elections, crashes, compactions
and snapshot transfers lie between.  In an orderly run what a node knows to be committed stays on a
majority and with every later leader, and machines that have got equally far are equal.  Where an
entry comes from needs no rules: somebody has proposed it.
-/

namespace OxideDB.Raft

open List RaftCluster Safety Transition
open Consensus (Chosen)

variable {n : ℕ} {σ δ : Type} {cfg : Config n σ δ}

section

variable {es₁ es₂ : List (Event n)} {g₁ g₂ : RaftCluster n σ δ}
  (ho : Along (Orderly cfg) cfg (init cfg) (es₁ ++ es₂))
  (h₁ : run cfg (init cfg) es₁ = some g₁) (h₂ : run cfg g₁ es₂ = some g₂)
include ho h₁ h₂

/-- What a node knows to be committed, the ledger of every later moment has chosen. -/
theorem chosen_later (p : Fin n) : ∃ a, Rel cfg a g₂ ∧
    Chosen a (g₁.nodes p).currentTerm (g₁.nodes p).committed := by
  obtain ⟨a₁, -, -, hr₁⟩ := (Rel.init cfg).run ho.left h₁
  obtain ⟨a₂, -, hg, hr₂⟩ := hr₁.run (ho.right h₁) h₂
  exact ⟨a₂, hr₂, (hr₁.nodes p).chosen.grows hg⟩

/-- **Leader completeness.**  What a node knows to be committed is held, from the first entry on,
by whoever leads the same or a later term afterwards. -/
theorem leader_completeness (p q : Fin n) (hlead : (g₂.nodes q).state = .leader)
    (hterm : (g₁.nodes p).currentTerm ≤ (g₂.nodes q).currentTerm) :
    (g₁.nodes p).committed <+: held (g₂.nodes q) := by
  obtain ⟨a, h, hchosen⟩ := chosen_later ho h₁ h₂ p
  obtain ⟨⟨el, hel, -, -⟩, hreign, -⟩ := (h.nodes q).leader hlead
  rw [held_eq (h.nodes q).steady, ← hreign]
  exact (hchosen.mono hterm).prefix_reign h.sound hel

/-- **A committed entry is never lost**: a majority holds it at every later moment. -/
theorem committed_stays_on_majority (p : Fin n) {e : LogEntry} (he : e ∈ (g₁.nodes p).committed) :
    majority n ≤ (holders g₂ e).card := by
  obtain ⟨a, h, hchosen⟩ := chosen_later ho h₁ h₂ p
  exact chosen_held h hchosen he

/-- **Equally far is equal**: two nodes, or one node at two moments, whose commit indices are the
same have their machines in the same state. -/
theorem equal_commit_equal_state (hM : cfg.machine.Lawful) (p q : Fin n)
    (hcommit : (g₁.nodes p).commitIndex = (g₂.nodes q).commitIndex) :
    (g₁.nodes p).machine.state = (g₂.nodes q).machine.state := by
  obtain ⟨a₁, -, -, hr₁⟩ := (Rel.init cfg).run ho.left h₁
  obtain ⟨a₂, -, -, hr₂⟩ := hr₁.run (ho.right h₁) h₂
  have hs₁ := (hr₁.nodes p).steady
  have hs₂ := (hr₂.nodes q).steady
  -- both have applied all they know to be committed, so the histories are equally long
  have happlied₁ := hs₁.applied_le.antisymm (caughtUp_run h₁ p)
  have happlied₂ := hs₂.applied_le.antisymm (caughtUp_run (run_join h₁ h₂) q)
  have hlength : (g₁.nodes p).machine.history.length = (g₂.nodes q).machine.history.length := by
    rw [hs₁.length_history, hs₂.length_history, happlied₁, happlied₂, hcommit]
  have hsame : (g₁.nodes p).machine.history = (g₂.nodes q).machine.history := by
    rcases histories_comparable ho h₁ h₂ p q with hpre | hpre
    · exact hpre.eq_of_length hlength
    · exact (hpre.eq_of_length hlength.symm).symm
  rw [hs₁.reached.eq_replay hM, hs₂.reached.eq_replay hM, hsame]

end

/-- Node 2 has been sent what node 0 has committed, and crashes. -/
theorem shipped_then_crashed : ∃ g₁,
    run (tapes 3 2) (init (tapes 3 2)) (replicated ++ shipping 0 2) = some g₁ ∧
    ∃ g₂ ∈ run (tapes 3 2) g₁ [.crash 2], (g₂.nodes 0).state = .leader ∧
      (g₁.nodes 2).currentTerm ≤ (g₂.nodes 0).currentTerm ∧
      ⟨1, 2, [7]⟩ ∈ (g₁.nodes 2).committed ∧
      (g₁.nodes 0).commitIndex = (g₂.nodes 2).commitIndex :=
  exists_of_any (by decide)

theorem shipped_orderly : Along (Orderly (tapes 3 2)) (tapes 3 2) (init (tapes 3 2))
    (replicated ++ shipping 0 2 ++ [.crash 2]) := by decide

theorem leader_completeness_shipped : ∃ g₁ g₂, run (tapes 3 2) g₁ [.crash 2] = some g₂ ∧
    ⟨1, 2, [7]⟩ ∈ (g₁.nodes 2).committed ∧ (g₂.nodes 0).state = .leader ∧
    (g₁.nodes 2).committed <+: held (g₂.nodes 0) := by
  obtain ⟨g₁, h₁, g₂, h₂, hlead, hterm, hmem, -⟩ := shipped_then_crashed
  exact ⟨g₁, g₂, h₂, hmem, hlead, leader_completeness shipped_orderly h₁ h₂ 2 0 hlead hterm⟩

theorem committed_stays_on_majority_shipped : ∃ g₁ g₂, run (tapes 3 2) g₁ [.crash 2] = some g₂ ∧
    ⟨1, 2, [7]⟩ ∈ (g₁.nodes 2).committed ∧ majority 3 ≤ (holders g₂ ⟨1, 2, [7]⟩).card := by
  obtain ⟨g₁, h₁, g₂, h₂, -, -, hmem, -⟩ := shipped_then_crashed
  exact ⟨g₁, g₂, h₂, hmem, committed_stays_on_majority shipped_orderly h₁ h₂ 2 hmem⟩

theorem equal_commit_equal_state_shipped : ∃ g₁ g₂, run (tapes 3 2) g₁ [.crash 2] = some g₂ ∧
    (g₁.nodes 0).commitIndex = (g₂.nodes 2).commitIndex ∧
    (g₁.nodes 0).machine.state = (g₂.nodes 2).machine.state := by
  obtain ⟨g₁, h₁, g₂, h₂, -, -, -, hcommit⟩ := shipped_then_crashed
  exact ⟨g₁, g₂, h₂, hcommit,
    equal_commit_equal_state shipped_orderly h₁ h₂ tape_lawful 0 2 hcommit⟩

/-! ## Where entries come from -/

theorem RaftCluster.Holds.init (P : LogEntry → Prop) (cfg : Config n σ δ) :
    (init cfg).Holds P where
  nodes p := (Node.Holds.loadFromStorage cfg p ⟨nofun, nofun⟩).begin
  wire := nofun
  calls := nofun

/-- **Nothing comes out of thin air**: an entry that a node has, in its log, in its snapshot or
folded in, is a no-op or carries a command that somebody has proposed.  Any run has this. -/
theorem entries_proposed {es : List (Event n)} {g : RaftCluster n σ δ}
    (hr : run cfg (init cfg) es = some g) (p : Fin n) {e : LogEntry}
    (he : e ∈ held (g.nodes p) ∨ e ∈ (g.nodes p).machine.history) :
    e.command = noopCommand ∨ ∃ q, .act (.propose q e.command) ∈ es := by
  set P : LogEntry → Prop := fun e =>
    e.command = noopCommand ∨ ∃ q, .act (.propose q e.command) ∈ es
  have hadmits : Along (Admits P cfg) cfg (init cfg) es := by
    refine Along.of_mem fun g ev hev => ?_
    cases ev with
    | act a =>
      cases a with
      | propose q command => exact fun _ _ _ => .inr ⟨q, hev⟩
      | _ => trivial
    | _ => trivial
  have hholds := hadmits.invariant (fun _ _ _ ha h hs => h.step (fun _ _ => .inl rfl) ha hs)
    (Holds.init P cfg) hr
  have hnode := hholds.nodes p
  rcases he with he | he
  · rcases mem_append.1 he with he | he
    · rcases hsnap : (g.nodes p).storage.snapshot with _ | s
      · rw [hsnap] at he
        cases he
      · rw [hsnap] at he
        exact hnode.disk.snapshot s hsnap e he
    · exact hnode.log e he
  · exact hnode.history e he

theorem entries_proposed_replicated : ∃ g,
    run (tapes 3 2) (init (tapes 3 2)) replicated = some g ∧ ⟨1, 2, [7]⟩ ∈ held (g.nodes 1) ∧
    ∃ q, .act (.propose q [7]) ∈ replicated := by
  exact exists_run (p := fun g => ⟨1, 2, [7]⟩ ∈ held (g.nodes 1)) (by decide) fun g hr hmem =>
    ⟨hmem, (entries_proposed hr 1 (.inl hmem)).resolve_left (by decide)⟩

end OxideDB.Raft
