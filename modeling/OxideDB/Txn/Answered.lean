import OxideDB.Txn.Snapshot
import OxideDB.Txn.Truth

/-!
# Proposals that are answered

Where every proposal is put into a log once and answered with what the machine said, what a
coordinator hears of a command is what became of it.
-/

namespace OxideDB.Txn

open Raft (ApplyResult)
open Storage MVCCStateMachine List

namespace System

/-- A proposal is put into the log once, and answered with what the machine said. -/
def Answered (S : System) : Event → Prop
  | .ask j => ∀ call ∈ S.calls[j]?, call.pending = 0 ∧ call.results = []
  | .answer j a => ∀ call ∈ S.calls[j]?, call.pending = 0 ∧ ∃ r ∈ call.results, a = .result r
  | _ => True

instance (S : System) (e : Event) : Decidable (Answered S e) := by
  induction e using Event.casesOn <;> dsimp only [Answered] <;> infer_instance

variable {cfg : Config} {S S' : System} {e : Event} {j : ℕ}

/-- Every proposal is applied once at most, and answered with what the machine said. -/
structure Once (S : System) : Prop where
  single {call : Call} (h : call ∈ S.calls) : call.pending + call.results.length ≤ 1
  answered {call : Call} {a : Answer} (h : call ∈ S.calls) (ha : call.answer = some a) :
    call.pending = 0 ∧ ∃ r, a = .result r ∧ call.results = [r]

theorem Once.init (cfg : Config) : Once (init cfg) where
  single h := by cases h
  answered h := by cases h

theorem Once.results_eq (h : Once S) {call : Call} {r : ApplyResult} (hcall : call ∈ S.calls)
    (hr : r ∈ call.results) : call.results = [r] := by
  have hsingle := h.single hcall
  obtain ⟨x, hx⟩ := length_eq_one_iff.1
    (le_antisymm (by omega : call.results.length ≤ 1) (length_pos_of_mem hr))
  rw [hx] at hr
  rw [hx, mem_singleton.1 hr]

/-- **Step.** -/
theorem Once.step (hS : Sound cfg S) (h : Once S) (hans : Answered S e)
    (hmove : Move cfg S e S') : Once S' := by
  refine ⟨fun {call} hcall => ?_, fun {call a} hcall ha => ?_⟩
  · obtain ⟨j, hj⟩ := getElem?_of_mem hcall
    rcases hmove.call hS.placed hj with ⟨call₀, hcall₀, hupdate⟩ | ⟨shard, cmd, -, rfl, -⟩
    · have hsingle := h.single (mem_of_getElem? hcall₀)
      cases hupdate with
      | asked _ he =>
        subst he
        obtain ⟨hpending, hresults⟩ := hans call₀ hcall₀
        simp [hpending, hresults]
      | applied hpending =>
        simp only [Call.applied, length_append, length_singleton]
        omega
      | _ => exact hsingle
    · simp
  · obtain ⟨j, hj⟩ := getElem?_of_mem hcall
    rcases hmove.call hS.placed hj with ⟨call₀, hcall₀, hupdate⟩ | ⟨shard, cmd, -, rfl, -⟩
    · have hmem := mem_of_getElem? hcall₀
      cases hupdate with
      | same => exact h.answered hmem ha
      | asked hopen => exact absurd (hopen.symm.trans ha) (by simp)
      | applied hpending => exact absurd (h.answered hmem ha).1 (by omega)
      | answered he =>
        subst he
        cases ha
        obtain ⟨hpending, r, hr, rfl⟩ := hans call₀ hcall₀
        have hresults := h.results_eq hmem hr
        exact ⟨hpending, r, rfl, hresults⟩
    · cases ha

/-- A prewrite is heard of when it has been applied. -/
theorem Answered.prompt (h : Answered S e) : Prompt S e := by
  cases e with
  | answer j a => exact fun call hcall _ => (h call hcall).1
  | _ => trivial

/-- A coordinator hears what the machine said. -/
theorem Answered.honest (h : Answered S e) (honce : Once S) : Honest S e := by
  cases e with
  | answer j a =>
    intro _ t _ _ call hcall
    obtain ⟨hpending, r, hr, rfl⟩ := h call hcall
    refine ⟨hpending, fun r' hr' => ?_, fun _ => ne_nil_of_mem hr⟩
    rw [honce.results_eq (mem_of_getElem? hcall) hr] at hr'
    rw [mem_singleton.1 hr']
  | _ => trivial

theorem Once.heard (h : Once S) {call : Call} {a : Answer} (hcall : call ∈ S.calls)
    (ha : call.answer = some a) (hsucc : a.success = true) : ∃ r ∈ call.results, r.success = true := by
  obtain ⟨-, r, rfl, hresults⟩ := h.answered hcall ha
  exact ⟨r, hresults ▸ mem_singleton_self r, hsucc⟩

theorem Once.not_raised (h : Once S) : S.answerOf j ≠ some .raised := by
  intro hans
  obtain ⟨call, hcall, ha⟩ := Option.bind_eq_some_iff.1 hans
  obtain ⟨-, r, hr, -⟩ := h.answered (mem_of_getElem? hcall) ha
  cases hr

end System
end OxideDB.Txn
