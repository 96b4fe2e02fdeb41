import OxideDB.Txn.System

/-!
# A transaction whose `commit` is called again

`commit` and `prewrite` look at the transaction's status and at nothing else, and the status is
`PENDING` until the last prewrite has been heard of.  So a call that comes while another one
prewrites passes the check, and both go on; one that comes later is turned away with
`(False, None)`.

Here a transaction may have any number of calls.  Each is an entry of `txns` with a phase of its
own, and what belongs to the transaction is the same in all of its calls.
-/

namespace OxideDB.Txn

namespace Transaction

/-- A call sees what another call of the transaction `t` has left. -/
def shareWith (t call : Transaction) : Transaction :=
  { call with keys := t.keys, readSet := t.readSet, reads := t.reads, status := t.status }

/-- `commit` is called again: it finds the transaction pending, or it returns. -/
def calledAgain (t : Transaction) : Transaction :=
  let fresh := { t with commitTs := none, groups := [], viaCommit := true }
  if t.status = .pending then { fresh with phase := .active, returned := none }
  else { fresh with phase := .closed, returned := some (false, none) }

end Transaction

/-- The system, and the transaction each entry of `txns` is a call of. -/
structure Recalled where
  system : System
  owner : ℕ → ℕ := id

namespace Recalled

inductive Event where
  | step (e : Txn.Event)
  | again (i : ℕ)

/-- The entry of `txns` that an event may change. -/
def touched (S : System) (e : Txn.Event) : Option ℕ :=
  match e.subject with
  | .txn i => some i
  | .cleanup n => S.cleanups[n]?.map (·.txn)
  | _ => none

/-- The other calls of the transaction see what its call `i` has left. -/
def shared (owner : ℕ → ℕ) (S : System) (i : ℕ) : System :=
  match S.txns[i]? with
  | some t => { S with
      txns := S.txns.mapIdx fun n call => if owner n = owner i then t.shareWith call else call }
  | none => S

/-- One step of one thread, or one more call. -/
def step (cfg : Config) (R : Recalled) : Event → Option Recalled
  | .step e => (R.system.step cfg e).map fun S =>
    { R with system := ((touched R.system e).map (shared R.owner S)).getD S }
  | .again i => R.system.txns[i]?.map fun t =>
    { system := { R.system with txns := R.system.txns ++ [t.calledAgain] }
      owner := Function.update R.owner R.system.txns.length (R.owner i) }

/-- The state after the events, or `none` when one of them was not possible. -/
abbrev run (cfg : Config) : Recalled → List Event → Option Recalled := Transition.run (step cfg)

/-- Every step of the run meets `P`. -/
abbrev Along (cfg : Config) (P : Recalled → Event → Prop) : Recalled → List Event → Prop :=
  Transition.Along (step cfg) P

/-- A step of a thread meets `P`, and a further call `again`. -/
def Meets (P : System → Txn.Event → Prop) (again : Prop) (R : Recalled) : Event → Prop
  | .step e => P R.system e
  | .again _ => again

instance Meets.decidable (P : System → Txn.Event → Prop) [∀ S e, Decidable (P S e)] (again : Prop)
    [Decidable again] (R : Recalled) : (e : Event) → Decidable (Meets P again R e)
  | .step e => inferInstanceAs (Decidable (P R.system e))
  | .again _ => inferInstanceAs (Decidable again)

/-- No transaction is called again. -/
abbrev Once (P : System → Txn.Event → Prop) : Recalled → Event → Prop := Meets P False

def init (cfg : Config) : Recalled := { system := .init cfg }

variable {cfg : Config} {R R' : Recalled} {e : Txn.Event} {es : List Event}

/-- A transaction with one call shares with nobody. -/
theorem shared_id (S : System) (i : ℕ) : shared id S i = S := by
  unfold shared
  split
  next t ht =>
    have hsame : S.txns.mapIdx (fun n call => if id n = id i then t.shareWith call else call) =
        S.txns := by
      refine List.ext_getElem? fun n => ?_
      rw [List.getElem?_mapIdx]
      rcases hn : S.txns[n]? with _ | call
      · rfl
      · simp only [id_eq, Option.map_some, Option.some.injEq]
        split
        next h =>
          subst h
          cases hn.symm.trans ht
          rfl
        · rfl
    rw [hsame]
  · rfl

theorem step_of_once (hid : R.owner = id) (h : step cfg R (.step e) = some R') :
    R.system.step cfg e = some R'.system ∧ R'.owner = id := by
  obtain ⟨S, hS, rfl⟩ := Option.map_eq_some_iff.1 h
  refine ⟨?_, hid⟩
  rw [hS, hid]
  cases touched R.system e with
  | none => rfl
  | some i => exact congrArg some (shared_id S i).symm

/-- **Where every transaction is called once, the run is one of the system**, and keeps what its
steps keep. -/
theorem invariant {P : System → Txn.Event → Prop} {I : System → Prop}
    (hstep : ∀ S e S', P S e → I S → S.step cfg e = some S' → I S') (hI : I (.init cfg))
    (h : Along cfg (Once P) (init cfg) es) (hrun : run cfg (init cfg) es = some R) :
    I R.system := by
  refine (h.invariant (I := fun R => R.owner = id ∧ I R.system) ?_ ⟨rfl, hI⟩ hrun).2
  rintro R (e | i) R' hP ⟨hid, hI⟩ hR'
  · obtain ⟨hS, hid'⟩ := step_of_once hid hR'
    exact ⟨hid', hstep _ _ _ hP hI hS⟩
  · exact hP.elim

end Recalled
end OxideDB.Txn
