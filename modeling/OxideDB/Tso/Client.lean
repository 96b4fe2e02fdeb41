import Mathlib.Logic.Function.Basic
import OxideDB.Allotment

/-!
# Runs of timestamps

`tso/tso.py`: the timestamp group is a replicated counter that hands out runs of numbers, and
a client takes a run and hands its numbers out one at a time.  The two ends of a run come
back inclusive and are kept half-open.
-/

namespace OxideDB.Tso

open Function

/-- The counter. -/
structure TSOSMStateMachine where
  currentTs : ℕ := 0
  deriving DecidableEq, Repr

/-- A run, both ends inclusive. -/
structure Batch where
  startTs : ℕ
  endTs : ℕ
  deriving DecidableEq, Repr

/-- `_apply_allocate`. -/
def TSOSMStateMachine.applyAllocate (m : TSOSMStateMachine) (batchSize : ℕ) :
    TSOSMStateMachine × Batch :=
  let startTs := m.currentTs + 1
  let endTs := m.currentTs + batchSize
  (⟨endTs⟩, ⟨startTs, endTs⟩)

/-- What `TSOClient` and `RemoteTSOClient` keep. -/
structure TSOClient where
  batchSize : ℕ
  localStart : ℕ := 0
  localEnd : ℕ := 0
  deriving DecidableEq, Repr

namespace TSOClient

variable (client : TSOClient)

/-- The test of `get_timestamp`: the run is used up. -/
def exhausted : Bool := client.localEnd ≤ client.localStart

/-- `_fetch_batch`, once the group has answered: the run as a half-open range. -/
def fetched (batch : Batch) : TSOClient :=
  { client with localStart := batch.startTs, localEnd := batch.endTs + 1 }

/-- The rest of `get_timestamp`: the next number. -/
def take : ℕ × TSOClient :=
  (client.localStart, { client with localStart := client.localStart + 1 })

/-- `get_timestamp` against a group that answers at once. -/
def getTimestamp (group : TSOSMStateMachine) : ℕ × TSOClient × TSOSMStateMachine :=
  if client.exhausted then
    let (group', batch) := group.applyAllocate client.batchSize
    let (timestamp, client') := (client.fetched batch).take
    (timestamp, client', group')
  else
    let (timestamp, client') := client.take
    (timestamp, client', group)

/-- The numbers a client may still hand out without asking. -/
def Holds (t : ℕ) : Prop := client.localStart ≤ t ∧ t < client.localEnd

variable {client}

@[simp] theorem getTimestamp_batchSize (group : TSOSMStateMachine) :
    (client.getTimestamp group).2.1.batchSize = client.batchSize := by
  unfold getTimestamp
  split <;> rfl

/-- The rest of a run after its first number. -/
theorem holds_take {n : ℕ} (h : client.take.2.Holds n) :
    client.Holds n ∧ client.localStart < n :=
  ⟨⟨(Nat.le_succ _).trans h.1, h.2⟩, h.1⟩

variable {group : TSOSMStateMachine}

theorem holds_fetched {n : ℕ} :
    (client.fetched (group.applyAllocate client.batchSize).2).Holds n ↔
      group.currentTs < n ∧ n ≤ group.currentTs + client.batchSize := by
  simp only [Holds, fetched, TSOSMStateMachine.applyAllocate]
  omega

variable {clocks : ℕ → TSOClient} {used : ℕ → ℕ → Prop}

/-- A client that gets the next run of the counter. -/
theorem fetched_allotment (h : Allotment group.currentTs (fun c => (clocks c).Holds) used) (c : ℕ) :
    Allotment (group.currentTs + (clocks c).batchSize)
      (fun c' => (update clocks c
        ((clocks c).fetched (group.applyAllocate (clocks c).batchSize).2) c').Holds) used := by
  refine h.refill _ (fun c' n hn => ?_) fun c₁ c₂ n hlt h₁ h₂ => ?_
  · by_cases hc : c' = c
    · subst hc
      rw [update_self] at hn
      exact .inr (holds_fetched.1 hn)
    · rw [update_of_ne hc] at hn
      exact .inl hn
  · have hown : ∀ c', (update clocks c
        ((clocks c).fetched (group.applyAllocate (clocks c).batchSize).2) c').Holds n →
        c' = c := by
      intro c' hn
      by_contra hc
      rw [update_of_ne hc] at hn
      exact absurd (h.held_le hn) (not_le.2 hlt)
    rw [hown c₁ h₁, hown c₂ h₂]

/-- The next number of a run is the lowest of what the client holds. -/
theorem take_allotment {top : ℕ} {c : ℕ} (h : Allotment top (fun c => (clocks c).Holds) used)
    (hn : (clocks c).Holds (clocks c).localStart) :
    Allotment top (fun c' => (update clocks c (clocks c).take.2 c').Holds)
        (fun c' n => used c' n ∨ c' = c ∧ n = (clocks c).localStart) ∧
      (∀ c', ¬ used c' (clocks c).localStart) ∧ 1 ≤ (clocks c).localStart ∧
      ∀ n, used c n → n < (clocks c).localStart := by
  refine ⟨h.take hn fun c' m hm => ?_, fun c' => h.fresh hn, h.held_pos hn,
    fun n hu => h.above hu hn⟩
  by_cases hc : c' = c
  · subst hc
    rw [update_self] at hm
    exact ⟨(holds_take hm).1, fun _ => (holds_take hm).2⟩
  · rw [update_of_ne hc] at hm
    exact ⟨hm, fun heq => absurd heq hc⟩

theorem getTimestamp_exhausted (h : client.exhausted = true) :
    client.getTimestamp group =
      ((client.fetched (group.applyAllocate client.batchSize).2).take.1,
        (client.fetched (group.applyAllocate client.batchSize).2).take.2,
        (group.applyAllocate client.batchSize).1) := by
  simp only [getTimestamp, h, if_true]

theorem getTimestamp_cached (h : client.exhausted = false) :
    client.getTimestamp group = (client.take.1, client.take.2, group) := by
  simp only [getTimestamp, h, if_false, Bool.false_eq_true]

/-- **A number that is handed out is new**, at least one, and above every number the client
has handed out before. -/
theorem getTimestamp_allotment {c : ℕ} (hbatch : 1 ≤ (clocks c).batchSize)
    (h : Allotment group.currentTs (fun c => (clocks c).Holds) used) :
    let drawn := (clocks c).getTimestamp group
    Allotment drawn.2.2.currentTs (fun c' => (update clocks c drawn.2.1 c').Holds)
        (fun c' n => used c' n ∨ c' = c ∧ n = drawn.1) ∧
      (∀ c', ¬ used c' drawn.1) ∧ 1 ≤ drawn.1 ∧ ∀ n, used c n → n < drawn.1 := by
  intro drawn
  cases hex : (clocks c).exhausted with
  | true =>
    -- a new run is fetched first
    have hnew := take_allotment (c := c) (fetched_allotment h c) (by
      rw [update_self]
      refine ⟨le_rfl, ?_⟩
      simp only [fetched, TSOSMStateMachine.applyAllocate]
      omega)
    simp only [update_self, update_idem] at hnew
    simp only [drawn, getTimestamp_exhausted hex]
    exact hnew
  | false =>
    simp only [drawn, getTimestamp_cached hex]
    refine take_allotment h ⟨le_rfl, ?_⟩
    simpa [exhausted] using hex

/-! ## Many clients -/

/-- What can happen to client `c`. -/
inductive Ask where
  | get (c : ℕ)
  /-- A run is allocated, and the answer is lost: `_fetch_batch` raises. -/
  | lost (c : ℕ)
  /-- The process of the client is started again. -/
  | restart (c : ℕ)
  deriving DecidableEq

/-- Who was given which number. -/
def serve (clocks : ℕ → TSOClient) (group : TSOSMStateMachine) : List Ask → List (ℕ × ℕ)
  | [] => []
  | .get c :: asks =>
    let drawn := (clocks c).getTimestamp group
    (c, drawn.1) :: serve (update clocks c drawn.2.1) drawn.2.2 asks
  | .lost c :: asks => serve clocks (group.applyAllocate (clocks c).batchSize).1 asks
  | .restart c :: asks => serve (update clocks c { batchSize := (clocks c).batchSize }) group asks

theorem serve_allotment (asks : List Ask) (hbatch : ∀ c, 1 ≤ (clocks c).batchSize)
    (h : Allotment group.currentTs (fun c => (clocks c).Holds) used) :
    (∀ x ∈ serve clocks group asks, (∀ c, ¬ used c x.2) ∧ ∀ n, used x.1 n → n < x.2) ∧
      (serve clocks group asks).Pairwise fun x y => x.2 ≠ y.2 ∧ (x.1 = y.1 → x.2 < y.2) := by
  induction asks generalizing clocks group used with
  | nil => exact ⟨nofun, .nil⟩
  | cons ask asks ih =>
    have hkeep : ∀ {c : ℕ} {client : TSOClient}, client.batchSize = (clocks c).batchSize →
        ∀ c', 1 ≤ (update clocks c client c').batchSize := fun {c _} heq =>
      (forall_update_iff clocks fun _ client => 1 ≤ client.batchSize).2
        ⟨heq ▸ hbatch c, fun c' _ => hbatch c'⟩
    cases ask with
    | get c =>
      obtain ⟨hallot, hnew, -, habove⟩ := getTimestamp_allotment (hbatch c) h
      obtain ⟨hrest, hpair⟩ := ih (hkeep (getTimestamp_batchSize group)) hallot
      refine ⟨fun x hx => ?_, .cons (fun y hy => ⟨fun heq => ?_, fun heq => ?_⟩) hpair⟩
      · rcases List.mem_cons.1 hx with rfl | hx
        · exact ⟨hnew, habove⟩
        · exact ⟨fun c' hu => (hrest x hx).1 c' (.inl hu), fun n hu => (hrest x hx).2 n (.inl hu)⟩
      · exact (hrest y hy).1 c (.inr ⟨rfl, heq.symm⟩)
      · exact (hrest y hy).2 _ (.inr ⟨heq.symm, rfl⟩)
    | lost c =>
      exact ih hbatch (h.refill _ (fun _ _ => .inl) fun _ _ _ _ hn hn' => h.held_one hn hn')
    | restart c =>
      refine ih (hkeep rfl) (h.mono (fun c' n hn => ?_) fun _ _ hu => hu)
      by_cases hc : c' = c
      · rw [hc, update_self] at hn
        exact absurd hn.2 (Nat.not_lt_zero n)
      · rwa [update_of_ne hc] at hn

/-- **No number is given twice**, and each client's numbers go up, in whatever order the clients
ask, whichever answers are lost and whoever is started again. -/
theorem timestamps_given_once (batch : ℕ → ℕ) (hbatch : ∀ c, 1 ≤ batch c)
    (group : TSOSMStateMachine) (asks : List Ask) :
    let given := serve (fun c => { batchSize := batch c }) group asks
    (given.map Prod.snd).Nodup ∧ given.Pairwise fun x y => x.1 = y.1 → x.2 < y.2 := by
  have hnone : Allotment group.currentTs (fun c => Holds { batchSize := batch c })
      fun _ _ => False :=
    (Allotment.nothing _).mono (fun _ n hn => Nat.not_lt_zero n hn.2) fun _ _ hu => hu
  obtain ⟨-, h⟩ := serve_allotment asks hbatch hnone
  exact ⟨List.pairwise_map.2 (h.imp And.left), h.imp And.right⟩

theorem timestamps_given_once_restarted :
    serve (fun _ => { batchSize := 2 }) {} [.get 0, .get 1, .lost 1, .restart 0, .get 0, .get 1] =
      [(0, 1), (1, 3), (0, 7), (1, 4)] ∧ [1, 3, 7, 4].Nodup :=
  ⟨by decide, (timestamps_given_once (fun _ => 2) (fun _ => by decide) {}
    [.get 0, .get 1, .lost 1, .restart 0, .get 0, .get 1]).1⟩

end TSOClient

end OxideDB.Tso
