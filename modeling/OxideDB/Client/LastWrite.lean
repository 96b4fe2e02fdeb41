import OxideDB.Client.Proposals
import OxideDB.Storage.OneWrite

/-!
# The last write of a transaction

A transaction that writes keys nobody else names, in a cluster in which everything answers.  Each
key goes through the three states of `OneWrite`: the prewrite threads take it, in whatever order,
the primary's `COMMIT` stores the primary key, and the executor the others.  Two writes of one key
in one transaction do not get that far, since the second `PREWRITE` meets the lock of the first.
-/

namespace OxideDB.Client

open Raft (Bytes)
open Storage MVCCStateMachine
open Txn (Groups addToGroup)
open Program List Function

variable {k : Bytes} {s : SecondaryCommit} {id : ℕ}

/-! ## A calm cluster -/

/-- The command names none of the keys. -/
def Avoids (K : Set Bytes) (cmd : Command) : Prop := ∀ k ∈ K, cmd.key ≠ some k

/-- A call in which everything answers, and around which nobody else names the keys. -/
structure Calm (place : Bytes → ℕ) (K : Set Bytes) (m : Moment) : Prop where
  raised : m.raised = none
  shard (k : Bytes) : m.shard k = some (place k)
  leader : m.leader = true
  timestamp : ValidTs m.timestamp
  copies : m.copies = 0
  heard : ∃ now, m.heard = .answer now
  others {shard : ℕ} {now : Time} {cmd : Command}
    (h : .command shard now cmd ∈ m.before ++ m.during) : Avoids K cmd

/-- No entry that is still to be applied names the keys. -/
def World.Idle (K : Set Bytes) (w : World) : Prop :=
  ∀ p ∈ w.proposals, 0 < p.waiting → Avoids K p.command

/-- All that is to come is calm. -/
structure Peaceful (place : Bytes → ℕ) (K : Set Bytes) (c : Client) : Prop where
  calm {n : ℕ} (h : c.calls ≤ n) : Calm place K (c.moments n)
  idle : c.world.Idle K

variable {place : Bytes → ℕ} {K U U' : Set Bytes} {w w' : World} {c c' c'' : Client}

/-- The keys are what they were in every shard. -/
def World.Spares (K : Set Bytes) (w w' : World) : Prop :=
  ∀ k ∈ K, ∀ n, Alike k (w.shards n) (w'.shards n)

theorem World.Spares.trans {w'' : World} (h : w.Spares K w') (h' : w'.Spares K w'') :
    w.Spares K w'' := fun k hk n => (h k hk n).trans (h' k hk n)

/-- A command that avoids the keys leaves their rows. -/
theorem World.spares_apply (w : World) {shard : ℕ} {now : Time} {cmd : Command}
    (h : Avoids K cmd) : w.Spares K (w.apply shard now cmd).2 := by
  intro k hk n
  by_cases hn : n = shard
  · subst hn
    simp only [World.apply, update_self]
    exact alike_apply now _ (h k hk)
  · simp only [World.apply, update_of_ne hn]
    exact .refl k _

/-- So does what happens elsewhere, if its commands avoid them. -/
theorem World.spares_happen (hw : w.Idle K) {h : Happening}
    (hother : ∀ shard now cmd, h = .command shard now cmd → Avoids K cmd) :
    (w.happen h).Idle K ∧ w.Spares K (w.happen h) := by
  cases h with
  | command shard now cmd => exact ⟨hw, w.spares_apply (hother shard now cmd rfl)⟩
  | entry j now =>
    simp only [World.happen]
    split
    · next p hp =>
      split
      · next hwaiting =>
        have havoids := hw p (mem_of_getElem? hp) hwaiting
        refine ⟨fun q hq hwait => ?_, w.spares_apply havoids⟩
        rcases mem_or_eq_of_mem_set hq with hq | rfl
        · exact hw q hq hwait
        · exact havoids
      · exact ⟨hw, fun k _ n => .refl k _⟩
    · exact ⟨hw, fun k _ n => .refl k _⟩

theorem World.spares_happenAll (hw : w.Idle K) {happenings : List Happening}
    (hother : ∀ shard now cmd, .command shard now cmd ∈ happenings → Avoids K cmd) :
    (w.happenAll happenings).Idle K ∧ w.Spares K (w.happenAll happenings) := by
  induction happenings generalizing w with
  | nil => exact ⟨hw, fun k _ n => .refl k _⟩
  | cons h happenings ih =>
    obtain ⟨hidle, hspares⟩ := World.spares_happen hw (h := h) fun shard now cmd heq =>
      hother shard now cmd (heq ▸ mem_cons_self)
    obtain ⟨hidle', hspares'⟩ := ih hidle fun shard now cmd hmem =>
      hother shard now cmd (mem_cons_of_mem _ hmem)
    exact ⟨hidle', hspares.trans hspares'⟩

/-! ## What a step leaves -/

/-- The client has gone on with its calls; the keys, but for those of `U`, are what they were. -/
structure Touches (K U : Set Bytes) (c c' : Client) : Prop where
  moments : c'.moments = c.moments
  executor : c'.executor = c.executor
  calls : c.calls ≤ c'.calls
  idle : c'.world.Idle K
  rows {k : Bytes} (hk : k ∈ K) (hU : k ∉ U) (n : ℕ) :
    Alike k (c.world.shards n) (c'.world.shards n)

/-- It stays peaceful. -/
theorem Peaceful.of_touches (hc : Peaceful place K c) (h : Touches K U c c') :
    Peaceful place K c' where
  calm hn := by
    rw [h.moments]
    exact hc.calm (h.calls.trans hn)
  idle := h.idle

theorem Touches.trans (h : Touches K U c c') (h' : Touches K U c' c'') : Touches K U c c'' where
  moments := h'.moments.trans h.moments
  executor := h'.executor.trans h.executor
  calls := h.calls.trans h'.calls
  idle := h'.idle
  rows hk hU n := (h.rows hk hU n).trans (h'.rows hk hU n)

theorem Touches.mono (h : Touches K U c c') (hU : U ⊆ U') : Touches K U' c c' where
  moments := h.moments
  executor := h.executor
  calls := h.calls
  idle := h.idle
  rows hk hU' n := h.rows hk (fun hmem => hU' (hU hmem)) n

theorem Peaceful.touches_of_eq (hc : Peaceful place K c) (hworld : c'.world = c.world)
    (hcalls : c'.calls = c.calls) (hmoments : c'.moments = c.moments)
    (hexecutor : c'.executor = c.executor) : Touches K U c c' where
  moments := hmoments
  executor := hexecutor
  calls := hcalls.ge
  idle := hworld ▸ hc.idle
  rows _ _ n := by
    rw [hworld]
    exact .refl _ _

theorem Peaceful.moment (hc : Peaceful place K c) : Calm place K c.moment := hc.calm le_rfl

theorem Peaceful.advance (hc : Peaceful place K c) : Touches K U c c.advance := by
  obtain ⟨hidle, hspares⟩ := World.spares_happenAll hc.idle fun shard now cmd h =>
    hc.moment.others (mem_append_left _ h)
  exact ⟨rfl, rfl, Nat.le_succ _, hidle, fun hk _ n => hspares _ hk n⟩

/-- What is asked of the moment is answered calmly. -/
theorem returns_ask {A : Type} (U : Set Bytes) (hc : Peaceful place K c) (f : Moment → A) :
    (ask f).Returns c fun a c' => (∃ m, Calm place K m ∧ a = f m) ∧ Touches K U c c' := by
  refine Returns.bind (R := fun m c' => Calm place K m ∧ Touches K U c c')
    ⟨c.moment, c.advance, rfl, hc.moment, hc.advance⟩ ?_
  rintro m c' ⟨hm, htouches⟩
  rw [hm.raised]
  exact .pure ⟨⟨m, hm, rfl⟩, htouches⟩

/-- The proposal that has just been posted, and the keys meanwhile. -/
theorem Peaceful.posted (hc : Peaceful place K c) (id shard : ℕ) (cmd : Command) {m : Moment}
    (hm : Calm place K m) :
    (∃ p, (c.posted id shard cmd m).world.proposals[c.world.proposals.length]? = some p ∧
      p.shard = shard ∧ p.command = cmd) ∧ Touches K U c (c.posted id shard cmd m) := by
  set p : Proposal := { txn := id, shard := shard, command := cmd, waiting := m.copies } with hp
  have hidle : World.Idle K { c.world with proposals := c.world.proposals ++ [p] } := by
    intro q hq hwait
    rcases mem_append.1 hq with hq | hq
    · exact hc.idle q hq hwait
    · obtain rfl := mem_singleton.1 hq
      rw [hp, hm.copies] at hwait
      cases hwait
  obtain ⟨hidle', hspares⟩ := World.spares_happenAll hidle fun shard now cmd h =>
    hm.others (mem_append_right _ h)
  have hgrows : World.Grows (fun _ _ => True)
      { c.world with proposals := c.world.proposals ++ [p] } (c.posted id shard cmd m).world :=
    .happenAll _
  obtain ⟨q, hq, -, hshard, hcmd, -⟩ := hgrows.kept getElem?_concat_length
  exact ⟨⟨q, hq, hshard, hcmd⟩, rfl, rfl, le_rfl, hidle', fun hk _ n => hspares _ hk n⟩

/-- A proposal is applied to a machine that has not changed at the keys since, and answered. -/
theorem returns_proposeTo (hc : Peaceful place K c) {shard : ℕ} {cmd : Command}
    (hkey : cmd.key = some k) :
    (proposeTo id shard cmd).Returns c fun a c' => Touches K {k} c c' ∧ ∃ now m,
      (∀ k ∈ K, Alike k (c.world.shards shard) m) ∧ a = some (apply now m cmd).2 ∧
        c'.world.shards shard = (apply now m cmd).1 := by
  obtain ⟨now, hheard⟩ := hc.moment.heard
  have hadvance : Touches K ∅ c c.advance := hc.advance
  obtain ⟨⟨p, hp, rfl, rfl⟩, hposted⟩ := (hc.of_touches hadvance).posted id shard cmd hc.moment
  have htouches := hadvance.trans hposted
  set c₁ := c.advance.posted id p.shard p.command c.moment with hc₁
  have hspared : ∀ k ∈ K, Alike k (c.world.shards p.shard) (c₁.world.shards p.shard) := fun _ hk =>
    htouches.rows hk (Set.notMem_empty _) _
  refine ⟨_, { c₁ with world := (c₁.world.execute c.advance.world.proposals.length now p).2 }, ?_,
    ⟨htouches.moments, htouches.executor, htouches.calls, ?_, fun {k'} hk hU n => ?_⟩,
    now, c₁.world.shards p.shard, hspared, rfl, update_self ..⟩
  · simp only [proposeTo, Bind.bind, next, post, hheard, answered, ← hc₁, hp]
    rfl
  · intro q hq hwait
    rcases mem_or_eq_of_mem_set hq with hq | rfl
    · exact htouches.idle q hq hwait
    · exact htouches.idle p (mem_of_getElem? hp) hwait
  · have hne : p.command.key ≠ some k' := fun h => hU (Option.some.inj (h.symm.trans hkey))
    refine (htouches.rows hk (Set.notMem_empty _) n).trans ?_
    exact @World.spares_apply {k'} c₁.world _ _ _ (fun _ h => h ▸ hne) k' rfl n

section Key

variable {id shard : ℕ} {k v p : Bytes} {startTs commitTs : ℤ}

variable (hc : Peaceful place K c) (hK : k ∈ K)
include hc hK

/-- The prewrite of a key that nobody has touched locks it. -/
theorem returns_prewrite (hk : ValidKey k) (hs : ValidTs startTs)
    (h : Untouched (c.world.shards shard) k) :
    (proposeTo id shard (.prewrite k v startTs p)).Returns c fun a c' => a = some .ok ∧
      Touches K {k} c c' ∧ Intended (c'.world.shards shard) k startTs v := by
  refine (returns_proposeTo hc rfl).mono ?_
  rintro a c' ⟨htouches, now, m, hm, rfl, hshard⟩
  obtain ⟨hok, hintended⟩ := (h.alike (hm k hK)).prewrite hk hs
  exact ⟨congrArg some hok, htouches, hshard ▸ hintended⟩

/-- A second prewrite of the key is refused. -/
theorem returns_prewrite_held {v' : Bytes} (h : Intended (c.world.shards shard) k startTs v') :
    (proposeTo id shard (.prewrite k v startTs p)).Returns c fun a c' =>
      (∃ result, a = some result ∧ result.success = false) ∧ Touches K {k} c c' ∧
        Intended (c'.world.shards shard) k startTs v' := by
  refine (returns_proposeTo hc rfl).mono ?_
  rintro a c' ⟨htouches, now, m, hm, rfl, hshard⟩
  have hintended := h.alike (hm k hK)
  obtain ⟨hrefused, hsame⟩ := hintended.prewrite now v startTs p
  exact ⟨⟨_, rfl, hrefused⟩, htouches, hshard ▸ hsame.symm ▸ hintended⟩

/-- The commit of a key that is locked for it. -/
theorem returns_commitKey (hct : ValidTs commitTs)
    (h : Intended (c.world.shards shard) k startTs v) :
    (commitKey id shard k startTs commitTs).Returns c fun a c' => a = some .ok ∧
      Touches K {k} c c' ∧ Stored (c'.world.shards shard) k v commitTs := by
  refine (returns_proposeTo hc rfl).mono ?_
  rintro a c' ⟨htouches, now, m, hm, rfl, hshard⟩
  obtain ⟨hok, hstored⟩ := (h.alike (hm k hK)).commit hct
  exact ⟨congrArg some hok, htouches, hshard ▸ hstored⟩

/-- A commit that is asked for again changes nothing. -/
theorem returns_commitKey_again (hk : ValidKey k) (hs : ValidTs startTs)
    (h : Stored (c.world.shards shard) k v commitTs) :
    (commitKey id shard k startTs commitTs).Returns c fun _ c' =>
      Touches K {k} c c' ∧ Stored (c'.world.shards shard) k v commitTs := by
  refine (returns_proposeTo hc rfl).mono ?_
  rintro a c' ⟨htouches, now, m, hm, rfl, hshard⟩
  have hstored := h.alike (hm k hK)
  exact ⟨htouches, by rw [hshard, hstored.commit hk hs]; exact hstored⟩

end Key

/-! ## The keys by shard -/

/-- The rows, each in the group of its shard. -/
structure Grouping (place : Bytes → ℕ) (rows : List (Bytes × Bytes)) (groups : Groups) : Prop where
  placed {g : ℕ × List (Bytes × Bytes)} (hg : g ∈ groups) {row : Bytes × Bytes} (hrow : row ∈ g.2) :
    place row.1 = g.1
  perm : (groups.flatMap Prod.snd).Perm rows

/-- One row is added, and none is lost. -/
theorem addToGroup_perm (shard : ℕ) (row : Bytes × Bytes) (groups : Groups) :
    ((addToGroup shard row groups).flatMap Prod.snd).Perm (groups.flatMap Prod.snd ++ [row]) := by
  induction groups with
  | nil => exact .refl _
  | cons g groups ih =>
    simp only [addToGroup]
    split
    · simp only [flatMap_cons, append_assoc]
      exact perm_append_comm.append_left g.2
    · simp only [flatMap_cons, append_assoc]
      exact ih.append_left g.2

variable {row : Bytes × Bytes} {groups : Groups}

/-- It goes to the group of its shard. -/
theorem addToGroup_placed (h : ∀ g ∈ groups, ∀ row ∈ g.2, place row.1 = g.1) :
    ∀ g ∈ addToGroup (place row.1) row groups, ∀ row ∈ g.2, place row.1 = g.1 := by
  induction groups with
  | nil =>
    intro g hg row' hrow
    obtain rfl := mem_singleton.1 hg
    rw [mem_singleton.1 hrow]
  | cons g₀ groups ih =>
    intro g hg row' hrow
    have hrest := fun g hg => h g (mem_cons_of_mem g₀ hg)
    simp only [addToGroup] at hg
    split at hg
    · next heq =>
      rcases mem_cons.1 hg with rfl | hg
      · rcases mem_append.1 hrow with hrow | hrow
        · exact h g₀ mem_cons_self row' hrow
        · rw [mem_singleton.1 hrow, heq]
      · exact hrest g hg row' hrow
    · rcases mem_cons.1 hg with rfl | hg
      · exact h _ mem_cons_self row' hrow
      · exact ih hrest g hg row' hrow

theorem grouping_nil : Grouping place [] [] where
  placed hg := by cases hg
  perm := .refl _

theorem Grouping.add {rows : List (Bytes × Bytes)} (h : Grouping place rows groups)
    (row : Bytes × Bytes) :
    Grouping place (rows ++ [row]) (addToGroup (place row.1) row groups) where
  placed hg _ hrow := addToGroup_placed (fun _ hg _ hrow => h.placed hg hrow) _ hg _ hrow
  perm := (addToGroup_perm ..).trans (h.perm.append_right [row])

section

variable (U : Set Bytes) (hc : Peaceful place K c)
include hc

theorem returns_getShardId (key : Bytes) :
    (getShardId key).Returns c fun shard c' => shard = place key ∧ Touches K U c c' := by
  refine (returns_ask U hc _).bind ?_
  rintro a c' ⟨⟨m, hm, rfl⟩, htouches⟩
  rw [hm.shard key]
  exact .pure ⟨rfl, htouches⟩

/-- The keys are grouped by the shards they are placed in. -/
theorem returns_groupKeysByShard {rows done : List (Bytes × Bytes)}
    (h : Grouping place done groups) :
    (groupKeysByShard rows groups).Returns c fun groups c' =>
      Grouping place (done ++ rows) groups ∧ Touches K U c c' := by
  induction rows generalizing c done groups with
  | nil =>
    rw [append_nil]
    exact .pure ⟨h, hc.touches_of_eq rfl rfl rfl rfl⟩
  | cons row rows ih =>
    refine (returns_getShardId U hc row.1).bind ?_
    rintro shard c' ⟨rfl, htouches⟩
    refine (ih (hc.of_touches htouches) (h.add row)).mono ?_
    rintro groups' c'' ⟨hgroups, htouches'⟩
    rw [append_assoc] at hgroups
    exact ⟨hgroups, htouches.trans htouches'⟩

theorem returns_getShardLeader (shard : ℕ) :
    (getShardLeader shard).Returns c fun leader c' => leader = true ∧ Touches K U c c' := by
  refine (returns_ask U hc _).mono ?_
  rintro a c' ⟨⟨m, hm, rfl⟩, htouches⟩
  exact ⟨hm.leader, htouches⟩

theorem returns_allLeaders (groups : Groups) :
    (allLeaders groups).Returns c fun leaders c' => leaders = true ∧ Touches K U c c' := by
  induction groups generalizing c with
  | nil => exact .pure ⟨rfl, hc.touches_of_eq rfl rfl rfl rfl⟩
  | cons g groups ih =>
    refine (returns_getShardLeader U hc g.1).bind ?_
    rintro leader c' ⟨rfl, htouches⟩
    refine (ih (hc.of_touches htouches)).mono ?_
    rintro leaders c'' ⟨hleaders, htouches'⟩
    exact ⟨hleaders, htouches.trans htouches'⟩

end

/-! ## The prewrite threads -/

/-- The rows that threads have not got through. -/
def remaining (running : Groups) : List (Bytes × Bytes) := running.flatMap Prod.snd

section

variable {A B : Groups} {shard : ℕ}
variable {rows : List (Bytes × Bytes)}

theorem threadSteps_cons :
    threadSteps (A ++ (shard, row :: rows) :: B) = threadSteps (A ++ (shard, rows) :: B) + 1 := by
  simp only [threadSteps, map_append, map_cons, sum_append, sum_cons,
    length_cons]
  omega

theorem threadSteps_nil : threadSteps (A ++ (shard, []) :: B) = threadSteps (A ++ B) + 1 := by
  simp only [threadSteps, map_append, map_cons, sum_append, sum_cons,
    length_nil]
  omega

/-- The row a thread is at is one that remains. -/
theorem remaining_cons_perm :
    (remaining (A ++ (shard, row :: rows) :: B)).Perm
      (row :: remaining (A ++ (shard, rows) :: B)) := by
  simp only [remaining, flatMap_append, flatMap_cons, cons_append]
  exact perm_middle

end

/-- The keys of the rows. -/
def keySet (rows : List (Bytes × Bytes)) : Set Bytes := {k | k ∈ rows.map Prod.fst}

theorem mem_keySet {rows : List (Bytes × Bytes)} (h : row ∈ rows) :
    row.1 ∈ keySet rows := mem_map_of_mem h

/-- Keys that a transaction can be the first to write. -/
def Ready (place : Bytes → ℕ) (K : Set Bytes) (c : Client) (rows : List (Bytes × Bytes)) : Prop :=
  ∀ row ∈ rows, row.1 ∈ K ∧ ValidKey row.1 ∧ Untouched (c.world.shards (place row.1)) row.1

/-- Keys that a transaction holds. -/
def Held (place : Bytes → ℕ) (c : Client) (rows : List (Bytes × Bytes)) (startTs : ℤ) : Prop :=
  ∀ row ∈ rows, Intended (c.world.shards (place row.1)) row.1 startTs row.2

/-- Keys that nobody but the transaction has named, which may hold some of them already. -/
def Claimed (place : Bytes → ℕ) (K : Set Bytes) (c : Client) (rows : List (Bytes × Bytes))
    (startTs : ℤ) : Prop :=
  ∀ row ∈ rows, row.1 ∈ K ∧ ValidKey row.1 ∧
    (Untouched (c.world.shards (place row.1)) row.1 ∨
      ∃ v, Intended (c.world.shards (place row.1)) row.1 startTs v)

/-- No two of the rows have one key, and nobody holds any. -/
def Free (place : Bytes → ℕ) (c : Client) (rows : List (Bytes × Bytes)) : Prop :=
  (rows.map Prod.fst).Nodup ∧ ∀ row ∈ rows, Untouched (c.world.shards (place row.1)) row.1

theorem Ready.of_touches {rows : List (Bytes × Bytes)} (h : Ready place K c rows)
    (hc : Touches K ∅ c c') : Ready place K c' rows := fun row hrow => by
  obtain ⟨hK, hk, hfresh⟩ := h row hrow
  exact ⟨hK, hk, hfresh.alike (hc.rows hK (Set.notMem_empty _) _)⟩

theorem Held.of_touches {rows : List (Bytes × Bytes)} {startTs : ℤ} (h : Held place c rows startTs)
    (hK : keySet rows ⊆ K) (hc : Touches K ∅ c c') : Held place c' rows startTs := fun row hrow =>
  (h row hrow).alike (hc.rows (hK (mem_keySet hrow)) (Set.notMem_empty _) _)

/-- The order of the rows does not matter. -/
theorem free_perm {rows rows' : List (Bytes × Bytes)} (h : rows.Perm rows') :
    Free place c rows ↔ Free place c rows' := by
  simp only [Free, (h.map Prod.fst).nodup_iff, h.mem_iff]

section

variable {rows : List (Bytes × Bytes)} {startTs : ℤ}
variable (h : Claimed place K c rows startTs) (hc : Touches K {k} c c')
include h hc

theorem Claimed.of_touches {v : Bytes}
    (hheld : Intended (c'.world.shards (place k)) k startTs v) :
    Claimed place K c' rows startTs := fun row' hmem => by
  obtain ⟨hK, hk, hstate⟩ := h row' hmem
  refine ⟨hK, hk, ?_⟩
  by_cases heq : row'.1 = k
  · rw [heq]
    exact .inr ⟨v, hheld⟩
  · have halike := hc.rows hK heq (place row'.1)
    exact hstate.imp (·.alike halike) fun ⟨v, hv⟩ => ⟨v, hv.alike halike⟩

/-- A row that is taken leaves free what was free, but for a second row of its key. -/
theorem free_cons_iff {v : Bytes} (hfresh : Untouched (c.world.shards (place k)) k)
    (hheld : Intended (c'.world.shards (place k)) k startTs v) :
    Free place c ((k, v) :: rows) ↔ Free place c' rows := by
  have halike : ∀ row' ∈ rows, row'.1 ≠ k →
      Alike row'.1 (c.world.shards (place row'.1)) (c'.world.shards (place row'.1)) :=
    fun row' hmem hne => hc.rows (h row' hmem).1 hne _
  simp only [Free, map_cons, nodup_cons, forall_mem_cons]
  constructor
  · rintro ⟨⟨hnot, hnodup⟩, -, hfree⟩
    refine ⟨hnodup, fun row' hmem => (hfree row' hmem).alike (halike row' hmem fun heq => ?_)⟩
    exact hnot (heq ▸ mem_map_of_mem hmem)
  · rintro ⟨hnodup, hfree⟩
    have hne : ∀ row' ∈ rows, row'.1 ≠ k := fun row' hmem heq => by
      have hfree' := hfree row' hmem
      rw [heq] at hfree'
      exact hheld.not_untouched hfree'
    refine ⟨⟨fun hmem => ?_, hnodup⟩, hfresh, fun row' hmem =>
      (hfree row' hmem).of_alike (halike row' hmem (hne row' hmem))⟩
    obtain ⟨row', hrow', heq⟩ := mem_map.1 hmem
    exact hne row' hrow' heq

end

variable {t : Transaction}

/-- What the prewrite threads come to: all the rows are taken if no key is named twice, and one is
refused if not. -/
structure Prewritten (place : Bytes → ℕ) (K : Set Bytes) (rows : List (Bytes × Bytes)) (startTs : ℤ)
    (c : Client) (ok ok' : Bool) (c' : Client) : Prop where
  touches : Touches K (keySet rows) c c'
  taken : ok' = true ↔ ok = true ∧ Free place c rows
  held (h : ok' = true) : Held place c' rows startTs

variable {rows rows' : List (Bytes × Bytes)} {startTs : ℤ} {ok ok' : Bool}

theorem Prewritten.perm (h : Prewritten place K rows startTs c ok ok' c') (hperm : rows.Perm rows') :
    Prewritten place K rows' startTs c ok ok' c' where
  touches := h.touches.mono fun _ => (hperm.map Prod.fst).mem_iff.1
  taken := h.taken.trans (and_congr_right fun _ => free_perm hperm)
  held hok row hrow := h.held hok row (hperm.mem_iff.2 hrow)

theorem Peaceful.prewritten_nil (hc : Peaceful place K c) :
    Prewritten place K [] startTs c ok ok c where
  touches := hc.touches_of_eq rfl rfl rfl rfl
  taken := by simp [Free]
  held _ := nofun

section

variable {key value : Bytes} {A B : Groups}
variable (htouches : Touches K {key} c c')
include htouches

/-- A row is taken, and then the others. -/
theorem Prewritten.cons (hK : key ∈ K) (hclaimed : Claimed place K c rows startTs)
    (hfresh : Untouched (c.world.shards (place key)) key)
    (hheld : Intended (c'.world.shards (place key)) key startTs value)
    (h : Prewritten place K rows startTs c' ok ok' c'') :
    Prewritten place K ((key, value) :: rows) startTs c ok ok' c'' := by
  have hfree := free_cons_iff hclaimed htouches hfresh hheld
  refine ⟨(htouches.mono ?_).trans (h.touches.mono fun _ => mem_cons_of_mem _),
    h.taken.trans (and_congr_right fun _ => hfree.symm), fun hok row hrow => ?_⟩
  · exact Set.singleton_subset_iff.2 mem_cons_self
  · rcases mem_cons.1 hrow with rfl | hrow
    · have hnodup := (hfree.2 (h.taken.1 hok).2).1
      rw [map_cons, nodup_cons] at hnodup
      exact hheld.alike (h.touches.rows hK hnodup.1 _)
    · exact h.held hok row hrow

/-- A row is refused, and what its thread was to do is left. -/
theorem Prewritten.refused (hsub : rows' ⊆ rows) {v : Bytes}
    (hheld : Intended (c.world.shards (place key)) key startTs v)
    (h : Prewritten place K rows' startTs c' false ok' c'') :
    Prewritten place K ((key, value) :: rows) startTs c ok ok' c'' := by
  have hfalse : ok' ≠ true := fun hok => Bool.false_ne_true (h.taken.1 hok).1
  refine ⟨(htouches.mono ?_).trans (h.touches.mono fun k hk => ?_),
    ⟨fun hok => absurd hok hfalse, fun hfree => ?_⟩, fun hok => absurd hok hfalse⟩
  · exact Set.singleton_subset_iff.2 mem_cons_self
  · obtain ⟨row, hrow, rfl⟩ := mem_map.1 hk
    exact mem_keySet (mem_cons_of_mem _ (hsub hrow))
  · exact absurd (hfree.2.2 _ mem_cons_self) hheld.not_untouched

end

/-- **The prewrite threads**, whatever thread is next. -/
theorem returns_prewriteShards {fuel : ℕ} {running : Groups} (hfuel : threadSteps running ≤ fuel)
    (hc : Peaceful place K c) (hs : ValidTs t.startTs)
    (hplaced : ∀ g ∈ running, ∀ row ∈ g.2, place row.1 = g.1)
    (hclaimed : Claimed place K c (remaining running) t.startTs) :
    (prewriteShards id t fuel running ok).Returns c fun ok' c' =>
      Prewritten place K (remaining running) t.startTs c ok ok' c' := by
  induction fuel generalizing running c ok with
  | zero =>
    obtain rfl : running = [] := by
      cases running with
      | nil => rfl
      | cons g running =>
        simp only [threadSteps, map_cons, sum_cons] at hfuel
        omega
    exact .pure hc.prewritten_nil
  | succ fuel ih =>
    refine Returns.bind (.get (R := fun i c' => i = c.moment.thread % running.length ∧ c' = c)
      ⟨rfl, rfl⟩) ?_
    rintro i c' ⟨rfl, rfl⟩
    split
    · next hnone =>
      obtain rfl : running = [] := by
        by_contra hne
        have hlt := Nat.mod_lt c'.moment.thread (length_pos_of_ne_nil hne)
        exact absurd (getElem?_eq_none_iff.1 hnone) (not_le.2 hlt)
      exact .pure hc.prewritten_nil
    · next shard hsome =>
      obtain ⟨A, B, rfl, -, herase⟩ := split_of_getElem? hsome
      have hrem : remaining (A ++ (shard, []) :: B) = remaining (A ++ B) := by
        simp only [remaining, flatMap_append, flatMap_cons, nil_append]
      rw [herase]
      rw [hrem] at hclaimed ⊢
      rw [threadSteps_nil] at hfuel
      refine ih (by omega) hc (fun g hg => hplaced g ?_) hclaimed
      exact (mem_append.1 hg).elim (mem_append_left _) fun hg =>
        mem_append_right _ (mem_cons_of_mem _ hg)
    · next shard key value rest hsome =>
      obtain ⟨A, B, rfl, hset, herase⟩ := split_of_getElem? hsome
      have hperm := @remaining_cons_perm (key, value) A B shard rest
      obtain rfl : place key = shard :=
        hplaced _ (mem_append_right _ mem_cons_self) (key, value) mem_cons_self
      obtain ⟨hK, hk, hstate⟩ := hclaimed (key, value) (hperm.mem_iff.2 mem_cons_self)
      rw [threadSteps_cons] at hfuel
      set later : Groups := A ++ (place key, rest) :: B with hlater
      have hlast : ∀ row ∈ remaining (A ++ B), row ∈ remaining later := fun row hrow => by
        simp only [hlater, remaining, flatMap_append, flatMap_cons, mem_append] at hrow ⊢
        tauto
      have hclaimed' : Claimed place K c' (remaining later) t.startTs := fun row hrow =>
        hclaimed row (hperm.mem_iff.2 (mem_cons_of_mem _ hrow))
      have hplaced' : ∀ g ∈ later, ∀ row ∈ g.2, place row.1 = g.1 := by
        intro g hg row hrow
        rcases mem_append.1 hg with hg | hg
        · exact hplaced g (mem_append_left _ hg) row hrow
        rcases mem_cons.1 hg with rfl | hg
        · exact hplaced _ (mem_append_right _ mem_cons_self) row
            (mem_cons_of_mem _ hrow)
        · exact hplaced g (mem_append_right _ (mem_cons_of_mem _ hg)) row hrow
      rcases hstate with hfresh | ⟨v, hheld⟩
      · refine (returns_prewrite hc hK hk hs hfresh).attempt.bind ?_
        rintro _ c₁ ⟨_, rfl, rfl, htouches, hheld⟩
        rw [hset]
        refine (ih (by omega) (hc.of_touches htouches) hplaced'
          (hclaimed'.of_touches htouches hheld)).mono ?_
        intro ok' c₂ hrest
        exact (hrest.cons htouches hK hclaimed' hfresh hheld).perm hperm.symm
      · refine (returns_prewrite_held hc hK hheld).attempt.bind ?_
        rintro _ c₁ ⟨_, rfl, ⟨result, rfl, hrefused⟩, htouches, hheld₁⟩
        have hclaimed₁ := hclaimed'.of_touches htouches hheld₁
        show Returns (if result.success then _ else _) _ _
        rw [hrefused, if_neg Bool.false_ne_true, herase]
        have hsteps : threadSteps (A ++ B) ≤ fuel := by
          simp only [hlater, threadSteps, map_append, map_cons, sum_append, sum_cons] at hfuel ⊢
          omega
        refine (ih hsteps (hc.of_touches htouches) (fun g hg => hplaced' g ?_)
          fun row hrow => hclaimed₁ row (hlast row hrow)).mono ?_
        · exact (mem_append.1 hg).elim (mem_append_left _) fun hg =>
            mem_append_right _ (mem_cons_of_mem _ hg)
        intro ok' c₂ hrest
        exact (hrest.refused htouches (fun row => hlast row) hheld).perm hperm.symm

theorem returns_rollbackAllShards (hc : Peaceful place K c) (groups : Groups) :
    (rollbackAllShards id t groups).Returns c fun _ c' => Peaceful place K c' := by
  refine .forM (fun g _ c hc => .forM (fun row _ c hc => ?_) hc) hc
  refine (returns_proposeTo hc rfl).bind ?_
  rintro _ c' ⟨htouches, -⟩
  exact .pure (hc.of_touches htouches)

/-- The prewrites succeed if and only if no key was written twice. -/
theorem returns_prewriteAllShards (hc : Peaceful place K c) (hs : ValidTs t.startTs)
    (hgroups : Grouping place t.keys groups) (hready : Ready place K c t.keys) :
    (prewriteAllShards id t groups).Returns c fun ok c' =>
      (ok = true ↔ (t.keys.map Prod.fst).Nodup) ∧ (ok = true →
        Touches K (keySet t.keys) c c' ∧ Held place c' t.keys t.startTs) := by
  refine (returns_allLeaders ∅ hc groups).bind ?_
  rintro _ c₁ ⟨rfl, htouches⟩
  have hready' := hready.of_touches htouches
  have hclaimed : Claimed place K c₁ (remaining groups) t.startTs := fun row hrow => by
    obtain ⟨hK, hk, hfresh⟩ := hready' row (hgroups.perm.mem_iff.1 hrow)
    exact ⟨hK, hk, .inl hfresh⟩
  refine (returns_prewriteShards le_rfl (hc.of_touches htouches) hs
    (fun g hg row hrow => hgroups.placed hg hrow) hclaimed).bind ?_
  intro ok c₂ hprewritten
  have hkeys := hprewritten.perm hgroups.perm
  have htaken : ok = true ↔ (t.keys.map Prod.fst).Nodup := by
    refine hkeys.taken.trans ⟨fun h => h.2.1, fun h => ⟨rfl, h, fun row hrow => ?_⟩⟩
    exact (hready' row hrow).2.2
  cases ok with
  | true =>
    exact .pure ⟨htaken, fun hok => ⟨(htouches.mono (Set.empty_subset _)).trans hkeys.touches,
      hkeys.held hok⟩⟩
  | false =>
    refine (returns_rollbackAllShards ((hc.of_touches htouches).of_touches hkeys.touches) groups).bind ?_
    exact fun _ c₃ _ => .pure ⟨htaken, nofun⟩

/-! ## The commits -/

/-- The commit of a key that the executor is handed. -/
def secondary (place : Bytes → ℕ) (id : ℕ) (startTs commitTs : ℤ) (k : Bytes) : SecondaryCommit :=
  ⟨id, place k, k, startTs, commitTs⟩

/-- Each of the keys has its value, or the executor is going to commit it; nothing else in the
executor names the keys. -/
structure Landed (place : Bytes → ℕ) (rows : List (Bytes × Bytes)) (id : ℕ) (startTs commitTs : ℤ)
    (c : Client) : Prop where
  peaceful : Peaceful place (keySet rows) c
  task {s : SecondaryCommit} (h : s ∈ c.executor) (hk : s.key ∈ keySet rows) :
    s = secondary place id startTs commitTs s.key
  row {row : Bytes × Bytes} (h : row ∈ rows) :
    Stored (c.world.shards (place row.1)) row.1 row.2 commitTs ∨
      Intended (c.world.shards (place row.1)) row.1 startTs row.2 ∧
        secondary place id startTs commitTs row.1 ∈ c.executor

/-- The executor gets every key but the primary one. -/
theorem mem_secondaries {commitTs : ℤ} (hgroups : Grouping place t.keys groups) :
    s ∈ secondaries id t groups commitTs ↔ ∃ row ∈ t.keys, row.1 ≠ t.primaryKey ∧
      s = secondary place id t.startTs commitTs row.1 := by
  have hmem : ∀ {row}, row ∈ groups.flatMap Prod.snd ↔ row ∈ t.keys := hgroups.perm.mem_iff
  simp only [secondaries, mem_flatMap, mem_map, mem_filter]
  constructor
  · rintro ⟨g, hg, row, ⟨hrow, hne⟩, rfl⟩
    refine ⟨row, hmem.1 (mem_flatMap.2 ⟨g, hg, hrow⟩), of_decide_eq_true hne, ?_⟩
    rw [secondary, hgroups.placed hg hrow]
  · rintro ⟨row, hrow, hne, rfl⟩
    obtain ⟨g, hg, hrow⟩ := mem_flatMap.1 (hmem.2 hrow)
    refine ⟨g, hg, row, ⟨hrow, decide_eq_true hne⟩, ?_⟩
    rw [secondary, hgroups.placed hg hrow]

theorem returns_setTxn (U : Set Bytes) (hc : Peaceful place K c) (id : ℕ)
    (f : Transaction → Transaction) : (setTxn id f).Returns c fun _ c' => Touches K U c c' :=
  .modify (hc.touches_of_eq rfl rfl rfl rfl)

/-- The primary key is committed and the others are with the executor. -/
theorem returns_commitPrimary (hc : Peaceful place (keySet t.keys) c) (hne : t.keys ≠ [])
    (hgroups : Grouping place t.keys groups) (hheld : Held place c t.keys t.startTs)
    (hnodup : (t.keys.map Prod.fst).Nodup) (hexec : ∀ s ∈ c.executor, s.key ∉ keySet t.keys) :
    (commitPrimary id t groups).Returns c fun r c' => ∃ commitTs, r = (true, some commitTs) ∧
      ValidTs commitTs ∧ Landed place t.keys id t.startTs commitTs c' := by
  obtain ⟨⟨primary, value⟩, others, hkeys⟩ := exists_cons_of_ne_nil hne
  have hprimary : t.primaryKey = primary := by rw [Transaction.primaryKey, hkeys]; rfl
  have hrow : (primary, value) ∈ t.keys := hkeys ▸ mem_cons_self
  refine (returns_ask ∅ hc _).bind ?_
  rintro _ c₁ ⟨⟨m, hm, rfl⟩, h₁⟩
  refine (returns_setTxn ∅ (hc.of_touches h₁) id _).bind ?_
  rintro _ c₂ h₂
  have hc₂ := h₁.trans h₂
  refine (returns_getShardId ∅ (hc.of_touches hc₂) t.primaryKey).bind ?_
  rintro _ c₃ ⟨rfl, h₃⟩
  have hc₃ := hc₂.trans h₃
  refine (returns_getShardLeader ∅ (hc.of_touches hc₃) _).bind ?_
  rintro _ c₄ ⟨rfl, h₄⟩
  have hc₄ := hc₃.trans h₄
  have hheld₄ := hheld.of_touches (le_refl _) hc₄
  rw [hprimary]
  refine (returns_commitKey (hc.of_touches hc₄) (mem_keySet hrow) hm.timestamp (hheld₄ _ hrow)).bind ?_
  rintro _ c₅ ⟨rfl, h₅, hstored⟩
  refine (returns_setTxn ∅ ((hc.of_touches hc₄).of_touches h₅) id _).bind ?_
  rintro _ c₆ h₆
  have hexec₆ : c₆.executor = c.executor :=
    h₆.executor.trans (h₅.executor.trans hc₄.executor)
  have hc₆ := ((hc.of_touches hc₄).of_touches h₅).of_touches h₆
  refine Returns.bind (.modify (R := fun _ c₇ => c₇ =
    { c₆ with executor := c₆.executor ++ secondaries id t groups m.timestamp }) rfl) ?_
  rintro _ c₇ rfl
  refine .pure ⟨m.timestamp, rfl, hm.timestamp, ⟨hc₆.calm, hc₆.idle⟩, fun {s} hs hk => ?_,
    fun {row} hmem => ?_⟩
  · rcases mem_append.1 hs with hs | hs
    · exact absurd hk (hexec s (hexec₆ ▸ hs))
    · obtain ⟨row, -, -, rfl⟩ := (mem_secondaries hgroups).1 hs
      rfl
  · by_cases heq : row.1 = primary
    · obtain rfl : row = (primary, value) := inj_on_of_nodup_map hnodup hmem hrow heq
      exact .inl (hstored.alike (h₆.rows (mem_keySet hrow) (Set.notMem_empty _) _))
    refine .inr ⟨?_, mem_append_right _ ((mem_secondaries hgroups).2
      ⟨row, hmem, by rw [hprimary]; exact heq, rfl⟩)⟩
    have hafter := (hheld₄ row hmem).alike (h₅.rows (mem_keySet hmem) heq _)
    exact hafter.alike (h₆.rows (mem_keySet hmem) (Set.notMem_empty _) _)

/-- **`commit`** goes through exactly if the transaction has written each of its keys once. -/
theorem returns_commit (ht : c.transactions id = some t) (hpending : t.status = .pending)
    (hread : t.readSet = []) (hs : ValidTs t.startTs) (hne : t.keys ≠ [])
    (hc : Peaceful place (keySet t.keys) c) (hready : Ready place (keySet t.keys) c t.keys)
    (hexec : ∀ s ∈ c.executor, s.key ∉ keySet t.keys) :
    (commit id).Returns c fun r c' =>
      ((t.keys.map Prod.fst).Nodup → ∃ commitTs, r = (true, some commitTs) ∧ ValidTs commitTs ∧
        Landed place t.keys id t.startTs commitTs c') ∧
          (¬ (t.keys.map Prod.fst).Nodup → r = (false, none)) := by
  refine Returns.bind (.get (R := fun t? c' => t? = some t ∧ c' = c) ⟨ht, rfl⟩) ?_
  rintro _ _ ⟨rfl, rfl⟩
  show Returns (if t.status ≠ .pending then _ else if t.keys = [] then _ else _) _ _
  rw [if_neg (not_not.2 hpending), if_neg hne]
  refine (returns_groupKeysByShard ∅ hc grouping_nil).bind ?_
  rintro groups c₁ ⟨hgroups, h₁⟩
  refine (returns_prewriteAllShards (hc.of_touches h₁) hs hgroups (hready.of_touches h₁)).bind ?_
  rintro ok c₂ ⟨htaken, hheld⟩
  cases ok with
  | false =>
    refine Returns.bind (.modify (R := fun _ _ => True) trivial) fun _ _ _ => .pure ⟨?_, fun _ => rfl⟩
    exact fun hnodup => absurd (htaken.2 hnodup) Bool.false_ne_true
  | true =>
    have hnodup := htaken.1 rfl
    obtain ⟨h₂, hheld⟩ := hheld rfl
    have hc₂ := (hc.of_touches h₁).of_touches h₂
    refine (returns_setTxn ∅ hc₂ id _).bind ?_
    rintro _ c₃ h₃
    have hexec' : ∀ s ∈ c₃.executor, s.key ∉ keySet t.keys := by
      rw [h₃.executor, h₂.executor, h₁.executor]
      exact hexec
    have hconflict : (readConflict t).Returns c₃ fun r c' => r = none ∧ c' = c₃ := by
      rw [readConflict, hread]
      refine Returns.bind (.get (R := fun _ c' => c' = c₃) rfl) ?_
      rintro validate _ rfl
      cases validate with
      | true => exact .pure ⟨rfl, rfl⟩
      | false => exact .pure ⟨rfl, rfl⟩
    refine hconflict.bind ?_
    rintro _ _ ⟨rfl, rfl⟩
    exact (returns_commitPrimary (hc₂.of_touches h₃) hne hgroups (hheld.of_touches (le_refl _) h₃)
      hnodup hexec').mono fun _ _ hr => ⟨fun _ => hr, fun hrepeat => absurd hnodup hrepeat⟩

section Executor

variable {rows : List (Bytes × Bytes)} {id : ℕ} {startTs commitTs : ℤ}

/-- A commit of the executor stores the key, where it is one of the transaction's. -/
theorem Landed.returns_commitKey (h : Landed place rows id startTs commitTs c)
    (hs : ValidTs startTs) (hct : ValidTs commitTs) (hkeys : ∀ row ∈ rows, ValidKey row.1)
    (hnodup : (rows.map Prod.fst).Nodup) (hmem : s ∈ c.executor)
    (hpeace : Peaceful place (keySet rows) c') (hworld : c'.world = c.world) :
    (commitKey s.txn s.shard s.key s.startTs s.commitTs).Returns c' fun _ c'' =>
      Touches (keySet rows) {s.key} c' c'' ∧ ∀ row ∈ rows, row.1 = s.key →
        Stored (c''.world.shards (place row.1)) row.1 row.2 commitTs := by
  by_cases hk : s.key ∈ keySet rows
  · obtain ⟨row, hrow, hkey⟩ := mem_map.1 hk
    have honly : ∀ row' ∈ rows, row'.1 = row.1 → row' = row := fun row' hrow' =>
      inj_on_of_nodup_map hnodup hrow' hrow
    have hstate := h.row hrow
    rw [← hworld] at hstate
    rw [h.task hmem hk, ← hkey]
    have hstored : (commitKey id (place row.1) row.1 startTs commitTs).Returns c' fun _ c'' =>
        Touches (keySet rows) {row.1} c' c'' ∧
          Stored (c''.world.shards (place row.1)) row.1 row.2 commitTs := by
      rcases hstate with hstored | ⟨hintended, -⟩
      · exact returns_commitKey_again hpeace (mem_keySet hrow) (hkeys row hrow) hs hstored
      · exact (Client.returns_commitKey hpeace (mem_keySet hrow) hct hintended).mono
          fun _ _ hresult => hresult.2
    refine hstored.mono ?_
    rintro _ c'' ⟨htouches, hstored⟩
    exact ⟨htouches, fun row' hrow' hkey' => honly row' hrow' hkey' ▸ hstored⟩
  · refine (returns_proposeTo hpeace rfl).mono ?_
    rintro _ c₁ ⟨htouches, -⟩
    exact ⟨htouches, fun row hrow hkey => absurd (hkey ▸ mem_keySet hrow) hk⟩

/-- **A thread of the executor** commits a key, of this transaction or of another. -/
theorem returns_runSecondary (hs : ValidTs startTs) (hct : ValidTs commitTs)
    (hkeys : ∀ row ∈ rows, ValidKey row.1) (hnodup : (rows.map Prod.fst).Nodup)
    (h : Landed place rows id startTs commitTs c) (i : ℕ) :
    (runSecondary i).Returns c fun _ c' => Landed place rows id startTs commitTs c' := by
  refine Returns.bind (.get (R := fun s? c' => s? = c.executor[i]? ∧ c' = c) ⟨rfl, rfl⟩) ?_
  rintro _ c ⟨rfl, rfl⟩
  split
  · exact .pure h
  next s hs? =>
  have hmem : s ∈ c.executor := mem_of_getElem? hs?
  refine Returns.bind (.modify (R := fun _ c₁ => Peaceful place (keySet rows) c₁ ∧
    c₁.world = c.world ∧ c₁.executor = c.executor.eraseIdx i)
    ⟨⟨h.peaceful.calm, h.peaceful.idle⟩, rfl, rfl⟩) ?_
  rintro _ c₁ ⟨hpeace, hworld, hexec₁⟩
  refine (h.returns_commitKey hs hct hkeys hnodup hmem hpeace hworld).attempt.bind ?_
  rintro _ c₂ ⟨_, rfl, htouches, hstored⟩
  have hexec := htouches.executor.trans hexec₁
  refine .pure ⟨hpeace.of_touches htouches, fun hs' hk => ?_, fun {row} hrow => ?_⟩
  · exact h.task (mem_of_mem_eraseIdx (hexec ▸ hs')) hk
  by_cases hkey : row.1 = s.key
  · exact .inl (hstored row hrow hkey)
  have halike := htouches.rows (mem_keySet hrow) hkey (place row.1)
  rw [hworld] at halike
  rcases h.row hrow with hold | ⟨hintended, htask⟩
  · exact .inl (hold.alike halike)
  refine .inr ⟨hintended.alike halike, ?_⟩
  rw [hexec]
  obtain ⟨j, hj⟩ := getElem?_of_mem htask
  refine mem_eraseIdx_iff_getElem?.2 ⟨j, fun heq => ?_, hj⟩
  subst heq
  cases hs?.symm.trans hj
  exact hkey rfl

end Executor

/-! ## The whole transaction -/

/-- A transaction that writes the rows, in this order. -/
def writeAll (rows : List (Bytes × Bytes)) : Method (Bool × Option ℤ) := do
  let id ← begin
  rows.forM fun row => addWrite id row.1 row.2
  commit id

/-- Threads of the executor take commits, in this order. -/
def runSecondaries (order : List ℕ) : Method Unit := order.forM runSecondary

/-- The value of the last `add_write` of a key. -/
def lastWrite (rows : List (Bytes × Bytes)) (k : Bytes) : Option Bytes := rows.reverse.lookup k

/-- A transaction begins. -/
theorem returns_begin (hc : Peaceful place K c) :
    begin.Returns c fun id c' => Touches K ∅ c c' ∧ ∃ startTs, ValidTs startTs ∧
      c'.transactions id = some { startTs := startTs } := by
  refine Returns.bind (.modify (R := fun _ c₁ => Touches K ∅ c c₁)
    (hc.touches_of_eq rfl rfl rfl rfl)) ?_
  rintro _ c₁ h₁
  refine Returns.bind (.get (R := fun _ c₂ => c₂ = c₁) rfl) ?_
  rintro id _ rfl
  refine (returns_ask ∅ (hc.of_touches h₁) _).bind ?_
  rintro _ c₂ ⟨⟨m, hm, rfl⟩, h₂⟩
  have hc₂ := h₁.trans h₂
  refine Returns.bind (.modify (R := fun _ c₃ => Touches K ∅ c₂ c₃ ∧
    c₃.transactions id = some { startTs := m.timestamp })
    ⟨(hc.of_touches hc₂).touches_of_eq rfl rfl rfl rfl, update_self ..⟩) ?_
  rintro _ c₃ ⟨h₃, ht⟩
  exact .pure ⟨hc₂.trans h₃, m.timestamp, hm.timestamp, ht⟩

theorem returns_addWrite (hc : Peaceful place K c) (row : Bytes × Bytes)
    (ht : c.transactions id = some t) (hpending : t.status = .pending) :
    (addWrite id row.1 row.2).Returns c fun _ c' => Touches K ∅ c c' ∧
      c'.transactions id = some { t with keys := t.keys ++ [row] } := by
  refine Returns.bind (.get (R := fun t? c' => t? = some t ∧ c' = c) ⟨ht, rfl⟩) ?_
  rintro _ _ ⟨rfl, rfl⟩
  show Returns (if t.status = .pending then _ else _) _ _
  rw [if_pos hpending]
  refine .modify ⟨hc.touches_of_eq rfl rfl rfl rfl, ?_⟩
  simp only [update_self, ht]
  rfl

/-- The rows are buffered in their order. -/
theorem returns_addWrites (hc : Peaceful place K c) {rows : List (Bytes × Bytes)}
    (ht : c.transactions id = some t) (hpending : t.status = .pending) :
    (rows.forM fun row => addWrite id row.1 row.2).Returns c fun _ c' => Touches K ∅ c c' ∧
      c'.transactions id = some { t with keys := t.keys ++ rows } := by
  induction rows generalizing c t with
  | nil =>
    rw [append_nil]
    exact .pure ⟨hc.touches_of_eq rfl rfl rfl rfl, ht⟩
  | cons row rows ih =>
    refine (returns_addWrite hc row ht hpending).bind ?_
    rintro _ c₁ ⟨h₁, ht₁⟩
    refine (ih (hc.of_touches h₁) ht₁ hpending).mono ?_
    rintro _ c₂ ⟨h₂, ht₂⟩
    rw [append_assoc] at ht₂
    exact ⟨h₁.trans h₂, ht₂⟩

/-- The last write of a key is one of the writes. -/
theorem mem_of_lastWrite {rows : List (Bytes × Bytes)} {v : Bytes} (h : lastWrite rows k = some v) :
    (k, v) ∈ rows := by
  obtain ⟨after, before, hrows, -⟩ := lookup_eq_some_iff.1 h
  rw [← mem_reverse, hrows]
  exact mem_append_right _ mem_cons_self

/-- **The last write wins** exactly if no key is written twice: `commit` returns `True`, and a key
whose commit is not waiting for the executor any more reads back the value. -/
theorem last_write_wins (c : Client) (place : Bytes → ℕ) (rows : List (Bytes × Bytes))
    (hne : rows ≠ []) (hkeys : ∀ row ∈ rows, ValidKey row.1) (hcalm : Peaceful place (keySet rows) c)
    (hfresh : ∀ row ∈ rows, Untouched (c.world.shards (place row.1)) row.1)
    (hexec : ∀ s ∈ c.executor, s.key ∉ keySet rows) (order : List ℕ) :
    (rows.map Prod.fst).Nodup ↔ (writeAll rows).Returns c fun result c' =>
      ∃ commitTs, result = (true, some commitTs) ∧
        (runSecondaries order).Returns c' fun _ c'' => ∀ k v, lastWrite rows k = some v →
          (∀ s ∈ c''.executor, s.key ≠ k) → ∀ timestamp, (∀ t, timestamp = some t → commitTs ≤ t) →
            (c''.world.shards (place k)).get k timestamp = .ok (.ok (some v) commitTs) := by
  have hready : Ready place (keySet rows) c rows := fun row hrow =>
    ⟨mem_keySet hrow, hkeys row hrow, hfresh row hrow⟩
  have hwrites : (writeAll rows).Returns c fun r c' =>
      ((rows.map Prod.fst).Nodup → ∃ id startTs commitTs, ValidTs startTs ∧
        r = (true, some commitTs) ∧ ValidTs commitTs ∧ Landed place rows id startTs commitTs c') ∧
          (¬ (rows.map Prod.fst).Nodup → r = (false, none)) := by
    refine (returns_begin hcalm).bind ?_
    rintro id c₁ ⟨h₁, startTs, hs, ht⟩
    refine (returns_addWrites (hcalm.of_touches h₁) ht rfl).bind ?_
    rintro _ c₂ ⟨h₂, ht₂⟩
    have hc₂ := h₁.trans h₂
    refine (returns_commit ht₂ rfl rfl hs hne (hcalm.of_touches hc₂) (hready.of_touches hc₂)
      (by rw [hc₂.executor]; exact hexec)).mono fun r c₃ hr => ⟨fun honce => ?_, hr.2⟩
    obtain ⟨commitTs, hlanded⟩ := hr.1 honce
    exact ⟨id, startTs, commitTs, hs, hlanded⟩
  obtain ⟨r, c₃, hrun, honce, hrepeat⟩ := hwrites
  constructor
  · intro hnodup
    obtain ⟨id, startTs, commitTs, hs, rfl, hct, hlanded⟩ := honce hnodup
    have hdrain : (runSecondaries order).Returns c₃ fun _ c'' =>
        Landed place rows id startTs commitTs c'' :=
      .forM (fun i _ _ h => returns_runSecondary hs hct hkeys hnodup h i) hlanded
    refine ⟨_, c₃, hrun, commitTs, rfl, hdrain.mono ?_⟩
    intro _ c₄ hlanded' k v hlast hdone timestamp htime
    have hrow := mem_of_lastWrite hlast
    rcases hlanded'.row hrow with hstored | ⟨-, htask⟩
    · exact hstored.get (hkeys _ hrow) hct htime
    · exact absurd rfl (hdone _ htask)
  · rintro ⟨r', c₄, hrun', commitTs, rfl, -⟩
    cases hrun.symm.trans hrun'
    by_contra hnot
    cases hrepeat hnot

/-- A cluster in which everything answers at once, for the client alone. -/
def quiet (place : Bytes → ℕ) : Client :=
  init (fun _ => .empty) (fun n => { shard := fun k => some (place k), timestamp := min n 100 }) true

theorem peaceful_quiet (place : Bytes → ℕ) (K : Set Bytes) : Peaceful place K (quiet place) where
  calm {n} _ :=
    { raised := rfl
      shard := fun _ => rfl
      leader := rfl
      timestamp := ⟨le_min (Int.natCast_nonneg n) (by decide), (min_le_right _ _).trans (by decide)⟩
      copies := rfl
      heard := ⟨0, rfl⟩
      others := fun h => by cases h }
  idle p hp := by cases hp

/-- Two keys on two shards. -/
theorem last_write_wins_two :
    let rows : List (Bytes × Bytes) := [([1], [7]), ([2, 2], [8])]
    (writeAll rows).Returns (quiet List.length) fun result c' => ∃ commitTs,
      result = (true, some commitTs) ∧ (runSecondaries [0]).Returns c' fun _ c'' =>
        ∀ k v, lastWrite rows k = some v → (∀ s ∈ c''.executor, s.key ≠ k) →
          ∀ timestamp, (∀ t, timestamp = some t → commitTs ≤ t) →
            (c''.world.shards k.length).get k timestamp = .ok (.ok (some v) commitTs) :=
  (last_write_wins (quiet length) length [([1], [7]), ([2, 2], [8])] (by decide) (by decide)
    (peaceful_quiet _ _) (fun _ _ => untouched_empty _) nofun [0]).1 (by decide)

example : ((writeAll [([1], [7]), ([2, 2], [8])] >>= fun _ => runSecondaries [0])
    (quiet List.length)).2.executor = [] := rfl

/-- **The last write does not win** where a key is written twice: the second `PREWRITE` meets the
lock of the first, and the transaction is refused. -/
theorem last_write_loses :
    let rows : List (Bytes × Bytes) := [([1], [7]), ([1], [8])]
    Peaceful (fun _ => 0) (keySet rows) (quiet fun _ => 0) ∧ lastWrite rows [1] = some [8] ∧
      (writeAll rows).Returns (quiet fun _ => 0) fun result c' => result = (false, none) ∧
        (c'.world.shards 0).get [1] none = .ok (.ok none) :=
  ⟨peaceful_quiet _ _, rfl, _, _, rfl, rfl, rfl⟩

end OxideDB.Client
