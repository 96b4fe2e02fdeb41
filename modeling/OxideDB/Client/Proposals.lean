import OxideDB.Client.Coordinator

/-!
# What a call proposes

Most parts of a call of the coordinator leave the transactions alone and only propose: what they
can add to the proposals of the client is a property of the transaction they are for and of the
command.

* `posts_proposeTo` and the lemmas after it — the parts of the coordinator.
-/

namespace OxideDB.Client

open Raft (Bytes)
open Storage MVCCStateMachine
open Txn (Groups)
open Program List

variable {command : Command} {p : Proposal} {j id shard : ℕ}
variable {P : ℕ → Command → Prop} {w w' : World} {c c' : Client}

/-- The proposals there were, with what the machine has said to them since, and new ones for which
`P` holds. -/
structure World.Grows (P : ℕ → Command → Prop) (w w' : World) : Prop where
  kept {j : ℕ} {p : Proposal} (h : w.proposals[j]? = some p) : ∃ p', w'.proposals[j]? = some p' ∧
    p'.txn = p.txn ∧ p'.shard = p.shard ∧ p'.command = p.command ∧ p.results ⊆ p'.results
  from_ {p' : Proposal} (h : p' ∈ w'.proposals) :
    (∃ p ∈ w.proposals, p.txn = p'.txn ∧ p.command = p'.command) ∨ P p'.txn p'.command

namespace World.Grows

theorem refl (w : World) : Grows P w w where
  kept h := ⟨_, h, rfl, rfl, rfl, List.Subset.refl _⟩
  from_ h := .inl ⟨_, h, rfl, rfl⟩

theorem trans {w'' : World} (h : Grows P w w') (h' : Grows P w' w'') : Grows P w w'' where
  kept hp := by
    obtain ⟨p', hp', htxn, hshard, hcmd, hsub⟩ := h.kept hp
    obtain ⟨p'', hp'', htxn', hshard', hcmd', hsub'⟩ := h'.kept hp'
    exact ⟨p'', hp'', htxn'.trans htxn, hshard'.trans hshard, hcmd'.trans hcmd,
      List.Subset.trans hsub hsub'⟩
  from_ hp'' := by
    rcases h'.from_ hp'' with ⟨p', hp', htxn, hcmd⟩ | hnew
    · rcases h.from_ hp' with ⟨p, hp, htxn', hcmd'⟩ | hnew
      · exact .inl ⟨p, hp, htxn'.trans htxn, hcmd'.trans hcmd⟩
      · exact .inr (htxn ▸ hcmd ▸ hnew)
    · exact .inr hnew

/-- A proposal is replaced by one with more results. -/
theorem of_set {p' : Proposal} (hp : w.proposals[j]? = some p) (htxn : p'.txn = p.txn)
    (hshard : p'.shard = p.shard) (hcmd : p'.command = p.command) (hsub : p.results ⊆ p'.results)
    (hw : w'.proposals = w.proposals.set j p') : Grows P w w' where
  kept {i q} hq := by
    by_cases hij : j = i
    · subst hij
      cases hp.symm.trans hq
      obtain ⟨hlt, -⟩ := List.getElem?_eq_some_iff.1 hp
      exact ⟨p', by rw [hw, getElem?_set_self hlt], htxn, hshard, hcmd, hsub⟩
    · exact ⟨q, by rw [hw, getElem?_set_ne hij, hq], rfl, rfl, rfl, List.Subset.refl _⟩
  from_ {q} hq := by
    rw [hw] at hq
    rcases mem_or_eq_of_mem_set hq with hq | rfl
    · exact .inl ⟨q, hq, rfl, rfl⟩
    · exact .inl ⟨p, mem_of_getElem? hp, htxn.symm, hcmd.symm⟩

/-- A proposal is added. -/
theorem of_concat (hP : P p.txn p.command) (hw : w'.proposals = w.proposals ++ [p]) :
    Grows P w w' where
  kept {j q} hq := by
    obtain ⟨hlt, -⟩ := List.getElem?_eq_some_iff.1 hq
    exact ⟨q, by rw [hw, getElem?_append_left hlt, hq], rfl, rfl, rfl, List.Subset.refl _⟩
  from_ {q} hq := by
    rw [hw] at hq
    rcases mem_append.1 hq with hq | hq
    · exact .inl ⟨q, hq, rfl, rfl⟩
    · obtain rfl := mem_singleton.1 hq
      exact .inr hP

/-- A proposal is applied. -/
theorem execute {now : Time} {q : Proposal} (hp : w.proposals[j]? = some p) (htxn : q.txn = p.txn)
    (hshard : q.shard = p.shard) (hcmd : q.command = p.command) (hres : q.results = p.results) :
    Grows P w (w.execute j now q).2 := by
  refine of_set hp ?_ ?_ ?_ ?_ rfl
  · exact htxn
  · exact hshard
  · exact hcmd
  · rw [← hres]
    exact subset_append_left _ _

/-- What happens elsewhere proposes nothing. -/
theorem happen (h : Happening) : Grows P w (w.happen h) := by
  cases h with
  | command shard now command => exact ⟨fun h => ⟨_, h, rfl, rfl, rfl, List.Subset.refl _⟩,
      fun h => .inl ⟨_, h, rfl, rfl⟩⟩
  | entry j now =>
    simp only [World.happen]
    split
    · next p hp =>
      split
      · exact execute hp rfl rfl rfl rfl
      · exact refl w
    · exact refl w

theorem happenAll (happenings : List Happening) : Grows P w (w.happenAll happenings) := by
  induction happenings generalizing w with
  | nil => exact refl w
  | cons h happenings ih => exact (happen h).trans ih

/-- A proposal stays, and so do its results. -/
theorem mem (h : Grows P w w') (hp : p ∈ w.proposals) : ∃ p' ∈ w'.proposals,
    p'.txn = p.txn ∧ p'.command = p.command ∧ p.results ⊆ p'.results := by
  obtain ⟨j, hj⟩ := getElem?_of_mem hp
  obtain ⟨p', hp', htxn, -, hrest⟩ := h.kept hj
  exact ⟨p', mem_of_getElem? hp', htxn, hrest⟩

end World.Grows

/-- A step of the client that leaves everything but the world alone, and proposes only what `P`
holds of. -/
structure Posts (P : ℕ → Command → Prop) (c c' : Client) : Prop where
  moments : c'.moments = c.moments
  transactions : c'.transactions = c.transactions
  executor : c'.executor = c.executor
  txnIdCounter : c'.txnIdCounter = c.txnIdCounter
  attempts : c'.attempts = c.attempts
  world : World.Grows P c.world c'.world

theorem Posts.of_world (h : World.Grows P c.world c'.world)
    (hc : c' = { c with world := c'.world, calls := c'.calls }) : Posts P c c' := by
  rw [hc]
  exact ⟨rfl, rfl, rfl, rfl, rfl, h⟩

instance : IsPreorder Client (Posts P) where
  refl _ := ⟨rfl, rfl, rfl, rfl, rfl, .refl _⟩
  trans _ _ _ h h' := ⟨h'.1.trans h.1, h'.2.trans h.2, h'.3.trans h.3, h'.4.trans h.4,
    h'.5.trans h.5, h.world.trans h'.world⟩

/-! ## The parts of the coordinator -/

theorem posts_next : Within (Posts P) next := fun _ => .of_world (.happenAll _) rfl

theorem posts_ask {A : Type} (f : Moment → A) : Within (Posts P) (ask f) :=
  posts_next.bind fun m => by
    cases m.raised with
    | none => exact .pure _
    | some e => exact .raise e

/-- The one method that proposes. -/
theorem posts_proposeTo (h : P id command) : Within (Posts P) (proposeTo id shard command) := by
  refine posts_next.bind fun m => Within.bind (fun c => ?_) fun j => ?_
  · exact .of_world (World.Grows.trans (.of_concat h rfl) (.happenAll _)) rfl
  cases m.heard with
  | answer now =>
    intro c
    simp only [answered]
    split
    · next hp => exact .of_world (.execute hp rfl rfl rfl rfl) rfl
    · exact refl_of _ c
  | presumed => exact .pure _
  | failure code msg => exact .pure _
  | nothing => exact .pure _
  | raised msg => exact .raise msg

/-- A success is the machine's answer to the proposal, or presumed. -/
theorem proposeTo_success (c : Client) :
    (proposeTo id shard command).Spec c fun r c' => ∀ result, r = .ok (some result) →
      result.success = true → ∃ p ∈ c'.world.proposals, p.txn = id ∧ p.command = command ∧
        (result ∈ p.results ∨ c.moment.heard = .presumed) := by
  rw [proposeTo, spec_bind_ok (rfl : next c = (.ok c.moment, c.advance)),
    spec_bind_ok (rfl : post id shard command c.moment c.advance = (.ok _, _))]
  have hgrows : World.Grows (fun _ _ => True)
      { c.advance.world with proposals := c.advance.world.proposals ++
        [{ txn := id, shard := shard, command := command, waiting := c.moment.copies }] }
      (c.advance.posted id shard command c.moment).world := .happenAll _
  obtain ⟨p, hp, htxn, -, hcmd, -⟩ := hgrows.kept getElem?_concat_length
  cases hheard : c.moment.heard with
  | failure code msg =>
    rintro result ⟨⟩ hsucc
    cases hsucc
  | nothing => rintro result ⟨⟩
  | raised msg => rintro result ⟨⟩
  | presumed => exact fun _ _ _ => ⟨p, mem_of_getElem? hp, htxn, hcmd, .inr rfl⟩
  | answer now =>
    show Spec (answered c.advance.world.proposals.length now) _ _
    simp only [Spec, answered, hp]
    rintro result ⟨⟩ hsucc
    obtain ⟨hlt, -⟩ := List.getElem?_eq_some_iff.1 hp
    exact ⟨_, mem_set hlt _, htxn, hcmd, .inl (mem_append_right _ (mem_singleton_self _))⟩

theorem posts_getShardId (key : Bytes) : Within (Posts P) (getShardId key) :=
  (posts_ask _).bind fun shard? => by
    cases shard? with
    | none => exact .raise _
    | some shard => exact .pure shard

theorem posts_groupKeysByShard (rows : List (Bytes × Bytes)) (groups : Groups) :
    Within (Posts P) (groupKeysByShard rows groups) := by
  induction rows generalizing groups with
  | nil => exact .pure groups
  | cons row rows ih => exact (posts_getShardId row.1).bind fun shard => ih _

theorem posts_allLeaders (groups : Groups) : Within (Posts P) (allLeaders groups) := by
  induction groups with
  | nil => exact .pure true
  | cons g groups ih =>
    refine (posts_ask _).bind fun leader => ?_
    cases leader with
    | true => exact ih
    | false => exact .pure false

/-- Validation only asks. -/
theorem posts_validateReadSet (t : Transaction) (keys : List Bytes) :
    Within (Posts P) (validateReadSet t keys) := by
  induction keys with
  | nil => exact .pure none
  | cons key keys ih =>
    refine (posts_getShardId key).bind fun shard => (posts_ask _).bind fun leader => ?_
    cases leader with
    | false => exact .pure _
    | true =>
      refine (posts_ask _).bind fun record? => ?_
      cases record? with
      | none => exact ih
      | some record =>
        show Within _ (if _ then _ else _)
        split
        · exact .pure _
        · exact ih

theorem posts_readConflict (t : Transaction) : Within (Posts P) (readConflict t) :=
  (Within.get _).bind fun validate => by
    cases validate with
    | true => exact posts_validateReadSet t t.readSet
    | false => exact .pure none

section

variable {id : ℕ} {t : Transaction}

/-- The threads that prewrite, in any order. -/
theorem posts_prewriteShards (hP : ∀ key value, P id (.prewrite key value t.startTs t.primaryKey))
    (fuel : ℕ) (running : Groups) (ok : Bool) :
    Within (Posts P) (prewriteShards id t fuel running ok) := by
  induction fuel generalizing running ok with
  | zero => exact .pure ok
  | succ fuel ih =>
    refine (Within.get _).bind fun i => ?_
    split
    · exact .pure ok
    · exact ih _ _
    refine (posts_proposeTo (hP _ _)).attempt.bind fun result => ?_
    split
    · split
      · exact ih _ _
      · exact ih _ _
    · exact ih _ _

theorem posts_rollbackAllShards (hP : ∀ key, P id (.rollback key t.startTs)) (groups : Groups) :
    Within (Posts P) (rollbackAllShards id t groups) :=
  .forM fun _ _ => .forM fun _ _ => (posts_proposeTo (hP _)).bind fun _ => .pure _

/-- The prewrites, and a rollback if one is refused. -/
theorem posts_prewriteAllShards (hpre : ∀ key value, P id (.prewrite key value t.startTs t.primaryKey))
    (hback : ∀ key, P id (.rollback key t.startTs)) (groups : Groups) :
    Within (Posts P) (prewriteAllShards id t groups) := by
  refine (posts_allLeaders groups).bind fun leaders => ?_
  cases leaders with
  | false => exact .pure false
  | true =>
    refine (posts_prewriteShards hpre _ _ _).bind fun ok => ?_
    cases ok with
    | true => exact .pure true
    | false => exact (posts_rollbackAllShards hback groups).bind fun _ => .pure false

end

end OxideDB.Client
