import OxideDB.Client.Proposals
import OxideDB.Client.SmartClient

/-!
# `run` commits its work at most once

A transaction leaves `PENDING` before the commit of its primary key is proposed, and never comes
back, so a `commit` that is tried again finds out nothing and does nothing.  An abort reason is
written only by the call that has found a conflict, and that call proposes no commit.  `run` begins
another transaction only after a `SerializationError`, which is an abort reason.
-/

namespace OxideDB.Client

open Raft (Bytes)
open Storage MVCCStateMachine
open Txn (TxnStatus Groups)
open Program List Function

variable {c c' c'' : Client} {id : ℕ} {t t' : Transaction} {f : Transaction → Transaction}
  {A : Type}

/-- A call for the transaction has proposed a commit. -/
def Proposed (c : Client) (id : ℕ) : Prop :=
  ∃ p ∈ c.world.proposals, p.txn = id ∧ p.command.type = .commit

/-- A commit of the transaction's primary key has been applied. -/
def PrimaryCommitted (c : Client) (id : ℕ) : Prop :=
  ∃ t, c.transactions id = some t ∧ ∃ p ∈ c.world.proposals, p.txn = id ∧
    (∃ commitTs, p.command = .commit t.primaryKey t.startTs commitTs) ∧
      ∃ r ∈ p.results, r.success = true

/-- It has been, or some call was told a success that the machine need not have given. -/
def Trusted (c : Client) (id : ℕ) : Prop :=
  PrimaryCommitted c id ∨ ∃ n, (c.moments n).heard = .presumed

theorem PrimaryCommitted.proposed (h : PrimaryCommitted c id) : Proposed c id := by
  obtain ⟨t, -, p, hp, htxn, ⟨commitTs, hcmd⟩, -⟩ := h
  exact ⟨p, hp, htxn, by rw [hcmd]; rfl⟩

/-- What holds of a client between two calls. -/
structure Sound (c : Client) : Prop where
  registered {id : ℕ} {t : Transaction} (h : c.transactions id = some t) : id ≤ c.txnIdCounter
  known {p : Proposal} (h : p ∈ c.world.proposals) : ∃ t, c.transactions p.txn = some t
  /-- The transaction of a proposed commit is decided, and not refused. -/
  decided {id : ℕ} {t : Transaction} (h : c.transactions id = some t) (hprop : Proposed c id) :
    t.status ≠ .pending ∧ t.abortReason = none
  refused {id : ℕ} {t : Transaction} (h : c.transactions id = some t)
    (hreason : t.abortReason ≠ none) : t.status ≠ .pending
  executor {s : SecondaryCommit} (h : s ∈ c.executor) : Proposed c s.txn

/-- A refused transaction stays refused. -/
structure Later (c c' : Client) : Prop where
  moments : c'.moments = c.moments
  attempts : c'.attempts = c.attempts
  refused {id : ℕ} {t : Transaction} (h : c.transactions id = some t) :
    ∃ t', c'.transactions id = some t' ∧ (t.abortReason ≠ none → t'.abortReason ≠ none)

theorem Later.refl (c : Client) : Later c c := ⟨rfl, rfl, fun h => ⟨_, h, fun h => h⟩⟩

theorem Later.trans (h : Later c c') (h' : Later c' c'') : Later c c'' where
  moments := h'.moments.trans h.moments
  attempts := h'.attempts.trans h.attempts
  refused ht := by
    obtain ⟨t', ht', hr⟩ := h.refused ht
    obtain ⟨t'', ht'', hr'⟩ := h'.refused ht'
    exact ⟨t'', ht'', fun h => hr' (hr h)⟩

/-- A step from a sound client to a later one. -/
def Safe (c c' : Client) : Prop := Sound c → Sound c' ∧ Later c c'

instance : IsPreorder Client Safe where
  refl c h := ⟨h, .refl c⟩
  trans _ _ _ h h' hc :=
    have hmid := h hc
    have hend := h' hmid.1
    ⟨hend.1, hmid.2.trans hend.2⟩

/-! ## Single steps -/

section

variable {P : ℕ → Command → Prop} (h : Posts P c c')
include h

/-- A commit that is proposed now was proposed before, or just posted. -/
theorem Posts.proposed (hprop : Proposed c' id) :
    Proposed c id ∨ ∃ cmd, P id cmd ∧ cmd.type = .commit := by
  obtain ⟨p', hp', rfl, htype⟩ := hprop
  rcases h.world.from_ hp' with ⟨p, hp, htxn, hcmd⟩ | hnew
  · exact .inl ⟨p, hp, htxn, hcmd ▸ htype⟩
  · exact .inr ⟨_, hnew, htype⟩

theorem Posts.proposed_mono (hprop : Proposed c id) : Proposed c' id := by
  obtain ⟨p, hp, rfl, htype⟩ := hprop
  obtain ⟨p', hp', htxn, hcmd, -⟩ := h.world.mem hp
  exact ⟨p', hp', htxn, hcmd ▸ htype⟩

/-- Proposals for transactions there are, and commits for decided ones. -/
theorem Posts.safe
    (hP : ∀ id cmd, P id cmd → ∃ t, c.transactions id = some t ∧
      (cmd.type = .commit → t.status ≠ .pending ∧ t.abortReason = none)) : Safe c c' := by
  intro hc
  refine ⟨⟨fun ht => ?_, fun {p'} hp' => ?_, fun {id t} ht hprop => ?_, fun ht => ?_,
    fun hs => ?_⟩, ⟨h.moments, h.attempts, fun ht => ⟨_, h.transactions ▸ ht, fun h => h⟩⟩⟩
  · rw [h.txnIdCounter]
    exact hc.registered (h.transactions ▸ ht)
  · rw [h.transactions]
    rcases h.world.from_ hp' with ⟨p, hp, htxn, -⟩ | hnew
    · exact htxn ▸ hc.known hp
    · obtain ⟨t, ht, -⟩ := hP _ _ hnew
      exact ⟨t, ht⟩
  · rw [h.transactions] at ht
    rcases h.proposed hprop with hprop | ⟨cmd, hnew, htype⟩
    · exact hc.decided ht hprop
    · obtain ⟨t', ht', hdone⟩ := hP _ _ hnew
      cases ht.symm.trans ht'
      exact hdone htype
  · exact hc.refused (h.transactions ▸ ht)
  · exact h.proposed_mono (hc.executor (h.executor ▸ hs))

end

theorem Posts.safe_of_none (h : Posts (fun _ _ => False) c c') : Safe c c' := h.safe fun _ _ => False.elim

/-- A transaction is changed: one whose commit was proposed stays decided, an abort reason stays
and comes with a decision. -/
theorem safe_setTxn
    (h : ∀ t, c.transactions id = some t →
      (Proposed c id → (f t).status ≠ .pending ∧ (f t).abortReason = none) ∧
      ((f t).abortReason ≠ none → (f t).status ≠ .pending) ∧
      (t.abortReason ≠ none → (f t).abortReason ≠ none)) : Safe c (setTxn id f c).2 := by
  intro hc
  have hget : ∀ {i t'}, (setTxn id f c).2.transactions i = some t' →
      i ≠ id ∧ c.transactions i = some t' ∨
        i = id ∧ ∃ t, c.transactions id = some t ∧ t' = f t := by
    intro i t' ht'
    by_cases hi : i = id
    · subst hi
      have ht' : update c.transactions i ((c.transactions i).map f) i = some t' := ht'
      rw [update_self] at ht'
      obtain ⟨t, ht, rfl⟩ := Option.map_eq_some_iff.1 ht'
      exact .inr ⟨rfl, t, ht, rfl⟩
    · have ht' : update c.transactions id ((c.transactions id).map f) i = some t' := ht'
      rw [update_of_ne hi] at ht'
      exact .inl ⟨hi, ht'⟩
  have hnext : ∀ {i t}, c.transactions i = some t → ∃ t', (setTxn id f c).2.transactions i = some t' ∧
      (t.abortReason ≠ none → t'.abortReason ≠ none) := by
    intro i t ht
    by_cases hi : i = id
    · subst hi
      refine ⟨f t, ?_, (h t ht).2.2⟩
      show update c.transactions i ((c.transactions i).map f) i = some (f t)
      rw [update_self, ht]
      rfl
    · refine ⟨t, ?_, fun h => h⟩
      show update c.transactions id ((c.transactions id).map f) i = some t
      rw [update_of_ne hi, ht]
  refine ⟨⟨fun ht' => ?_, fun hp => ?_, fun ht' hprop => ?_, fun ht' => ?_, fun hs => hc.executor hs⟩,
    ⟨rfl, rfl, hnext⟩⟩
  · rcases hget ht' with ⟨-, ht⟩ | ⟨rfl, t, ht, -⟩
    · exact hc.registered ht
    · exact hc.registered ht
  · obtain ⟨t, ht⟩ := hc.known hp
    obtain ⟨t', ht', -⟩ := hnext ht
    exact ⟨t', ht'⟩
  · rcases hget ht' with ⟨-, ht⟩ | ⟨rfl, t, ht, rfl⟩
    · exact hc.decided ht hprop
    · exact (h t ht).1 hprop
  · rcases hget ht' with ⟨-, ht⟩ | ⟨rfl, t, ht, rfl⟩
    · exact hc.refused ht
    · exact (h t ht).2.1

/-- The transaction as changed. -/
theorem setTxn_transactions (ht : c.transactions id = some t) :
    (setTxn id f c).2.transactions id = some (f t) := by
  show update c.transactions id ((c.transactions id).map f) id = some (f t)
  rw [update_self, ht]
  rfl

/-! ## `commit` -/

/-- What the calls for a transaction propose that are not commits. -/
def Harmless (id : ℕ) (i : ℕ) (cmd : Command) : Prop := i = id ∧ cmd.type ≠ .commit

theorem Posts.safe_of_harmless (h : Posts (Harmless id) c c') (ht : c.transactions id = some t) :
    Safe c c' := by
  refine h.safe fun i cmd hP => ?_
  obtain ⟨rfl, htype⟩ := hP
  exact ⟨t, ht, fun h => absurd h htype⟩

/-- What is harmless proposes no commit. -/
theorem Posts.not_proposed (h : Posts (Harmless id) c c') (hnot : ¬ Proposed c id) :
    ¬ Proposed c' id := by
  intro hprop
  rcases h.proposed hprop with hold | ⟨cmd, ⟨-, hne⟩, htype⟩
  · exact hnot hold
  · exact hne htype

section

variable {groups : Groups} (hc : Sound c) (ht : c.transactions id = some t)
include hc ht

/-- The end of a call that does not go through; a reason is given where nothing was proposed. -/
theorem abort_spec {reason : Option String} (hreason : reason ≠ none → ¬ Proposed c id) :
    (abort id t' groups reason).Spec c fun r c' =>
      Sound c' ∧ Later c c' ∧ ∀ commitTs, r ≠ .ok (true, commitTs) := by
  refine (Spec.of_within (posts_rollbackAllShards (P := Harmless id) (t := t')
    (fun _ => ⟨rfl, nofun⟩) groups) c).bind (fun _ c₁ hposts => ?_)
    fun e c₁ hposts => ?_
  · have hsafe := hposts.safe_of_harmless ht
    rw [spec_bind_ok (rfl : setTxn id _ c₁ = (.ok (), _)), spec_pure]
    have hset : Safe c₁ (setTxn id (fun t => { t with
        status := .aborted, abortReason := reason.or t.abortReason }) c₁).2 := by
      refine safe_setTxn fun t₁ ht₁ => ⟨fun hprop => ⟨by simp, ?_⟩, fun _ => by simp, fun h => ?_⟩
      · have hnone : reason = none := by
          by_contra hne
          exact hposts.not_proposed (hreason hne) hprop
        rw [hnone]
        exact ((hsafe hc).1.decided ht₁ hprop).2
      · cases reason with
        | none => exact h
        | some text => simp
    obtain ⟨hsound, hlater⟩ := trans_of Safe hsafe hset hc
    exact ⟨hsound, hlater, nofun⟩
  · obtain ⟨hsound, hlater⟩ := hposts.safe_of_harmless ht hc
    exact ⟨hsound, hlater, nofun⟩

/-- `_commit_primary`, of a transaction that is decided. -/
theorem commitPrimary_spec (hstatus : t.status ≠ .pending) (hreason : t.abortReason = none)
    (hkey : t'.primaryKey = t.primaryKey) (hs : t'.startTs = t.startTs) :
    (commitPrimary id t' groups).Spec c fun r c' =>
      Sound c' ∧ Later c c' ∧ ∀ commitTs, r = .ok (true, commitTs) → Trusted c' id := by
  -- a part that proposes nothing raises
  have hraised : ∀ {e : String} {c₁ c₂}, Safe c c₁ → Posts (fun _ _ => False) c₁ c₂ →
      Sound c₂ ∧ Later c c₂ ∧ ∀ commitTs, (.error e : Except String (Bool × Option ℤ)) =
        .ok (true, commitTs) → Trusted c₂ id := by
    intro e c₁ c₂ hsafe hposts
    obtain ⟨hsound, hlater⟩ := trans_of Safe hsafe hposts.safe_of_none hc
    exact ⟨hsound, hlater, nofun⟩
  -- it does not go through
  have habort : ∀ {c₁ t₁}, Safe c c₁ → c₁.transactions id = some t₁ →
      (abort id t' groups none).Spec c₁ fun r c' => Sound c' ∧ Later c c' ∧
        ∀ commitTs, r = .ok (true, commitTs) → Trusted c' id := by
    intro c₁ t₁ hsafe ht₁
    obtain ⟨hsound, hlater⟩ := hsafe hc
    refine (abort_spec hsound ht₁ fun h => absurd rfl h).mono fun r c' hend => ?_
    exact ⟨hend.1, hlater.trans hend.2.1, fun ts h => absurd h (hend.2.2 ts)⟩
  refine (Spec.of_within (posts_ask (P := fun _ _ => False) _) c).bind (fun commitTs c₁ h₁ => ?_)
    fun e c₁ h₁ => hraised (refl_of Safe c) h₁
  rw [spec_bind_ok (rfl : setTxn id _ c₁ = (.ok (), _))]
  have ht₁ : c₁.transactions id = some t := h₁.transactions ▸ ht
  set c₂ := (setTxn id ({ · with commitTs := some commitTs }) c₁).2 with hc₂
  have ht₂ : c₂.transactions id = some { t with commitTs := some commitTs } :=
    setTxn_transactions ht₁
  have hsafe₁ : Safe c c₁ := h₁.safe_of_none
  have hsafe₂ : Safe c c₂ := trans_of Safe hsafe₁ <| safe_setTxn fun t₀ ht₀ => by
    cases ht₁.symm.trans ht₀
    exact ⟨fun _ => ⟨hstatus, hreason⟩, fun h => absurd hreason h, fun h => absurd hreason h⟩
  refine (Spec.of_within (posts_getShardId _) c₂).bind (fun shard c₃ h₃ => ?_)
    fun e c₃ h₃ => hraised hsafe₂ h₃
  have hsafe₃ : Safe c c₃ := trans_of Safe hsafe₂ h₃.safe_of_none
  refine (Spec.of_within (posts_ask _) c₃).bind (fun leader c₄ h₄ => ?_)
    fun e c₄ h₄ => hraised hsafe₃ h₄
  have hsafe₄ : Safe c c₄ := trans_of Safe hsafe₃ h₄.safe_of_none
  have ht₄ : c₄.transactions id = some { t with commitTs := some commitTs } := by
    rw [h₄.transactions, h₃.transactions, ht₂]
  cases leader with
  | false => exact habort hsafe₄ ht₄
  | true =>
    have hcommit : Within (Posts fun i _ => i = id)
        (commitKey id shard t'.primaryKey t'.startTs commitTs) := posts_proposeTo rfl
    have hposted : ∀ {c₅}, Posts (fun i _ => i = id) c₄ c₅ → Safe c c₅ := fun h =>
      trans_of Safe hsafe₄ <| h.safe <| by
        rintro i cmd rfl
        exact ⟨_, ht₄, fun _ => ⟨hstatus, hreason⟩⟩
    refine ((Spec.of_within hcommit c₄).and (proposeTo_success c₄)).bind (fun result? c₅ h₅ => ?_)
      fun e c₅ h₅ => ?_
    · have hsafe₅ : Safe c c₅ := hposted h₅.1
      have ht₅ : c₅.transactions id = some { t with commitTs := some commitTs } :=
        h₅.1.transactions ▸ ht₄
      cases result? with
      | none => exact habort hsafe₅ ht₅
      | some result =>
        show Spec (if result.success = true then _ else _) _ _
        split
        · next hsucc =>
          obtain ⟨p, hp, htxn, hcmd, hres⟩ := h₅.2 result rfl hsucc
          have hprop : Proposed c₅ id := ⟨p, hp, htxn, by rw [hcmd]; rfl⟩
          rw [spec_bind_ok (rfl : setStatus id .committed c₅ = (.ok (), _)),
            spec_modify_bind, spec_pure]
          have hset : Safe c (setStatus id .committed c₅).2 := trans_of Safe hsafe₅ <|
            safe_setTxn fun t₀ ht₀ => by
              cases ht₅.symm.trans ht₀
              exact ⟨fun _ => ⟨by simp, hreason⟩, fun _ => by simp, fun h => h⟩
          obtain ⟨hsound, hlater⟩ := hset hc
          refine ⟨{ hsound with executor := fun hmem => ?_ }, { hlater with }, fun _ _ => ?_⟩
          · rcases mem_append.1 hmem with hold | hnew
            · exact hsound.executor hold
            · obtain ⟨g, -, hnew⟩ := mem_flatMap.1 hnew
              obtain ⟨row, -, rfl⟩ := mem_map.1 hnew
              exact hprop
          · refine hres.imp (fun hres => ?_) fun hheard => ⟨c₄.calls, ?_⟩
            · refine ⟨_, setTxn_transactions ht₅, p, hp, htxn, ⟨commitTs, ?_⟩, result, hres, hsucc⟩
              rw [hcmd, hkey, hs]
              rfl
            · show (c₅.moments c₄.calls).heard = _
              rw [h₅.1.moments]
              exact hheard
        · exact habort hsafe₅ ht₅
    · have hsafe₅ : Safe c c₅ := hposted h₅.1
      obtain ⟨hsound, hlater⟩ := hsafe₅ hc
      exact ⟨hsound, hlater, nofun⟩

/-- A key has been locked, or none has; the status is still `PENDING`. -/
theorem commitPrewritten_spec (hpending : t.status = .pending) :
    (commitPrewritten id t groups).Spec c fun r c' =>
      Sound c' ∧ Later c c' ∧ ∀ commitTs, r = .ok (true, commitTs) → Trusted c' id := by
  have hnot : ¬ Proposed c id := fun hprop => (hc.decided ht hprop).1 hpending
  have hreason : t.abortReason = none := by
    by_contra hne
    exact hc.refused ht hne hpending
  rw [commitPrewritten, spec_bind_ok (rfl : setStatus id .prewritten c = (.ok (), _))]
  set c₁ := (setStatus id .prewritten c).2 with hc₁
  have ht₁ : c₁.transactions id = some { t with status := .prewritten } := setTxn_transactions ht
  have hsafe₁ : Safe c c₁ := safe_setTxn fun t₀ ht₀ => by
    cases ht.symm.trans ht₀
    exact ⟨fun hprop => absurd hprop hnot, fun _ => by simp, fun h => h⟩
  refine (Spec.of_within (posts_readConflict (P := fun _ _ => False) t) c₁).bind
    (fun conflict c₂ h₂ => ?_) fun e c₂ h₂ => ?_
  · obtain ⟨hsound, hlater⟩ := trans_of Safe hsafe₁ h₂.safe_of_none hc
    have ht₂ : c₂.transactions id = some { t with status := .prewritten } := h₂.transactions ▸ ht₁
    cases conflict with
    | none =>
      refine (commitPrimary_spec hsound ht₂ (by simp) hreason rfl rfl).mono fun r c' hend => ?_
      exact ⟨hend.1, hlater.trans hend.2.1, hend.2.2⟩
    | some text =>
      have hnot₂ : ¬ Proposed c₂ id := by
        intro hprop
        rcases h₂.proposed hprop with hold | ⟨-, hno, -⟩
        · exact hnot hold
        · exact hno
      refine (abort_spec hsound ht₂ fun _ => hnot₂).mono fun r c' hend => ?_
      exact ⟨hend.1, hlater.trans hend.2.1, fun ts h => absurd h (hend.2.2 ts)⟩
  · obtain ⟨hsound, hlater⟩ := trans_of Safe hsafe₁ h₂.safe_of_none hc
    exact ⟨hsound, hlater, nofun⟩

end

/-- **`commit`** keeps the client sound, and where it returns `True` there was nothing to write or
a success was heard of the primary key. -/
theorem commit_spec (hc : Sound c) (id : ℕ) : (commit id).Spec c fun r c' =>
    Sound c' ∧ Later c c' ∧ ∀ commitTs, r = .ok (true, commitTs) →
      ∃ t, c'.transactions id = some t ∧ (t.keys = [] ∨ Trusted c' id) := by
  have hstays : Sound c ∧ Later c c ∧ ∀ commitTs, (.ok (false, none) :
      Except String (Bool × Option ℤ)) = .ok (true, commitTs) →
        ∃ t, c.transactions id = some t ∧ (t.keys = [] ∨ Trusted c id) :=
    ⟨hc, .refl c, nofun⟩
  rw [commit, spec_get_bind]
  cases ht : c.transactions id with
  | none => exact hstays
  | some t =>
    show Spec (if t.status ≠ .pending then _ else _) _ _
    split
    · exact hstays
    next hstatus =>
      have hpending : t.status = .pending := not_not.1 hstatus
      have hnot : ¬ Proposed c id := fun hprop => (hc.decided ht hprop).1 hpending
      split
      · next hkeys =>
        rw [spec_bind_ok (rfl : setTxn id _ c = (.ok (), _)), spec_pure]
        have hset : Safe c (setTxn id (fun t => { t with
            status := .committed, commitTs := some t.startTs }) c).2 :=
          safe_setTxn fun t₀ ht₀ => ⟨fun hprop => absurd hprop hnot, fun _ => by simp, fun h => h⟩
        obtain ⟨hsound, hlater⟩ := hset hc
        exact ⟨hsound, hlater, fun _ _ => ⟨_, setTxn_transactions ht, .inl hkeys⟩⟩
      · refine (Spec.of_within (posts_groupKeysByShard (P := fun _ _ => False) _ _) c).bind
          (fun groups c₁ h₁ => ?_) fun e c₁ h₁ => ?_
        · have ht₁ : c₁.transactions id = some t := h₁.transactions ▸ ht
          have hprewrite : Within (Posts (Harmless id)) (prewriteAllShards id t groups) :=
            posts_prewriteAllShards (fun _ _ => ⟨rfl, nofun⟩)
              (fun _ => ⟨rfl, nofun⟩) groups
          refine (Spec.of_within hprewrite c₁).bind (fun ok c₂ h₂ => ?_) fun e c₂ h₂ => ?_
          · have hsafe₂ : Safe c c₂ := trans_of Safe h₁.safe_of_none (h₂.safe_of_harmless ht₁)
            obtain ⟨hsound, hlater⟩ := hsafe₂ hc
            have ht₂ : c₂.transactions id = some t := h₂.transactions ▸ ht₁
            cases ok with
            | true =>
              refine (commitPrewritten_spec hsound ht₂ hpending).mono fun r c' hend => ?_
              refine ⟨hend.1, hlater.trans hend.2.1, fun ts hts => ?_⟩
              obtain ⟨t', ht', -⟩ := hend.2.1.refused ht₂
              exact ⟨t', ht', .inr (hend.2.2 ts hts)⟩
            | false =>
              show Spec (setStatus id .aborted >>= fun _ => _) _ _
              rw [spec_bind_ok (rfl : setStatus id .aborted c₂ = (.ok (), _)), spec_pure]
              have hset : Safe c₂ (setStatus id .aborted c₂).2 := safe_setTxn fun t₀ ht₀ => by
                exact ⟨fun hprop => ⟨by simp, (hsound.decided ht₀ hprop).2⟩, fun _ => by simp,
                  fun h => h⟩
              obtain ⟨hsound', hlater'⟩ := trans_of Safe hsafe₂ hset hc
              exact ⟨hsound', hlater', nofun⟩
          · have hsafe₂ : Safe c c₂ := trans_of Safe h₁.safe_of_none (h₂.safe_of_harmless ht₁)
            obtain ⟨hsound, hlater⟩ := hsafe₂ hc
            exact ⟨hsound, hlater, nofun⟩
        · obtain ⟨hsound, hlater⟩ := h₁.safe_of_none hc
          exact ⟨hsound, hlater, nofun⟩

/-! ## The other calls -/

/-- `begin` registers a new transaction. -/
theorem safe_begin : Within Safe begin := by
  intro c hc
  show Spec begin c fun _ c' => Sound c' ∧ Later c c'
  rw [begin, spec_modify_bind, spec_get_bind]
  set c₁ : Client := { c with txnIdCounter := c.txnIdCounter + 1 } with hc₁
  have hsound₁ : Sound c₁ :=
    { hc with registered := fun h => (hc.registered h).trans (Nat.le_succ _) }
  refine (Spec.of_within (posts_ask (P := fun _ _ => False) _) c₁).bind (fun startTs c₂ h₂ => ?_)
    fun e c₂ h₂ => ?_
  · rw [spec_modify_bind, spec_pure]
    obtain ⟨hsound, hlater⟩ := h₂.safe_of_none hsound₁
    -- nobody has this id yet
    have hnew : c₂.transactions (c.txnIdCounter + 1) = none := by
      rw [h₂.transactions]
      show c.transactions (c.txnIdCounter + 1) = none
      rcases hget : c.transactions (c.txnIdCounter + 1) with _ | t
      · rfl
      · exact absurd (hc.registered hget) (by omega)
    have hother : ∀ {i t}, c₂.transactions i = some t → i ≠ c.txnIdCounter + 1 := by
      rintro i t ht rfl
      rw [hnew] at ht
      cases ht
    have hnext : ∀ {i t}, c₂.transactions i = some t → update c₂.transactions
        (c.txnIdCounter + 1) (some { startTs := startTs }) i = some t := by
      intro i t ht
      rw [update_of_ne (hother ht), ht]
    refine ⟨⟨fun {i t} ht => ?_, fun hp => ?_, fun {i t} ht hprop => ?_, fun {i t} ht => ?_,
      fun hs => hsound.executor hs⟩, ⟨hlater.moments, hlater.attempts, fun ht => ?_⟩⟩
    · by_cases hi : i = c.txnIdCounter + 1
      · show i ≤ c₂.txnIdCounter
        rw [h₂.txnIdCounter, hi]
      · exact hsound.registered ((update_of_ne hi _ _).symm.trans ht)
    · obtain ⟨t, ht⟩ := hsound.known hp
      exact ⟨t, hnext ht⟩
    · by_cases hi : i = c.txnIdCounter + 1
      · obtain ⟨p, hp, rfl, -⟩ := hprop
        obtain ⟨t', ht'⟩ := hsound.known hp
        exact absurd hi (hother ht')
      · exact hsound.decided ((update_of_ne hi _ _).symm.trans ht) hprop
    · by_cases hi : i = c.txnIdCounter + 1
      · subst hi
        have ht := (update_self ..).symm.trans ht
        cases ht
        exact fun h => absurd rfl h
      · exact hsound.refused ((update_of_ne hi _ _).symm.trans ht)
    · obtain ⟨t', ht', hr⟩ := hlater.refused ht
      exact ⟨t', hnext ht', hr⟩
  · obtain ⟨hsound, hlater⟩ := h₂.safe_of_none hsound₁
    exact ⟨hsound, hlater.moments, hlater.attempts, hlater.refused⟩

theorem safe_ask (f : Moment → A) : Within Safe (ask f) := fun c =>
  (posts_ask f c).safe_of_none

/-- A change of a transaction that touches neither its status nor its abort reason. -/
theorem safe_edit (hstatus : ∀ t, (f t).status = t.status)
    (hreason : ∀ t, (f t).abortReason = t.abortReason) : Within Safe (setTxn id f) := by
  intro c hc
  refine safe_setTxn (fun t ht => ?_) hc
  rw [hstatus, hreason]
  exact ⟨hc.decided ht, hc.refused ht, fun h => h⟩

theorem safe_addWrite (id : ℕ) (key value : Bytes) : Within Safe (addWrite id key value) := by
  refine (Within.get _).bind fun t? => ?_
  cases t? with
  | none => exact .raise _
  | some t =>
    show Within Safe (if _ then _ else _)
    split
    · exact safe_edit (fun _ => rfl) fun _ => rfl
    · exact .raise _

theorem safe_read (id : ℕ) (key : Bytes) : Within Safe (read id key) := by
  refine (Within.get _).bind fun t? => ?_
  cases t? with
  | none => exact .raise _
  | some t =>
    refine (safe_ask _).bind fun value => Within.bind (safe_edit ?_ ?_) fun _ => .pure value
    · exact fun _ => rfl
    · exact fun _ => rfl

theorem safe_setStatus {status : TxnStatus} (h : status ≠ .pending) :
    Within Safe (setStatus id status) := by
  intro c hc
  refine safe_setTxn (fun t ht => ⟨fun hprop => ⟨h, ?_⟩, fun _ => h, fun h => h⟩) hc
  exact (hc.decided ht hprop).2

theorem safe_rollback (id : ℕ) : Within Safe (rollback id) := by
  intro c hc
  show Spec (rollback id) c fun _ c' => Sound c' ∧ Later c c'
  rw [rollback, spec_get_bind]
  cases ht : c.transactions id with
  | none => exact ⟨hc, .refl c⟩
  | some t =>
    show Spec (if t.status = .committed then _ else _) _ _
    have haborted : Within Safe (setStatus id .aborted) := safe_setStatus (by simp)
    split
    · exact ⟨hc, .refl c⟩
    split
    · exact (haborted.bind fun _ => .pure true) c hc
    refine (Spec.of_within (posts_groupKeysByShard (P := fun _ _ => False) _ _) c).bind
      (fun groups c₁ h₁ => ?_) fun e c₁ h₁ => h₁.safe_of_none hc
    have ht₁ : c₁.transactions id = some t := h₁.transactions ▸ ht
    have hback : Within (Posts (Harmless id)) (rollbackAllShards id t groups) :=
      posts_rollbackAllShards (fun _ => ⟨rfl, nofun⟩) groups
    refine (Spec.of_within hback c₁).bind (fun _ c₂ h₂ => ?_) fun e c₂ h₂ => ?_
    · have hsafe₂ : Safe c c₂ := trans_of Safe h₁.safe_of_none (h₂.safe_of_harmless ht₁)
      exact trans_of Safe hsafe₂ ((haborted.bind fun _ => .pure true) c₂) hc
    · exact trans_of Safe h₁.safe_of_none (h₂.safe_of_harmless ht₁) hc

/-- The executor commits a key that is not the primary one. -/
theorem safe_runSecondary (i : ℕ) : Within Safe (runSecondary i) := by
  intro c hc
  show Spec (runSecondary i) c fun _ c' => Sound c' ∧ Later c c'
  rw [runSecondary, spec_get_bind]
  cases hs : c.executor[i]? with
  | none => exact ⟨hc, .refl c⟩
  | some s =>
    have hprop := hc.executor (mem_of_getElem? hs)
    obtain ⟨p, hp, htxn, -⟩ := hprop
    obtain ⟨t, ht⟩ := hc.known hp
    rw [htxn] at ht
    set c₁ : Client := { c with executor := c.executor.eraseIdx i } with hc₁
    have hsound₁ : Sound c₁ := { hc with
      executor := fun h => hc.executor (mem_of_mem_eraseIdx h) }
    have hcommit : Within (Posts fun j _ => j = s.txn)
        (commitKey s.txn s.shard s.key s.startTs s.commitTs) := posts_proposeTo rfl
    have hposts := hcommit c₁
    have hsafe : Safe c₁ _ := hposts.safe <| by
      rintro j cmd rfl
      exact ⟨t, ht, fun _ => hc.decided ht (hc.executor (mem_of_getElem? hs))⟩
    obtain ⟨hsound, hlater⟩ := hsafe hsound₁
    exact ⟨hsound, hlater.moments, hlater.attempts, hlater.refused⟩

/-! ## The client -/

namespace SmartClient

theorem safe_call {p : Client.Method A} (h : Within Safe p) : Within Safe (call p) := h

/-- The transaction is refused: it has an abort reason. -/
def Refused (c : Client) (id : ℕ) : Prop :=
  ∃ t, c.transactions id = some t ∧ t.abortReason ≠ none

/-- A refused transaction does not commit. -/
theorem Refused.not_committed (h : Refused c id) (hc : Sound c) : ¬ PrimaryCommitted c id := by
  obtain ⟨t, ht, hreason⟩ := h
  exact fun hcommitted => hreason (hc.decided ht hcommitted.proposed).2

/-- It stays refused. -/
theorem Refused.later (h : Refused c id) (hlater : Later c c') : Refused c' id := by
  obtain ⟨t, ht, hreason⟩ := h
  obtain ⟨t', ht', hr⟩ := hlater.refused ht
  exact ⟨t', ht', hr hreason⟩

/-- What a `commit` leaves: it returns `True` only where there was nothing to write or a success was
heard of the primary key, and a `SerializationError` is of a refused transaction. -/
def Outcome (id : ℕ) (c : Client) (r : Except Error (Bool × Option ℤ)) (c' : Client) : Prop :=
  Sound c' ∧ Later c c' ∧
    (∀ b commitTs, r = .ok (b, commitTs) → b = true ∧
      ∃ t, c'.transactions id = some t ∧ (t.keys = [] ∨ Trusted c' id)) ∧
    ∀ msg, r = .error (.serialization msg) → Refused c' id

/-- An exception that is not a `SerializationError`. -/
theorem Outcome.of_other (hsound : Sound c') (hlater : Later c c') (msg : String) :
    Outcome id c (.error (.other msg)) c' :=
  ⟨hsound, hlater, nofun, nofun⟩

/-- One attempt. -/
theorem doCommit_spec (hc : Sound c) (id : ℕ) : (doCommit id).Spec c (Outcome id c) := by
  have hcommit : (call (Client.commit id)).Spec c fun r c' => Sound c' ∧ Later c c' ∧
      (∀ commitTs, r = .ok (true, commitTs) →
        ∃ t, c'.transactions id = some t ∧ (t.keys = [] ∨ Trusted c' id)) ∧
      ∀ msg, r ≠ .error (.serialization msg) := by
    obtain ⟨hsound, hlater, hok⟩ := commit_spec hc id
    refine ⟨hsound, hlater, fun commitTs hts => ?_, fun msg hmsg => ?_⟩
    · refine hok commitTs ?_
      simp only [call] at hts
      split at hts
      · next hr => rw [hr, Except.ok.inj hts]
      · cases hts
    · simp only [call] at hmsg
      split at hmsg <;> cases hmsg
  refine hcommit.bind (fun result c₁ h₁ => ?_) fun e c₁ h₁ => ?_
  · obtain ⟨hsound, hlater, hok, -⟩ := h₁
    show Spec (if result.1 = true then _ else _) _ _
    split
    · next htrue =>
      refine ⟨hsound, hlater, fun b commitTs hr => ?_, nofun⟩
      cases hr
      exact ⟨htrue, hok commitTs (by rw [← htrue])⟩
    · rw [spec_get_bind]
      cases ht : c₁.transactions id with
      | none => exact .of_other hsound hlater _
      | some t =>
        cases hreason : t.abortReason with
        | none =>
          simp only [hreason]
          exact .of_other hsound hlater _
        | some reason =>
          simp only [hreason]
          refine spec_raise.2 ⟨hsound, hlater, fun _ _ h => ?_, fun _ _ => ⟨t, ht, by simp [hreason]⟩⟩
          cases h
  · obtain ⟨hsound, hlater, -, hplain⟩ := h₁
    cases e with
    | other msg => exact .of_other hsound hlater msg
    | serialization msg => exact absurd rfl (hplain msg)

theorem Outcome.trans {r : Except Error (Bool × Option ℤ)} (h : Later c c')
    (h' : Outcome id c' r c'') : Outcome id c r c'' :=
  ⟨h'.1, h.trans h'.2.1, h'.2.2⟩

/-- By induction on the attempts: each starts where the last one ended. -/
theorem retryWithBackoff_spec (id : ℕ) (attempts : ℕ) (msg : String) (hc : Sound c) :
    (retryWithBackoff (doCommit id) attempts (.other msg)).Spec c (Outcome id c) := by
  induction attempts generalizing c msg with
  | zero => exact .of_other hc (.refl c) msg
  | succ attempts ih =>
    rw [retryWithBackoff, spec_bind, spec_attempt]
    refine (doCommit_spec hc id).mono fun r c₁ h₁ => ?_
    match r with
    | .ok a => exact h₁
    | .error (.serialization msg') => exact h₁
    | .error (.other msg') => exact (ih msg' h₁.1).mono fun r c₂ h₂ => .trans h₁.2.1 h₂

theorem commit_outcome (hc : Sound c) (id : ℕ) : (commit id).Spec c (Outcome id c) :=
  retryWithBackoff_spec id retryMaxAttempts _ hc

theorem safe_commit (id : ℕ) : Within Safe (commit id) := fun _ hc =>
  have h := commit_outcome hc id
  ⟨h.1, h.2.1⟩

/-- Every request keeps the client sound, -/
theorem safe_request (r : Request) : Within Safe r.perform := by
  cases r with
  | begin => exact (safe_call safe_begin).bind fun _ => .pure _
  | addWrite id key value => exact (safe_call (safe_addWrite id key value)).bind fun _ => .pure _
  | read id key => exact (safe_call (safe_read id key)).bind fun _ => .pure _
  | commit id => exact (safe_commit id).bind fun _ => .pure _
  | rollback id => exact (safe_call (safe_rollback id)).bind fun _ => .pure _
  | other => exact (safe_call (safe_ask _)).bind fun _ => .pure _
  | background i => exact (safe_call (safe_runSecondary i)).bind fun _ => .pure _

/-- and so does what its threads do. -/
theorem safe_work (work : Work) : Within Safe work.perform := by
  induction work with
  | done => exact .pure _
  | raise e => exact .raise e
  | request r next ih => exact (safe_request r).attempt.bind fun answer => ih answer

/-- What a `run` leaves: every transaction it has begun but the last is refused, and if it returns
`True`, the last had nothing to write or a success was heard of its primary key. -/
theorem run_spec (work : ℕ → Work) (attempts : ℕ) (lastError : Error) (hc : Sound c) :
    (run work attempts lastError).Spec c fun r c' => Sound c' ∧ c'.moments = c.moments ∧
      (∀ i, Refused c i → Refused c' i) ∧ ∃ ids, c'.attempts = c.attempts ++ ids ∧
        (∀ i ∈ ids.dropLast, Refused c' i) ∧
        (r = .ok true → ∃ last, ids.getLast? = some last ∧
          ∃ t, c'.transactions last = some t ∧ (t.keys = [] ∨ Trusted c' last)) := by
  induction attempts generalizing c lastError with
  | zero => exact ⟨hc, rfl, fun _ h => h, [], (append_nil _).symm, by simp, nofun⟩
  | succ attempts ih =>
    refine (Spec.of_within (safe_call safe_begin) c).bind (fun id c₁ h₁ => ?_) fun e c₁ h₁ => ?_
    · obtain ⟨hsound₁, hlater₁⟩ := h₁ hc
      rw [spec_modify_bind]
      set c₂ : Client := { c₁ with attempts := c₁.attempts ++ [id] } with hc₂
      have hsound₂ : Sound c₂ := { hsound₁ with }
      have hrefused₂ : ∀ {i}, Refused c i → Refused c₂ i := fun {i} h =>
        (h.later hlater₁ : Refused c₁ i)
      have hids : c₂.attempts = c.attempts ++ [id] := by rw [hc₂, hlater₁.attempts]
      -- it ends with this transaction, and without a commit
      have hends : ∀ {r : Except Error Bool} {c₃}, Sound c₃ → Later c₂ c₃ →
          (r = .ok true → ∃ t, c₃.transactions id = some t ∧
            (t.keys = [] ∨ Trusted c₃ id)) →
          Sound c₃ ∧ c₃.moments = c.moments ∧ (∀ i, Refused c i → Refused c₃ i) ∧
            ∃ ids, c₃.attempts = c.attempts ++ ids ∧ (∀ i ∈ ids.dropLast, Refused c₃ i) ∧
            (r = .ok true → ∃ last, ids.getLast? = some last ∧
              ∃ t, c₃.transactions last = some t ∧ (t.keys = [] ∨ Trusted c₃ last)) :=
        fun hsound hlater hr => ⟨hsound, hlater.moments.trans hlater₁.moments, fun _ h => (hrefused₂ h).later hlater, [id],
          hlater.attempts.trans hids, by simp, fun h => ⟨id, rfl, hr h⟩⟩
      refine (Spec.of_within (safe_work (work id)) c₂).bind (fun _ c₃ h₃ => ?_) fun e c₃ h₃ => ?_
      · obtain ⟨hsound₃, hlater₃⟩ := h₃ hsound₂
        rw [spec_bind, spec_attempt]
        refine (commit_outcome hsound₃ id).mono fun r c₄ h₄ => ?_
        obtain ⟨hsound₄, hlater₄, hok, hser⟩ := h₄
        have hlater := hlater₃.trans hlater₄
        match r with
        | .ok (true, commitTs) => exact hends hsound₄ hlater fun _ => (hok true commitTs rfl).2
        | .ok (false, commitTs) => exact absurd (hok false commitTs rfl).1 (by simp)
        | .error (.other msg) => exact hends hsound₄ hlater nofun
        | .error (.serialization msg) =>
          -- the transaction is refused, and stays so while the rest of the attempts is made
          refine (ih (.serialization msg) hsound₄).mono fun r c₅ h₅ => ?_
          obtain ⟨hsound₅, hmoments, hrefused₅, ids, hattempts, hrest, hlast⟩ := h₅
          have hid : Refused c₅ id := hrefused₅ id (hser msg rfl)
          refine ⟨hsound₅, hmoments.trans (hlater.moments.trans hlater₁.moments),
            fun i h => hrefused₅ i ((hrefused₂ h).later hlater), id :: ids, ?_, ?_, ?_⟩
          · rw [hattempts, hlater.attempts, hids, append_assoc]
            rfl
          · intro i hi
            cases ids with
            | nil => cases hi
            | cons i' ids =>
              rcases mem_cons.1 hi with rfl | hi
              · exact hid
              · exact hrest i hi
          · intro hr
            obtain ⟨last, hget, hcommitted⟩ := hlast hr
            cases ids with
            | nil => cases hget
            | cons i' ids => exact ⟨last, by rw [getLast?_cons_cons, hget], hcommitted⟩
      · obtain ⟨hsound₃, hlater₃⟩ := h₃ hsound₂
        exact hends hsound₃ hlater₃ nofun
    · obtain ⟨hsound₁, hlater₁⟩ := h₁ hc
      exact ⟨hsound₁, hlater₁.moments, fun _ h => h.later hlater₁, [], by simp [hlater₁.attempts], by simp,
        nofun⟩

theorem sound_init (shards : ℕ → MVCCStateMachine) (moments : ℕ → Moment) (validateReads : Bool) :
    Sound (init shards moments validateReads) where
  registered h := by cases h
  known h := by cases h
  decided h := by cases h
  refused h := by cases h
  executor h := by cases h

/-- A key is read, and in the first attempt somebody has committed it since. -/
example :
    let moments : ℕ → Moment := fun n =>
      { shard := fun _ => some 0, timestamp := n, record := if n < 10 then some ⟨3, 9⟩ else none }
    let work : ℕ → Work := fun id =>
      .request (.read id [3]) fun _ => .request (.addWrite id [1] [7]) fun _ => .done
    let ended := run work 2 noError (init (fun _ => .empty) moments true)
    ended.1 = .ok true ∧ ended.2.attempts = [1, 2] := ⟨rfl, rfl⟩

/-- The commit of the primary key, call number 7, is lost, and is answered with success. -/
def lostCommit : ℕ → Moment := fun n =>
  { shard := fun _ => some 0, timestamp := n, heard := if n = 7 then .presumed else .answer 0 }

end SmartClient
end OxideDB.Client
