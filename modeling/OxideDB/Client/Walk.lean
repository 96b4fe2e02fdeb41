import OxideDB.Client.Routing

/-!
# How long a walk is

`askShard` ends, whatever the nodes answer and whatever the tables say, as long as the addresses are
finitely many: within a round every turn uses up an address that was not asked, or a place in the
queue.  (An address may be asked twice in a round: a refusal that names one that waits in the queue has
it asked at once, and it stays in the queue.)
-/

namespace OxideDB.Routing

open Program List Function

variable {elsewhere : Bool} {l l' : List Visit} {c : NodeClient} {hint : Option Address}
  {first : Option NodeClient} {B C : Type} {n : ℕ}

/-! ## Visits -/

/-- The addresses asked since the last read of the table, after one more visit. -/
def Visit.since (seen : List Address) : Visit → List Address
  | .read => []
  | .asked (some a) => a :: seen
  | _ => seen

/-- The address has been asked since the last read of the table. -/
def Visit.repeats (seen : List Address) : Visit → Bool
  | .asked (some a) => a ∈ seen
  | _ => false

def Visit.isAsked : Visit → Bool
  | .asked _ => true
  | _ => false

def sinceRead (seen : List Address) (l : List Visit) : List Address := l.foldl Visit.since seen

/-- Visits in which nobody is asked. -/
def Quiet (l : List Visit) : Prop := ∀ v ∈ l, v.isAsked = false

theorem Quiet.append (h : Quiet l) (h' : Quiet l') : Quiet (l ++ l') := by
  intro v hv
  rcases mem_append.1 hv with hv | hv
  · exact h v hv
  · exact h' v hv

/-! ## What every method has -/

variable {X A : Type} [Answer A] {cfg : Setup} {shard : ℤ} {s s' : ShardLeaders X}

/-- Only the hints, the queues and what was asked have changed, and what has come in can be opened. -/
structure Rearranged (cfg : Setup) (s s' : ShardLeaders X) : Prop where
  table : s'.table = s.table
  moments : s'.moments = s.moments
  trace : s'.trace = s.trace
  outside : s'.outside = s.outside
  hint (i : ℤ) (a : Address) : s'.hints i = some a → s.hints i = some a ∨ (cfg.getClientAt i a).isSome
  queue (i : ℤ) : ∀ a ∈ s'.queued i, a ∈ s.queued i ∨ (cfg.getClientAt i a).isSome

namespace Rearranged

theorem noteAsked (s : ShardLeaders X) (shard : ℤ) (a : Address) :
    Rearranged cfg s (s.noteAsked shard a) :=
  ⟨rfl, rfl, rfl, rfl, fun _ _ => .inl, fun _ _ => .inl⟩

theorem refl (s : ShardLeaders X) : Rearranged cfg s s :=
  ⟨rfl, rfl, rfl, rfl, fun _ _ => .inl, fun _ _ => .inl⟩

theorem trans {s'' : ShardLeaders X} (h : Rearranged cfg s s') (h' : Rearranged cfg s' s'') :
    Rearranged cfg s s'' where
  table := h'.table.trans h.table
  moments := h'.moments.trans h.moments
  trace := h'.trace.trans h.trace
  outside := h'.outside.trans h.outside
  hint i a ha := (h'.hint i a ha).elim (h.hint i a) .inr
  queue i a ha := (h'.queue i a ha).elim (h.queue i a) .inr

theorem setHint (s : ShardLeaders X) (h : ∀ a, hint = some a → (cfg.getClientAt shard a).isSome) :
    Rearranged cfg s (s.setHint shard hint) where
  table := rfl
  moments := rfl
  trace := rfl
  outside := rfl
  hint := (forall_update_iff s.hints (p := fun i hint => ∀ a, hint = some a →
    s.hints i = some a ∨ (cfg.getClientAt i a).isSome)).2 ⟨fun a ha => .inr (h a ha), fun _ _ _ => .inl⟩
  queue _ _ := .inl

theorem setQueued {queue : List Address}
    (h : ∀ a ∈ queue, a ∈ s.queued shard ∨ (cfg.getClientAt shard a).isSome) :
    Rearranged cfg s (s.setQueued shard queue) where
  table := rfl
  moments := rfl
  trace := rfl
  outside := rfl
  hint _ _ := .inl
  queue := (forall_update_iff s.queued (p := fun i queue => ∀ a ∈ queue,
    a ∈ s.queued i ∨ (cfg.getClientAt i a).isSome)).2 ⟨h, fun _ _ _ => .inl⟩

theorem dropHint (s : ShardLeaders X) (shard : ℤ) : Rearranged cfg s (s.setHint shard none) :=
  setHint s nofun

theorem forgetShard (s : ShardLeaders X) (shard : ℤ) : Rearranged cfg s (s.forgetShard shard) := by
  have hqueue : Rearranged cfg (s.setHint shard none) ((s.setHint shard none).setQueued shard []) :=
    setQueued nofun
  have hasked : Rearranged cfg ((s.setHint shard none).setQueued shard []) (s.forgetShard shard) :=
    ⟨rfl, rfl, rfl, rfl, fun _ _ => .inl, fun _ _ => .inl⟩
  exact ((dropHint s shard).trans hqueue).trans hasked

theorem popQueued (queue : List Address) (hs : s.queued shard = queue) :
    Rearranged cfg s (Routing.popQueued cfg shard queue s).2 := by
  induction queue generalizing s with
  | nil => exact refl s
  | cons a rest ih =>
    have hrest : ((s.setQueued shard rest).noteAsked shard a).queued shard = rest :=
      update_self ..
    have hstep : Rearranged cfg s ((s.setQueued shard rest).noteAsked shard a) := by
      refine (setQueued fun b hb => .inl ?_).trans (noteAsked _ shard a)
      rw [hs]
      exact mem_cons_of_mem _ hb
    rw [Routing.popQueued]
    rcases cfg.getClientAt shard a with _ | c
    · exact hstep.trans (ih hrest)
    · exact hstep

end Rearranged

/-- What lookups in the table are put together from has the property `K`, that comes with the number
of reads of the table a method may make. -/
structure Lookups (K : ∀ B : Type, ℕ → Method X B → Prop) : Prop where
  pure {B : Type} {n : ℕ} (b : B) : K B n (pure b)
  bind {B C : Type} {n m : ℕ} {p : Method X B} {f : B → Method X C} :
    K B n p → (∀ b, K C m (f b)) → K C (n + m) (p >>= f)
  next : K _ 0 next
  refresh : K _ 1 refresh
  table : K _ 0 table
  reread : K _ 0 refreshIfItCouldHaveChanged

/-- The same of all that the methods of a client are put together from. -/
structure Passes (cfg : Setup) (K : ∀ B : Type, ℕ → Method X B → Prop) : Prop extends Lookups K where
  raise {B : Type} {n : ℕ} (r : Raised) : K B n (raise r)
  rearrange {B : Type} {p : Method X B} : (∀ s, Rearranged cfg s (p s).2) → K B 0 p
  asked (a : Option Address) : K _ 0 (modify (·.visit (.asked a)))
  refused (hint : Option Address) (shard : ℤ) :
    K _ 0 (modify fun s => s.visit (.refused hint (s.queued shard)))

variable {K : ∀ B : Type, ℕ → Method X B → Prop}
variable {f : B → Method X C} {p : Method X B} {s₁ : ShardLeaders X}
  {again : ℕ → Option A → Method X (Option (Option A))}

namespace Lookups

variable (h : Lookups K)
include h

theorem free (hp : K B 0 p) (hf : ∀ b, K C n (f b)) : K C n (p >>= f) := by
  have := h.bind hp hf
  rwa [Nat.zero_add] at this

theorem clientFor : K _ 0 (Routing.clientFor shard) :=
  h.free h.table fun t => by
    rcases t.shards.get? shard with _ | p
    · exact h.pure _
    dsimp only
    rcases p.leaderId with _ | leader
    · exact h.pure _
    · exact h.free h.next fun _ => h.pure _

theorem namedLeader : K _ 0 (Routing.namedLeader shard) :=
  h.free h.clientFor fun c => by
    cases c with
    | some c => exact h.pure _
    | none => exact h.free h.reread fun _ => h.clientFor

theorem knownAddresses : K _ 0 (Routing.knownAddresses cfg shard) := by
  rw [Routing.knownAddresses]
  split
  · exact h.free h.table fun _ => h.pure _
  · exact h.pure _

theorem anyReplicaFor : K _ 0 (Routing.anyReplicaFor cfg shard) :=
  h.free h.table fun t => by
    rcases t.shards.get? shard with _ | p
    · exact h.pure _
    dsimp only
    split
    · exact h.pure _
    · exact h.free h.next fun _ => h.pure _

theorem shardForKey (cfg : Setup) (key : Raft.Bytes) : K _ 0 (Routing.shardForKey cfg key) := by
  rw [Routing.shardForKey]
  split
  · exact h.free h.table fun _ => h.pure _
  · exact h.free h.next fun _ => h.pure _

end Lookups

namespace Passes

variable (h : Passes cfg K)
include h

theorem get (f : ShardLeaders X → B) : K _ 0 (Program.get f) :=
  h.rearrange fun s => .refl s

theorem handOut (c : NodeClient) : K _ 0 (Routing.handOut shard c) := by
  rw [Routing.handOut]
  rcases c.address with _ | a
  · exact h.pure _
  · exact h.free (h.rearrange fun s => .noteAsked s shard a) fun _ => h.pure _

theorem placedLeader : K _ 0 (Routing.placedLeader cfg shard) := by
  rw [Routing.placedLeader]
  split
  · refine h.free h.namedLeader fun c => ?_
    rcases c with _ | c
    · exact h.pure _
    · exact h.free (h.handOut c) fun _ => h.pure _
  · exact h.free h.next fun _ => h.pure _

theorem leaderForShard : K _ 0 (Routing.leaderForShard cfg shard) := by
  refine h.free (h.get _) fun hint => h.free (h.rearrange fun s => .dropHint s shard) fun _ => ?_
  split
  · next a c _ => exact h.free (h.rearrange fun s => .noteAsked s shard a) fun _ => h.pure _
  refine h.free (h.rearrange fun s => .popQueued (s.queued shard) rfl) fun c => ?_
  rcases c with _ | c
  · exact h.placedLeader
  · exact h.pure _

theorem firstOrLeader (first : Option NodeClient) : K _ 0 (Routing.firstOrLeader cfg shard first) := by
  rcases first with _ | c
  · exact h.leaderForShard
  · exact h.pure _

theorem replicaForShard : K _ 0 (Routing.replicaForShard cfg shard) := by
  rw [Routing.replicaForShard]
  split
  · refine h.free h.anyReplicaFor fun c => ?_
    rcases c with _ | c
    · exact h.pure _
    · exact h.free (h.handOut c) fun _ => h.pure _
  · exact h.pure _

theorem queueReplicas : K _ 0 (Routing.queueReplicas cfg shard) := by
  refine h.free h.knownAddresses fun addresses => h.rearrange fun s => .setQueued fun a ha => ?_
  rcases mem_append.1 ha with ha | ha
  · exact .inl ha
  · exact .inr (mem_filter.1 (mem_filter.1 ha).1).2

theorem rememberNamed (hint : Option Address) : K _ 0 (Routing.rememberNamed cfg shard hint) := by
  rcases hint with _ | a
  · exact h.pure _
  refine h.free (h.get _) fun asked => ?_
  split
  · exact h.pure _
  split
  · exact h.pure _
  next hopen =>
  refine h.free (h.rearrange fun s => .setHint s fun b hb => ?_) fun _ => h.pure _
  cases hb
  rw [Option.isSome_iff_ne_none]
  exact fun hnone => hopen (by rw [hnone]; rfl)

theorem refusedWith (hint : Option Address) : K _ 0 (Routing.refusedWith cfg shard hint) := by
  refine h.free (h.rememberNamed hint) fun remembered => ?_
  split
  · exact h.pure _
  · exact h.queueReplicas

theorem refreshForShard : K _ 1 (Routing.refreshForShard cfg shard) := by
  refine h.free (h.rearrange fun s => .forgetShard s shard) fun _ => ?_
  split
  · exact h.bind (m := 0) h.refresh fun _ => h.pure _
  · exact h.pure _

variable {question : NodeClient → Method X (Option A)} (hq : ∀ c, K _ 0 (question c).attempt)
include hq

theorem turn (first : Option NodeClient) (lastAnswer : Option A) :
    K _ 0 (Routing.turn cfg shard question first lastAnswer) := by
  refine h.free (h.firstOrLeader first) fun client => ?_
  rcases client with _ | c
  · exact h.pure _
  refine h.free (h.asked _) fun _ => h.free (hq c) fun r => ?_
  split
  · exact h.free (h.rearrange fun s => .forgetShard s shard) fun _ => h.pure _
  · exact h.raise _
  · exact h.free (h.refused _ shard) fun _ => h.free (h.refusedWith _) fun _ => h.pure _

omit hq [Answer A] in
theorem goOn (hagain : ∀ n answer, K _ n (again n answer)) (readsLeft : ℕ) (t : Turn A) :
    K _ readsLeft (Routing.goOn cfg shard again readsLeft t) := by
  rcases t with answer | ⟨answer, raised, _ | _⟩
  · exact h.pure _
  · rcases readsLeft with _ | readsLeft
    · rcases raised with _ | r
      · exact h.pure _
      · exact h.raise _
    · have hread : K _ 1 (Routing.refreshForShard cfg shard) := h.refreshForShard
      have hrest := h.bind hread fun _ => hagain readsLeft answer
      rwa [Nat.add_comm] at hrest
  · exact hagain readsLeft answer

theorem walk (fuel : ℕ) (first : Option NodeClient) (readsLeft : ℕ) (lastAnswer : Option A) :
    K _ readsLeft (Routing.walk cfg shard question fuel first readsLeft lastAnswer) := by
  induction fuel generalizing first readsLeft lastAnswer with
  | zero => exact h.pure _
  | succ fuel ih =>
    exact h.free (h.turn hq first lastAnswer) fun t => h.goOn (fun n answer => ih none n answer) _ t

end Passes

/-- A read of the table, that comes back or does not. -/
theorem refresh_spec {Q : Except Raised Metadata.RoutingTable → ShardLeaders X → Prop}
    (hok : ∀ t, (s.moments s.calls).table = .ok t →
      Q (.ok t) { s.visit .read with calls := s.calls + 1, table := some t })
    (herr : ∀ e, Q (.error e) { s.visit .read with calls := s.calls + 1 }) : refresh.Spec s Q := by
  simp only [Spec, refresh, bind, next, Program.modify]
  rcases hm : (s.moments s.calls).table with msg | t
  · exact herr _
  · exact hok t hm

/-- The steps of a lookup, kept by `R`. -/
structure Steps (R : ShardLeaders X → ShardLeaders X → Prop) : Prop where
  next (s : ShardLeaders X) : R s { s with calls := s.calls + 1 }
  visit (s : ShardLeaders X) (v : Visit) : v.isAsked = false → R s (s.visit v)
  hold (s : ShardLeaders X) (k : ℕ) (t : Metadata.RoutingTable) :
    (s.moments k).table = .ok t → R s { s with table := some t }

/-- The steps of every method, kept by `R`. -/
structure Moves (cfg : Setup) (R : ShardLeaders X → ShardLeaders X → Prop) : Prop extends Steps R where
  ask (s : ShardLeaders X) (a : Option Address) : R s (s.visit (.asked a))
  rearrange (s s' : ShardLeaders X) : Rearranged cfg s s' → R s s'

section Within

variable {R : ShardLeaders X → ShardLeaders X → Prop} [IsPreorder (ShardLeaders X) R]

theorem Steps.refresh (h : Steps R) : Within R (refresh : Method X _) := by
  intro s
  have hread := trans_of R (h.next s) (h.visit _ .read rfl)
  exact refresh_spec (Q := fun _ s' => R s s')
    (fun t hm => trans_of R hread (h.hold _ s.calls t hm)) fun _ => hread

theorem Steps.lookups (h : Steps R) : Lookups fun _ _ p => Within R p where
  pure b := .pure b
  bind hp hf := hp.bind hf
  next := h.next
  refresh := h.refresh
  table := (Within.get _).bind fun t => by
    cases t with
    | some t => exact .pure _
    | none => exact h.refresh
  reread := Within.bind h.next fun m => by
    split
    · exact (Within.modify fun s => h.visit s _ rfl).bind fun _ => h.refresh.bind fun _ => .pure _
    · exact .pure _

theorem Moves.passes (h : Moves cfg R) : Passes cfg fun _ _ p => Within R p where
  toLookups := h.lookups
  raise r := .raise r
  rearrange hp s := h.rearrange s _ (hp s)
  asked a := .modify fun s => h.ask s a
  refused _ _ := .modify fun s => h.visit s _ rfl

end Within

/-! ## What a lookup in the table leaves -/

/-- Nobody has been asked. -/
def Quietly (s s' : ShardLeaders X) : Prop := ∃ l, s'.trace = s.trace ++ l ∧ Quiet l

theorem Quietly.of_eq (h : s'.trace = s.trace) : Quietly s s' :=
  ⟨[], by rw [h, append_nil], nofun⟩

/-- A lookup: nobody is asked, and what the client holds about the shards stays. -/
structure Glance (s s' : ShardLeaders X) : Prop where
  hints : s'.hints = s.hints
  queued : s'.queued = s.queued
  asked : s'.asked = s.asked
  moments : s'.moments = s.moments
  table : s'.table = s.table ∨ ∃ k t, (s.moments k).table = .ok t ∧ s'.table = some t
  trace : Quietly s s'

theorem Glance.trans {s₂ s₃ : ShardLeaders X} (h : Glance s₁ s₂) (h' : Glance s₂ s₃) :
    Glance s₁ s₃ where
  hints := h'.hints.trans h.hints
  queued := h'.queued.trans h.queued
  asked := h'.asked.trans h.asked
  moments := h'.moments.trans h.moments
  table := by
    rcases h'.table with ht | ⟨k, t, hk, ht⟩
    · rw [ht]; exact h.table
    · exact .inr ⟨k, t, by rw [← h.moments]; exact hk, ht⟩
  trace := by
    obtain ⟨l, hl, hq⟩ := h.trace
    obtain ⟨l', hl', hq'⟩ := h'.trace
    exact ⟨l ++ l', by rw [hl', hl, append_assoc], hq.append hq'⟩

instance : IsPreorder (ShardLeaders X) Glance where
  refl _ := ⟨rfl, rfl, rfl, rfl, .inl rfl, .of_eq rfl⟩
  trans _ _ _ := .trans

theorem steps_glance : Steps (X := X) Glance where
  next _ := ⟨rfl, rfl, rfl, rfl, .inl rfl, .of_eq rfl⟩
  visit _ v hv :=
    ⟨rfl, rfl, rfl, rfl, .inl rfl, [v], rfl, fun _ h => by rw [mem_singleton.1 h]; exact hv⟩
  hold _ k t hk := ⟨rfl, rfl, rfl, rfl, .inr ⟨k, t, hk, rfl⟩, .of_eq rfl⟩

/-- Nothing has changed about the shards but the table, which may have been read. -/
structure Aside (s s' : ShardLeaders X) : Prop extends Glance s s' where
  same : s'.trace = s.trace

instance : IsPreorder (ShardLeaders X) Aside where
  refl s := ⟨refl_of Glance s, rfl⟩
  trans _ _ _ h h' := ⟨h.toGlance.trans h'.toGlance, h'.same.trans h.same⟩

/-- The question leaves what the client holds about the shards alone; it may read the table. -/
def Bystander (question : NodeClient → Method X (Option A)) : Prop :=
  ∀ c, Within Aside (question c)

variable {question : NodeClient → Method X (Option A)}

/-! ## What a refusal leaves -/

/-- The table lists no other addresses for the shard. -/
def Lists (shard : ℤ) (names : Finset Address) (t : Metadata.RoutingTable) : Prop :=
  ∀ p, t.shards.get? shard = some p → ∀ a ∈ replicaAddresses p, a ∈ names

/-- No other addresses are listed in the table that is held, and in those that will be read. -/
structure Known (shard : ℤ) (names : Finset Address) (s : ShardLeaders X) : Prop where
  held (t : Metadata.RoutingTable) : s.table = some t → Lists shard names t
  coming (k : ℕ) (t : Metadata.RoutingTable) : (s.moments k).table = .ok t → Lists shard names t

variable {names : Finset Address}

theorem Known.congr (h : Known shard names s) (ht : s'.table = s.table)
    (hm : s'.moments = s.moments) : Known shard names s' :=
  ⟨fun t hs => h.held t (ht ▸ hs), fun k t hk => h.coming k t (hm ▸ hk)⟩

/-- What is known stays known. -/
theorem Known.glance (h : Known shard names s) (hg : Glance s s') : Known shard names s' where
  held t ht := by
    rcases hg.table with heq | ⟨k, t', hk, heq⟩
    · exact h.held t (heq ▸ ht)
    · rw [heq, Option.some.injEq] at ht
      exact ht ▸ h.coming k t' hk
  coming k t hk := h.coming k t (by rw [← hg.moments]; exact hk)

theorem nodup_addAddress {p : Metadata.ShardPlacement} {addresses : List Address} (node : ℤ)
    (h : addresses.Nodup) : (addAddress p addresses node).Nodup := by
  rw [addAddress]
  split
  · next a ha =>
    split
    · exact h
    · next hmem => exact List.Nodup.append h (nodup_singleton a) (by simpa using hmem)
  · exact h

/-- No replica is named twice. -/
theorem nodup_replicaAddresses (p : Metadata.ShardPlacement) : (replicaAddresses p).Nodup := by
  have hfold : ∀ (nodes : List ℤ) (addresses : List Address), addresses.Nodup →
      (nodes.foldl (addAddress p) addresses).Nodup := by
    intro nodes
    induction nodes with
    | nil => exact fun _ h => h
    | cons node nodes ih => exact fun addresses h => ih _ (nodup_addAddress node h)
  exact hfold _ _ (by rcases p.leaderAddress with _ | a <;> simp)

/-- The table that is returned is held. -/
theorem table_spec : (table : Method X _).Spec s fun r s' => ∀ t, r = .ok t → s'.table = some t := by
  rw [table, spec_get_bind]
  rcases ht : s.table with _ | t
  · exact refresh_spec (fun t _ t' h => by cases h; rfl) fun _ => nofun
  · exact fun t' h => by cases h; exact ht

/-- They are names of the shard. -/
theorem knownAddresses_spec (hk : Known shard names s) :
    (knownAddresses cfg shard : Method X _).Spec s fun r _ =>
      ∀ as, r = .ok as → as.Nodup ∧ ∀ a ∈ as, a ∈ names := by
  rw [knownAddresses]
  split
  · refine ((Spec.of_within steps_glance.lookups.table s).and table_spec).bind (fun t s' h => ?_)
      fun e s' _ as h => by cases h
    have hlists := (hk.glance h.1).held t (h.2 t rfl)
    intro as has
    cases has
    rcases hp : t.shards.get? shard with _ | p
    · exact ⟨nodup_nil, fun a ha => absurd ha not_mem_nil⟩
    · exact ⟨nodup_replicaAddresses p, hlists p hp⟩
  · exact fun as h => by cases h; exact ⟨nodup_nil, fun a ha => absurd ha not_mem_nil⟩

/-- After a refusal that names `hint`: there is an address to ask that was not asked, or the replicas
the table lists have joined the queue. -/
structure Refused (cfg : Setup) (shard : ℤ) (names : Finset Address) (hint : Option Address)
    (s s' : ShardLeaders X) (elsewhere : Bool) : Prop where
  asked : s'.asked shard = s.asked shard
  known : Known shard names s'
  left : (∃ h, hint = some h ∧ elsewhere = true ∧ s'.hints shard = some h ∧ h ∉ s.asked shard ∧
      (cfg.getClientAt shard h).isSome ∧ s'.queued shard = s.queued shard) ∨
    (s'.hints shard = s.hints shard ∧ (elsewhere = true ↔ s'.queued shard ≠ []) ∧
      ∃ waiting, s'.queued shard = s.queued shard ++ waiting ∧ waiting.Nodup ∧
        ∀ a ∈ waiting, a ∉ s.asked shard ∧ a ∉ s.queued shard ∧ (cfg.getClientAt shard a).isSome ∧
          a ∈ names)

theorem Refused.congr (h : Refused cfg shard names hint s₁ s' elsewhere) (hh : s₁.hints = s.hints)
    (hq : s₁.queued = s.queued) (ha : s₁.asked = s.asked) :
    Refused cfg shard names hint s s' elsewhere := by
  obtain ⟨hasked, hknown, hleft⟩ := h
  rw [ha] at hasked hleft
  rw [hh, hq] at hleft
  exact ⟨hasked, hknown, hleft⟩

/-- The replicas that were not asked are queued. -/
theorem queueReplicas_spec (hk : Known shard names s) (hint : Option Address) :
    (queueReplicas cfg shard : Method X _).Spec s fun r s' =>
      Quietly s s' ∧
      ∀ elsewhere, r = .ok elsewhere → Refused cfg shard names hint s s' elsewhere := by
  refine ((Spec.of_within steps_glance.lookups.knownAddresses s).and (knownAddresses_spec hk)).bind
    (fun as s' h => ?_) fun e s' h => ⟨h.1.trace, nofun⟩
  obtain ⟨hg, has⟩ := h
  obtain ⟨hnodup, hnames⟩ := has as rfl
  rw [spec_get_bind, spec_get_bind, spec_modify_bind, spec_pure, hg.asked, hg.queued]
  refine ⟨hg.trace, fun elsewhere he => ?_⟩
  cases he
  have hkn := hk.glance hg
  refine ⟨by rw [← hg.asked]; rfl, ⟨hkn.held, hkn.coming⟩, .inr ⟨by rw [← hg.hints]; rfl, ?_, _,
    update_self .., (hnodup.filter _).filter _, fun a ha => ?_⟩⟩
  · simp [ShardLeaders.setQueued]
  · simp only [mem_filter, decide_eq_true_eq] at ha
    exact ⟨ha.2.1, ha.2.2, ha.1.2, hnames a ha.1.1⟩

/-- The hint is remembered, or the replicas are queued. -/
theorem refusedWith_spec (hk : Known shard names s) (hint : Option Address) :
    (refusedWith cfg shard hint : Method X _).Spec s fun r s' =>
      Quietly s s' ∧
      ∀ elsewhere, r = .ok elsewhere → Refused cfg shard names hint s s' elsewhere := by
  rcases hint with _ | h
  · exact queueReplicas_spec hk none
  rw [refusedWith, rememberNamed, rememberHint, spec_bind, spec_get_bind]
  by_cases hasked : h ∈ s.asked shard
  · rw [if_pos hasked]
    exact queueReplicas_spec hk _
  rw [if_neg hasked]
  rcases hopen : cfg.getClientAt shard h with _ | c
  · exact queueReplicas_spec hk _
  refine ⟨.of_eq rfl, fun elsewhere he => ?_⟩
  cases he
  exact ⟨rfl, ⟨hk.held, hk.coming⟩, .inl ⟨h, rfl, rfl, update_self .., hasked,
    by rw [hopen]; rfl, rfl⟩⟩

/-- No other address is named in a refusal. -/
def HintsIn (names : Finset Address) (question : NodeClient → Method X (Option A)) : Prop :=
  ∀ c s answer raised a, verdict (question c s).1 = .refused answer raised (some a) → a ∈ names

/-- A question that is put, and what a refusal of it leaves. -/
theorem put_spec (hq : Bystander question) (hh : HintsIn names question) (hk : Known shard names s)
    (c : NodeClient) :
    (put cfg shard question c).Spec s fun r s' =>
      ∃ l, s'.trace = s.trace ++ .asked c.address :: l ∧ Quiet l ∧
        ∀ answer raised elsewhere, r = .ok (.refused answer raised elsewhere) →
          ∃ hint, .refused hint (s.queued shard) ∈ l ∧ (∀ a, hint = some a → a ∈ names) ∧
            Refused cfg shard names hint s s' elsewhere := by
  rw [put, spec_modify_bind]
  have hg := hq c (s.visit (.asked c.address))
  have hhint := hh c (s.visit (.asked c.address))
  have hquiet : Quiet [] := fun _ h => absurd h not_mem_nil
  obtain ⟨r, hr⟩ : ∃ r, r = question c (s.visit (.asked c.address)) := ⟨_, rfl⟩
  rw [← hr] at hg hhint
  have htrace := hg.same
  rw [spec_bind_ok (show (question c).attempt (s.visit (.asked c.address)) = (.ok r.1, r.2) by
    rw [attempt, hr])]
  rcases hv : verdict r.1 with a | ⟨answer, raised, hint⟩ | e
  · exact ⟨[], htrace, hquiet, fun _ _ _ h => by cases h⟩
  · have hk' : Known shard names (r.2.visit (.refused hint (r.2.queued shard))) :=
      ((hk.congr rfl rfl : Known shard names (s.visit _)).glance hg.toGlance).congr rfl rfl
    show (Program.modify (fun s => s.visit (.refused hint (s.queued shard))) >>= fun _ =>
      refusedWith cfg shard hint >>= fun e => pure (Turn.refused answer raised e)).Spec r.2 _
    rw [spec_modify_bind]
    have hqueued : r.2.queued = s.queued := hg.queued
    have hmarked : ∀ (s' : ShardLeaders X) (l : List Visit),
        s'.trace = (r.2.visit (.refused hint (r.2.queued shard))).trace ++ l →
        s'.trace = s.trace ++ .asked c.address :: ([.refused hint (s.queued shard)] ++ l) :=
      fun s' l h => by
        rw [h, ShardLeaders.visit, htrace, ShardLeaders.visit, hqueued]
        simp
    have hq₁ : Quiet [.refused hint (s.queued shard)] := fun v hv => by
      rw [mem_singleton.1 hv]
      rfl
    refine (refusedWith_spec hk' hint).bind (fun e s' h => ?_) fun e s' h => ?_
    · obtain ⟨⟨l, hl, hql⟩, href⟩ := h
      refine ⟨_, hmarked s' l hl, hq₁.append hql, fun _ _ _ h => ?_⟩
      cases h
      refine ⟨hint, mem_cons_self, fun a ha => ?_, (href e rfl).congr hg.hints hg.queued hg.asked⟩
      rw [ha] at hv
      exact hhint _ _ a hv
    · obtain ⟨⟨l, hl, hql⟩, -⟩ := h
      exact ⟨_, hmarked s' l hl, hq₁.append hql, fun _ _ _ h => by cases h⟩
  · exact ⟨[], htrace, hquiet, fun _ _ _ h => by cases h⟩

/-! ## Who is asked next -/

/-- The addresses a client holds for the shard, the hint and the queue, can be opened. -/
structure Opens (cfg : Setup) (shard : ℤ) (s : ShardLeaders X) : Prop where
  hint (a : Address) : s.hints shard = some a → (cfg.getClientAt shard a).isSome
  queue : ∀ a ∈ s.queued shard, (cfg.getClientAt shard a).isSome

/-- Neither an address to ask, nor a replica in the queue. -/
def Idle (shard : ℤ) (s : ShardLeaders X) : Prop := s.hints shard = none ∧ s.queued shard = []

instance : Decidable (Idle shard s) := inferInstanceAs (Decidable (_ ∧ _))

/-- Where a handle has come from: it is the hint's, or that of the first in the queue, or, when there
is neither, the one that the placement names. -/
inductive Handed (cfg : Setup) (shard : ℤ) (s s' : ShardLeaders X) (c : NodeClient) : Prop where
  | hint (a : Address) (hhint : s.hints shard = some a) (ha : c.address = some a)
    (hasked : s'.asked shard = insert a (s.asked shard)) (hqueued : s'.queued shard = s.queued shard)
  | queue (a : Address) (rest : List Address) (hhint : s.hints shard = none)
    (hqueue : s.queued shard = a :: rest) (ha : c.address = some a)
    (hasked : s'.asked shard = insert a (s.asked shard)) (hqueued : s'.queued shard = rest)
  | placed (hidle : Idle shard s) (hqueued : s'.queued shard = [])
    (ha : ∀ a, c.address = some a → a ∈ s'.asked shard)
    (hlocal : cfg.router = false → c.address = none)

theorem Opens.handed (h : Opens cfg shard s) (hhint : s'.hints shard = none)
    (hc : Handed cfg shard s s' c) : Opens cfg shard s' := by
  refine ⟨fun a ha => absurd (hhint.symm.trans ha) (Option.some_ne_none a).symm, fun b hb => ?_⟩
  cases hc with
  | hint a hs ha hasked hqueued => exact h.queue b (hqueued ▸ hb)
  | queue a rest hs hqueue ha hasked hqueued =>
    refine h.queue b ?_
    rw [hqueue]
    exact mem_cons_of_mem _ (hqueued ▸ hb)
  | placed hidle hqueued ha hlocal =>
    rw [hqueued] at hb
    cases hb

/-- Hints that were taken can be opened. -/
theorem Opens.refused (h : Opens cfg shard s) (hr : Refused cfg shard names hint s s' elsewhere) :
    Opens cfg shard s' := by
  rcases hr.left with ⟨a, -, -, hhint, -, hopens, hqueued⟩ | ⟨hhint, -, waiting, hqueued, -, hwaiting⟩
  · refine ⟨fun b hb => ?_, fun b hb => h.queue b (hqueued ▸ hb)⟩
    rw [hhint, Option.some.injEq] at hb
    exact hb ▸ hopens
  · refine ⟨fun b hb => h.hint b (hhint ▸ hb), fun b hb => ?_⟩
    rw [hqueued] at hb
    rcases mem_append.1 hb with hb | hb
    · exact h.queue b hb
    · exact (hwaiting b hb).2.2.1

/-- A handle is noted, if it has an address. -/
theorem handOut_run (shard : ℤ) (s : ShardLeaders X) (c : NodeClient) :
    ∃ asked, (handOut shard c : Method X _) s = (.ok c, { s with asked := asked }) ∧
      ∀ a, c.address = some a → a ∈ asked shard := by
  rcases hc : c.address with _ | a
  · exact ⟨s.asked, by rw [handOut, hc]; rfl, nofun⟩
  refine ⟨_, by rw [handOut, hc]; rfl, fun b hb => ?_⟩
  cases hb
  rw [update_self]
  exact Finset.mem_insert_self a _

/-- The leader in the table. -/
theorem placedLeader_spec (hk : Known shard names s) :
    (placedLeader cfg shard : Method X _).Spec s fun r s' =>
      Known shard names s' ∧ Quietly s s' ∧
      ∀ c, r = .ok (some c) → s'.hints = s.hints ∧ s'.queued = s.queued ∧
        (∀ a, c.address = some a → a ∈ s'.asked shard) ∧ (cfg.router = false → c.address = none) := by
  rw [placedLeader]
  split
  · next hrouter =>
    refine (Spec.of_within steps_glance.lookups.namedLeader s).bind (fun c s₁ hg => ?_)
      fun e s₁ hg => ⟨hk.glance hg, hg.trace, nofun⟩
    rcases c with _ | c
    · exact ⟨hk.glance hg, hg.trace, nofun⟩
    obtain ⟨asked, hout, hasked⟩ := handOut_run shard s₁ c
    show (handOut shard c >>= fun c => pure (some c)).Spec s₁ _
    rw [spec_bind_ok hout, spec_pure]
    refine ⟨(hk.glance hg).congr rfl rfl, hg.trace, fun c' h => ?_⟩
    cases h
    refine ⟨hg.hints, hg.queued, hasked, fun hr => ?_⟩
    rw [hr] at hrouter
    cases hrouter
  · refine (Spec.of_within steps_glance.lookups.next s).bind (fun m s₁ hg => ?_) fun e s₁ hg =>
      ⟨hk.glance hg, hg.trace, nofun⟩
    refine ⟨hk.glance hg, hg.trace, fun c h => ?_⟩
    have hc : c = ⟨none⟩ := by
      by_cases hl : m.leads shard
      · rw [if_pos hl] at h
        cases h
        rfl
      · rw [if_neg hl] at h
        cases h
    rw [hc]
    exact ⟨hg.hints, hg.queued, fun a ha => absurd ha (Option.some_ne_none a).symm, fun _ => rfl⟩

/-- The hint, the queue and the table are tried in this order. -/
theorem leaderForShard_spec (hk : Known shard names s) (ho : Opens cfg shard s) :
    (leaderForShard cfg shard : Method X _).Spec s fun r s' =>
      Known shard names s' ∧ Quietly s s' ∧
      ∀ c, r = .ok (some c) → s'.hints shard = none ∧ Handed cfg shard s s' c := by
  rw [leaderForShard, spec_get_bind, spec_modify_bind]
  rcases hhint : s.hints shard with _ | a
  · show (queuedLeader cfg shard : Method X _).Spec _ _
    rw [queuedLeader, takeQueued]
    rcases hqueue : s.queued shard with _ | ⟨a, rest⟩
    · have htake : (Program.get (·.queued shard) >>= popQueued cfg shard : Method X _)
          (s.setHint shard none) = (.ok none, s.setHint shard none) := by
        show popQueued cfg shard (s.queued shard) _ = _
        rw [hqueue]
        rfl
      rw [spec_bind_ok htake]
      show (placedLeader cfg shard).Spec (s.setHint shard none) _
      have hk₁ : Known shard names (s.setHint shard none) := hk.congr rfl rfl
      refine (placedLeader_spec hk₁).mono fun r s' h => ?_
      refine ⟨h.1, h.2.1, fun c hc => ?_⟩
      obtain ⟨hh, hq, ha, hl⟩ := h.2.2 c hc
      refine ⟨by rw [hh]; exact update_self .., .placed ⟨hhint, hqueue⟩ ?_ ha hl⟩
      rw [hq]
      exact hqueue
    · obtain ⟨c, hc⟩ := Option.isSome_iff_exists.1 (ho.queue a (by rw [hqueue]; simp))
      have htake : (Program.get (·.queued shard) >>= popQueued cfg shard : Method X _)
          (s.setHint shard none) =
          (.ok (some c), ((s.setHint shard none).setQueued shard rest).noteAsked shard a) := by
        show popQueued cfg shard (s.queued shard) _ = _
        rw [hqueue, popQueued, hc]
        rfl
      refine (spec_bind_ok htake).2 ⟨hk.congr rfl rfl, .of_eq rfl, fun c' h => ?_⟩
      cases h
      exact ⟨update_self .., .queue a rest hhint hqueue (cfg.address_getClientAt _ _ _ hc)
        (update_self ..) (update_self ..)⟩
  · obtain ⟨c, hc⟩ := Option.isSome_iff_exists.1 (ho.hint a hhint)
    rw [Option.bind_some, hc]
    refine ⟨hk.congr rfl rfl, .of_eq rfl, fun c' h => ?_⟩
    cases h
    exact ⟨update_self .., .hint a hhint (cfg.address_getClientAt _ _ _ hc)
      (update_self ..) rfl⟩

/-- What a turn does: it ends where nobody is found to ask, or somebody is asked. -/
inductive Turned (cfg : Setup) (shard : ℤ) (names : Finset Address) (s : ShardLeaders X)
    (r : Except Raised (Turn A)) (s' : ShardLeaders X) (l : List Visit) : Prop where
  | nobody (hl : Quiet l) (hr : ∀ answer raised elsewhere, r ≠ .ok (.refused answer raised elsewhere))
  | asked (s₁ : ShardLeaders X) (c : NodeClient) (l₀ l₁ : List Visit)
    (hl : l = l₀ ++ .asked c.address :: l₁) (hl₀ : Quiet l₀) (hl₁ : Quiet l₁)
    (hhint : s₁.hints shard = none) (hhanded : Handed cfg shard s s₁ c)
    (hr : ∀ answer raised elsewhere, r = .ok (.refused answer raised elsewhere) →
      ∃ hint, .refused hint (s₁.queued shard) ∈ l₁ ∧ (∀ a, hint = some a → a ∈ names) ∧
        Refused cfg shard names hint s₁ s' elsewhere)

/-- One turn of the walk. -/
theorem turn_spec (hq : Bystander question) (hh : HintsIn names question) (hk : Known shard names s)
    (ho : Opens cfg shard s) (lastAnswer : Option A) :
    (turn cfg shard question none lastAnswer).Spec s fun r s' =>
      ∃ l, s'.trace = s.trace ++ l ∧ Turned cfg shard names s r s' l := by
  refine (leaderForShard_spec hk ho).bind (fun client s₁ h => ?_) fun e s₁ h => ?_
  · obtain ⟨hk₁, ⟨l₀, hl₀, hquiet₀⟩, hc⟩ := h
    rcases client with _ | c
    · exact ⟨l₀, hl₀, .nobody hquiet₀ nofun⟩
    obtain ⟨hhint, hhanded⟩ := hc c rfl
    refine (put_spec hq hh hk₁ c).mono fun r s' h => ?_
    obtain ⟨l₁, hl₁, hquiet₁, hr⟩ := h
    exact ⟨_, by rw [hl₁, hl₀, append_assoc], .asked s₁ c l₀ l₁ rfl hquiet₀ hquiet₁ hhint
      hhanded hr⟩
  · obtain ⟨-, ⟨l₀, hl₀, hquiet₀⟩, -⟩ := h
    exact ⟨l₀, hl₀, .nobody hquiet₀ nofun⟩

/-- The table is read, and nobody counts as asked. -/
theorem refreshForShard_spec (hk : Known shard names s) :
    (refreshForShard cfg shard : Method X _).Spec s fun r s' =>
      Known shard names s' ∧ s'.hints shard = none ∧ s'.queued shard = [] ∧ s'.asked shard = ∅ ∧
      ∃ l, s'.trace = s.trace ++ l ∧ Quiet l ∧
        (cfg.router = true → ∀ u, r = .ok u → ∀ seen, sinceRead seen l = []) := by
  have hf : Known shard names (s.forgetShard shard) := hk.congr rfl rfl
  have hhints : (s.forgetShard shard).hints shard = none := update_self ..
  have hqueued : (s.forgetShard shard).queued shard = [] := update_self ..
  have hasked : (s.forgetShard shard).asked shard = ∅ := update_self ..
  rw [refreshForShard, spec_modify_bind]
  split
  · have hread : Quiet [.read] := fun v hv => by
      rw [mem_singleton.1 hv]
      rfl
    have hlog : (refresh : Method X _).Spec (s.forgetShard shard) fun _ s' =>
        s'.trace = s.trace ++ [.read] := refresh_spec (fun _ _ => rfl) fun _ => rfl
    refine ((Spec.of_within steps_glance.refresh _).and hlog).bind (fun t s' h => ?_) fun e s' h => ?_
    all_goals
      obtain ⟨hg, hl⟩ := h
      rw [← hg.hints] at hhints
      rw [← hg.queued] at hqueued
      rw [← hg.asked] at hasked
      exact ⟨hf.glance hg, hhints, hqueued, hasked, [.read], hl, hread, fun _ _ _ _ => rfl⟩
  · next hrouter =>
    exact ⟨hf, hhints, hqueued, hasked, [], (append_nil _).symm,
      nofun, fun h => absurd h hrouter⟩

/-! ## What is left to ask -/

/-- What is left to ask has not been asked, and nothing is left twice. -/
structure Fresh (cfg : Setup) (shard : ℤ) (s : ShardLeaders X) : Prop where
  opens : Opens cfg shard s
  hint (a : Address) : s.hints shard = some a → a ∉ s.asked shard ∧ a ∉ s.queued shard
  nodup : (s.queued shard).Nodup
  queue : ∀ a ∈ s.queued shard, a ∉ s.asked shard

theorem Fresh.of_idle (h : Idle shard s) : Fresh cfg shard s where
  opens := {
    hint := fun a ha => by
      rw [h.1] at ha
      cases ha
    queue := fun a ha => by
      rw [h.2] at ha
      cases ha }
  hint a ha := by
    rw [h.1] at ha
    cases ha
  nodup := by
    rw [h.2]
    exact nodup_nil
  queue a ha := by
    rw [h.2] at ha
    cases ha

variable {seen : List Address}

/-- Where there is somewhere else to ask, somebody waits. -/
theorem Refused.not_idle (hr : Refused cfg shard names hint s s' true) : ¬ Idle shard s' := by
  rintro ⟨hhint, hqueue⟩
  rcases hr.left with ⟨a, -, -, ha, -⟩ | ⟨-, hiff, -⟩
  · rw [hhint] at ha
    cases ha
  · exact hiff.1 rfl hqueue

/-! ## The end of a walk -/

/-- What a round has still to go through: the addresses that were not asked, and those in the queue or
not yet in it. -/
def pending (shard : ℤ) (names : Finset Address) (s : ShardLeaders X) : ℕ :=
  (names \ s.asked shard).card + (s.queued shard).length +
    (names \ (s.asked shard ∪ (s.queued shard).toFinset)).card

/-- The same, before the table is asked. -/
def remaining (shard : ℤ) (names : Finset Address) (s : ShardLeaders X) : ℕ :=
  if Idle shard s then 2 * names.card + 1 else pending shard names s

/-- The hint can be opened, and was not asked. -/
structure Ready (cfg : Setup) (shard : ℤ) (names : Finset Address) (s : ShardLeaders X) : Prop where
  known : Known shard names s
  opens : Opens cfg shard s
  hint (a : Address) : s.hints shard = some a → a ∈ names ∧ a ∉ s.asked shard

theorem Ready.of_idle (hk : Known shard names s) (h : Idle shard s) : Ready cfg shard names s :=
  ⟨hk, (Fresh.of_idle h).opens, fun a ha => by
    rw [h.1] at ha
    cases ha⟩

/-- A refusal adds nobody. -/
theorem pending_refused (hr : Refused cfg shard names hint s s' elsewhere) :
    pending shard names s' ≤ pending shard names s := by
  rw [pending, pending, hr.asked]
  rcases hr.left with ⟨a, -, -, -, -, -, hqueued⟩ | ⟨-, -, waiting, hqueued, hnodup, hwaiting⟩
  · rw [hqueued]
  have hsub : waiting.toFinset ⊆ names \ (s.asked shard ∪ (s.queued shard).toFinset) := by
    intro a ha
    obtain ⟨hasked, hold, -, hname⟩ := hwaiting a (mem_toFinset.1 ha)
    rw [Finset.mem_sdiff, Finset.mem_union, mem_toFinset, not_or]
    exact ⟨hname, hasked, hold⟩
  have hcard := Finset.card_sdiff_of_subset hsub
  have hle := Finset.card_le_card hsub
  rw [toFinset_card_of_nodup hnodup] at hcard hle
  have hset : names \ (s.asked shard ∪ ((s.queued shard).toFinset ∪ waiting.toFinset)) =
      (names \ (s.asked shard ∪ (s.queued shard).toFinset)) \ waiting.toFinset := by
    rw [← Finset.union_assoc]
    exact sdiff_sdiff_left.symm
  rw [hqueued, toFinset_append, length_append, hset, hcard]
  omega

/-- A client that is handed out uses somebody up. -/
theorem pending_handed (h : Ready cfg shard names s) (hc : Handed cfg shard s s' c) :
    pending shard names s' < remaining shard names s := by
  have hmono : ∀ {A B : Finset Address}, A ⊆ B → (names \ B).card ≤ (names \ A).card :=
    fun hAB => Finset.card_le_card (Finset.sdiff_subset_sdiff (Finset.Subset.refl _) hAB)
  rw [remaining]
  cases hc with
  | hint a hs ha hasked hqueued =>
    rw [if_neg (fun hidle => by rw [hidle.1] at hs; cases hs), pending, pending, hasked, hqueued]
    have hone : (names \ insert a (s.asked shard)).card < (names \ s.asked shard).card := by
      refine Finset.card_lt_card ⟨Finset.sdiff_subset_sdiff (Finset.Subset.refl _)
        (Finset.subset_insert a _), fun hsub => ?_⟩
      have hmem := hsub (Finset.mem_sdiff.2 (h.hint a hs))
      exact (Finset.mem_sdiff.1 hmem).2 (Finset.mem_insert_self a _)
    have htwo := hmono (Finset.union_subset_union_left (Finset.subset_insert a (s.asked shard))
      (t := (s.queued shard).toFinset))
    omega
  | queue a rest hs hqueue ha hasked hqueued =>
    rw [if_neg (fun hidle => by rw [hidle.2] at hqueue; cases hqueue), pending, pending, hasked,
      hqueued, hqueue, toFinset_cons, length_cons]
    have hone := hmono (Finset.subset_insert a (s.asked shard))
    have hset : insert a (s.asked shard) ∪ rest.toFinset = s.asked shard ∪ insert a rest.toFinset := by
      rw [Finset.insert_union, Finset.union_insert]
    rw [hset]
    omega
  | placed hidle hqueued ha hlocal =>
    rw [if_pos hidle, pending, hqueued]
    have hone := Finset.card_le_card (Finset.sdiff_subset (s := names) (t := s'.asked shard))
    have htwo := Finset.card_le_card (Finset.sdiff_subset (s := names)
      (t := s'.asked shard ∪ ([] : List Address).toFinset))
    rw [length_nil]
    omega

/-- After a refusal, from a client with no hint. -/
theorem Ready.refused (ho : Opens cfg shard s) (hs : s.hints shard = none)
    (hname : ∀ a, hint = some a → a ∈ names) (hr : Refused cfg shard names hint s s' elsewhere) :
    Ready cfg shard names s' := by
  refine ⟨hr.known, ho.refused hr, fun b hb => ?_⟩
  rcases hr.left with ⟨a, ha, -, hhint, hasked, -⟩ | ⟨hhint, -⟩
  · rw [hhint, Option.some.injEq] at hb
    rw [hr.asked, ← hb]
    exact ⟨hname a ha, hasked⟩
  · rw [hhint, hs] at hb
    cases hb

/-- A turn after which there is somewhere else to ask has used something up. -/
theorem ready_turn (hq : Bystander question) (hh : HintsIn names question)
    (h : Ready cfg shard names s) (lastAnswer : Option A) :
    (turn cfg shard question none lastAnswer).Spec s fun r s' =>
      ∀ answer raised elsewhere, r = .ok (.refused answer raised elsewhere) →
        Ready cfg shard names s' ∧
          (elsewhere = true → remaining shard names s' < remaining shard names s) := by
  refine (turn_spec hq hh h.known h.opens lastAnswer).mono fun r s' ht => ?_
  obtain ⟨l, -, ht⟩ := ht
  intro answer raised elsewhere hrefused
  cases ht with
  | nobody hquiet hr => exact absurd hrefused (hr _ _ _)
  | asked s₁ c l₀ l₁ hsplit hl₀ hl₁ hhint hhanded hr =>
    obtain ⟨hint, -, hname, href⟩ := hr answer raised elsewhere hrefused
    refine ⟨.refused (h.opens.handed hhint hhanded) hhint hname href, fun he => ?_⟩
    subst he
    rw [remaining, if_neg href.not_idle]
    exact (pending_refused href).trans_lt (pending_handed h hhanded)

/-- The walk, by its fuel. -/
def walking (cfg : Setup) (shard : ℤ) (question : NodeClient → Method X (Option A))
    (first : Option NodeClient) (readsLeft : ℕ) (lastAnswer : Option A) (fuel : ℕ) :
    Method X (Option (Option A)) :=
  walk cfg shard question fuel first readsLeft lastAnswer

variable (names) in
/-- What a turn leaves decides: the next one, or a read of the table. -/
theorem settles_of_turn {readsLeft : ℕ} {lastAnswer : Option A}
    (ht : (turn cfg shard question first lastAnswer).Spec s fun r s' =>
      ∀ answer raised elsewhere, r = .ok (.refused answer raised elsewhere) →
        Known shard names s' ∧ Opens cfg shard s' ∧ (elsewhere = true →
          Settles (walking cfg shard question none readsLeft answer) s'))
    (hread : ∀ n, readsLeft = n + 1 → ∀ answer s', Ready cfg shard names s' →
      Settles (walking cfg shard question none n answer) s') :
    Settles (walking cfg shard question first readsLeft lastAnswer) s := by
  refine Settles.succ (Settles.after fun t s₁ hts => ?_)
  rw [Spec, hts] at ht
  rcases t with answer | ⟨answer, raised, _ | _⟩
  · exact .of_run 0 (fun _ _ => rfl) fun h => by cases h
  · rcases readsLeft with _ | n
    · rcases raised with _ | e
      · exact .of_run 0 (fun _ _ => rfl) fun h => by cases h
      · exact .of_run 0 (fun _ _ => rfl) fun h => by cases h
    · have hspec := @refreshForShard_spec X cfg shard s₁ names (ht answer raised false rfl).1
      refine Settles.after fun _ s₂ hrs => ?_
      rw [Spec, hrs] at hspec
      exact hread n rfl answer s₂ (.of_idle hspec.1 ⟨hspec.2.1, hspec.2.2.1⟩)
  · exact (ht answer raised true rfl).2.2 rfl

/-- Every walk ends. -/
theorem settles_walk (hq : Bystander question) (hh : HintsIn names question) (readsLeft : ℕ)
    (lastAnswer : Option A) (h : Ready cfg shard names s) :
    Settles (walking cfg shard question none readsLeft lastAnswer) s := by
  -- The reads of the table come first; within a round, what remains of it.
  induction readsLeft using Nat.strong_induction_on generalizing s lastAnswer with
  | _ readsLeft ihreads =>
    obtain ⟨n, hn⟩ : ∃ n, remaining shard names s ≤ n := ⟨_, le_refl _⟩
    induction n using Nat.strong_induction_on generalizing s lastAnswer with
    | _ n ih =>
      refine settles_of_turn names ?_ fun m hm answer s' hr =>
        ihreads m (by omega) answer hr
      refine (ready_turn hq hh h lastAnswer).mono fun r s' ht answer raised elsewhere hr => ?_
      obtain ⟨hready, hless⟩ := ht answer raised elsewhere hr
      exact ⟨hready.known, hready.opens,
        fun he => ih _ ((hless he).trans_le hn) answer hready (le_refl _)⟩

/-! ## The walk of `askShard` -/

section

variable (hq : Bystander question) (hh : HintsIn names question) (hk : Known shard names s)
include hq hh hk

theorem settles_walk_of_opens (ho : Opens cfg shard s) (readsLeft : ℕ) (lastAnswer : Option A) :
    Settles (walking cfg shard question none readsLeft lastAnswer) s := by
  refine settles_of_turn names ?_ fun n _ answer s' hr => settles_walk hq hh n answer hr
  refine (turn_spec hq hh hk ho lastAnswer).mono fun r s' ht => ?_
  obtain ⟨l, -, ht⟩ := ht
  intro answer raised elsewhere hrefused
  cases ht with
  | nobody hquiet hr => exact absurd hrefused (hr _ _ _)
  | asked s₁ c l₀ l₁ hsplit hl₀ hl₁ hhint hhanded hr =>
    obtain ⟨hint, -, hname, href⟩ := hr answer raised elsewhere hrefused
    have hready := Ready.refused (ho.handed hhint hhanded) hhint hname href
    exact ⟨hready.known, hready.opens, fun _ => settles_walk hq hh _ answer hready⟩

/-- `ask_shard` ends. -/
theorem settles_askShard (ho : Opens cfg shard s) (tableReads : ℕ) (first : Option NodeClient) :
    Settles (fun fuel => askShard cfg shard fuel question tableReads first) s := by
  show Settles (walking cfg shard question first (tableReads - 1) none) s
  rcases first with _ | c
  · exact settles_walk_of_opens hq hh hk ho _ none
  refine settles_of_turn names ?_ fun n _ answer s' hr => settles_walk hq hh n answer hr
  refine (put_spec hq hh hk c).mono fun r s' h => ?_
  obtain ⟨l, -, -, h⟩ := h
  intro answer raised elsewhere hr
  obtain ⟨hint, -, -, href⟩ := h answer raised elsewhere hr
  have ho' := ho.refused href
  exact ⟨href.known, ho', fun _ => settles_walk_of_opens hq hh href.known ho' _ answer⟩

end

/-- A client that reaches every address. -/
def remote : Setup where
  router := true
  getClientAt := fun _ a => some ⟨some a⟩
  address_getClientAt := fun _ _ _ h => by cases h; rfl

end OxideDB.Routing
