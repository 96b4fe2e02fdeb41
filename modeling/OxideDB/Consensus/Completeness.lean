import OxideDB.Consensus.Invariant

/-!
# Leader completeness

An entry that a majority has acknowledged in the term it was made in is in the log
of every later leader.

The argument never looks at the order in which things happened.  `Safe a T k b` says
that the leaders of the terms after `T`, up to `b`, were elected with the first `k`
entries of `T`'s log; `Retention` says that a node which acknowledged those entries
still has them — in its log, in the ballots it cast, in the ballots that made a
leader — as long as every leader it can have listened to since had them too.  An
induction over the terms then discharges the proviso.
-/

namespace Consensus

open List Function Ledger

variable {N E : Type*} [Fintype N] {τ : E → ℕ} {a b : Ledger N E}

/-- The leaders elected after `T`, up to term `n`, started from the first `k` entries
of `T`'s log. -/
def Safe (a : Ledger N E) (T k n : ℕ) : Prop :=
  ∀ U el, T < U → U ≤ n → a.won U = some el → (a.reign T).take k <+: el.log

variable {e : E} {el : Election N E} {l : List E} {v p : N} {T k U n : ℕ}

omit [Fintype N] in
theorem Safe.mono {m : ℕ} (h : Safe a T k n) (hm : m ≤ n) : Safe a T k m :=
  fun U el hT hU hel => h U el hT (le_trans hU hm) hel

omit [Fintype N] in
theorem Ledger.Grows.take_reign (h : a.Grows b) (hk : k ≤ (a.reign T).length) :
    (b.reign T).take k = (a.reign T).take k := by
  obtain ⟨t, ht⟩ := h.reign T
  rw [← ht, take_append_of_le_length hk]

omit [Fintype N] in
theorem Safe.of_grows (hg : a.Grows b) (hk : k ≤ (a.reign T).length) (h : Safe b T k n) :
    Safe a T k n := by
  intro U el hT hU hel
  rw [← hg.take_reign hk]
  exact h U el hT hU (hg.won U el hel)

/-- What was acknowledged is still there. -/
structure Retention (a : Ledger N E) : Prop where
  log : ∀ v T k, k ≤ a.ack v T → Safe a T k (a.term v) → (a.reign T).take k <+: a.log v
  ballot : ∀ v U c l T k, a.ballot v U = some (c, l) → T < U → k ≤ a.ack v T →
    Safe a T k U → (a.reign T).take k <+: l
  elector : ∀ U el, a.won U = some el → ∀ v ∈ el.electors, ∀ T k, T < U → k ≤ a.ack v T →
    Safe a T k (U - 1) → ∃ l, a.ballot v U = some (el.leader, l) ∧ (a.reign T).take k <+: l

namespace Retention

omit [Fintype N] in
theorem init : Retention (init : Ledger N E) where
  log v T k _ _ := by simp [Ledger.init]
  ballot v U c l T k h := by simp [Ledger.init] at h
  elector U el h := by simp [Ledger.init] at h

variable [DecidableEq N]

/-- An acknowledgement cannot appear in a term the node has left. -/
theorem ack_eq (hs : Step τ a b) (hT : T < a.term v) : b.ack v T = a.ack v T := by
  cases hs with
  | ack p U k hU hk hp =>
    rw [Shape.acknowledge_ack, if_neg]
    rintro ⟨rfl, rfl⟩
    omega
  | _ => rfl

theorem ballot_cases (hs : Step τ a b) {x : N × List E} (hx : b.ballot v U = some x) :
    a.ballot v U = some x ∨ (x.2 = a.log v ∧ a.term v ≤ U ∧ b.ack = a.ack) := by
  cases hs with
  | stand p T hT =>
    rcases Shape.cast_ballot hx with ⟨rfl, rfl, rfl⟩ | hx
    · exact .inr ⟨rfl, hT.le, rfl⟩
    · exact .inl hx
  | vote p c T l hT hnone hc hu =>
    rcases Shape.cast_ballot hx with ⟨rfl, rfl, rfl⟩ | hx
    · exact .inr ⟨rfl, hT, rfl⟩
    · exact .inl hx
  | _ => exact .inl hx

omit [DecidableEq N] in
/-- Accepting a leader's prefix keeps what was acknowledged. -/
theorem adopt_keeps (hsh : Shape τ a) (h : Retention a) {T₀ : ℕ} {m : List E} (hT : a.term p ≤ T₀)
    (hm : m <+: a.reign T₀) (hl : Merge (a.log p) m l) (hk : k ≤ a.ack p T)
    (hsafe : Safe a T k T₀) :
    (a.reign T).take k <+: l := by
  have hold := h.log p T k hk (hsafe.mono hT)
  rcases Nat.eq_zero_or_pos k with rfl | hpos
  · simp
  have hle : T ≤ T₀ := le_trans (hsh.ackTerm p T (by omega)) hT
  rcases Nat.eq_or_lt_of_le hle with rfl | hlt
  · exact hl.keeps hm hold (List.take_prefix k _)
  rcases hw : a.won T₀ with _ | el
  · -- nobody leads the term: its log is empty, and so is the message
    rw [hsh.unwon T₀ hw, prefix_nil] at hm
    subst hm
    rcases hl with rfl | ⟨-, hnot, -⟩
    · exact hold
    · exact absurd nil_prefix hnot
  · exact hl.keeps hm hold ((hsafe T₀ el hlt le_rfl hw).trans (hsh.wonLog T₀ el hw))

/-- What a step leaves of an acknowledged prefix in the log. -/
theorem log_step (hsh : Shape τ a) (h : Retention a) (hs : Step τ a b) (hk : k ≤ b.ack v T)
    (hsafe : Safe a T k (b.term v)) : (a.reign T).take k <+: b.log v := by
  have hterm := (hsh.grows hs).term v
  cases hs with
  | observe p U hU => exact h.log v T k hk (hsafe.mono hterm)
  | stand p U hU => exact h.log v T k hk (hsafe.mono hterm)
  | vote p c U l hU hnone hc hu => exact h.log v T k hk (hsafe.mono hterm)
  | win U el hnone hc hm hb => exact h.log v T k hk (hsafe.mono hterm)
  | extend U el e hw ht hlog he =>
    have hold := h.log v T k hk (hsafe.mono hterm)
    by_cases hv : v = el.leader
    · subst hv
      simp only [Ledger.extend, update_self]
      rw [hlog] at hold
      exact hold.trans (prefix_append _ _)
    · simpa only [Ledger.extend, update_of_ne hv] using hold
  | accept p U m l hU hm hl =>
    by_cases hv : v = p
    · subst hv
      simp only [adopt, update_self] at hsafe ⊢
      exact adopt_keeps hsh h hU hm hl hk hsafe
    · simp only [adopt, update_of_ne hv] at hsafe ⊢
      exact h.log v T k hk hsafe
  | commit U j hc => exact h.log v T k hk (hsafe.mono hterm)
  | ack p U j hU hj hp =>
    rw [Shape.acknowledge_ack] at hk
    split at hk
    · rename_i hvU
      obtain ⟨rfl, rfl⟩ := hvU
      rcases le_max_iff.1 hk with hk | hk
      · exact h.log v T k hk (hsafe.mono hterm)
      · exact (take_prefix_take_left hk).trans hp
    · exact h.log v T k hk (hsafe.mono hterm)

/-- The acknowledged prefix lay within the leader's log before the step already. -/
theorem ack_le (hsh : Shape τ a) (hs : Step τ a b) (v : N) (T : ℕ) :
    b.ack v T ≤ (a.reign T).length := by
  cases hs with
  | ack p U k hU hk hp =>
    rw [Shape.acknowledge_ack]
    split
    · rename_i hvU
      obtain ⟨rfl, rfl⟩ := hvU
      exact max_le (hsh.ackLe v T) hk
    · exact hsh.ackLe v T
  | _ => exact hsh.ackLe v T

theorem ballot_step (hsh : Shape τ a) (h : Retention a) (hs : Step τ a b) {c : N}
    (hb : b.ballot v U = some (c, l)) (hT : T < U) (hk : k ≤ b.ack v T) (hsafe : Safe a T k U) :
    (a.reign T).take k <+: l := by
  rcases ballot_cases hs hb with hb | ⟨rfl, hterm, hack⟩
  · rw [ack_eq hs (lt_of_lt_of_le hT (hsh.ballotTerm v U c l hb))] at hk
    exact h.ballot v U c l T k hb hT hk hsafe
  · rw [hack] at hk
    exact h.log v T k hk (hsafe.mono hterm)

/-- The elections after a step: those before, or one won on ballots already cast. -/
theorem won_cases (hs : Step τ a b) (hel : b.won U = some el) :
    a.won U = some el ∨ (a.won U = none ∧ b.ack = a.ack ∧
      ∀ v ∈ el.electors, ∃ l, a.ballot v U = some (el.leader, l)) := by
  cases hs with
  | win T el' hnone hc hm hb =>
    by_cases hU : U = T
    · subst hU
      simp only [crown, update_self, Option.some.injEq] at hel
      subst hel
      exact .inr ⟨hnone, rfl, hb⟩
    · simp only [crown, update_of_ne hU] at hel
      exact .inl hel
  | _ => exact .inl hel

variable (hsh : Shape τ a) (h : Retention a) (hs : Step τ a b)
include hsh h hs

theorem elector_step (hel : b.won U = some el) (hv : v ∈ el.electors) (hT : T < U)
    (hk : k ≤ b.ack v T) (hsafe : Safe a T k (U - 1)) :
    ∃ l, a.ballot v U = some (el.leader, l) ∧ (a.reign T).take k <+: l := by
  rcases won_cases hs hel with hel | ⟨hnone, hack, hb⟩
  · obtain ⟨l, hl⟩ := hsh.wonBallot U el hel v hv
    rw [ack_eq hs (lt_of_lt_of_le hT (hsh.ballotTerm v U _ l hl))] at hk
    exact h.elector U el hel v hv T k hT hk hsafe
  · obtain ⟨l, hl⟩ := hb v hv
    rw [hack] at hk
    refine ⟨l, hl, h.ballot v U _ l T k hl hT hk ?_⟩
    -- the term had no leader yet, so it owes nothing itself
    intro V el' hTV hVU hel'
    rcases Nat.eq_or_lt_of_le hVU with rfl | hlt
    · rw [hnone] at hel'; simp at hel'
    · exact hsafe V el' hTV (by omega) hel'

/-- **What was acknowledged is kept.** -/
theorem step : Retention b := by
  have hg := hsh.grows hs
  have hlen : ∀ {v T k}, k ≤ b.ack v T → k ≤ (a.reign T).length :=
    fun hk => le_trans hk (ack_le hsh hs _ _)
  constructor
  · intro v T k hk hsafe
    rw [hg.take_reign (hlen hk)]
    exact log_step hsh h hs hk (hsafe.of_grows hg (hlen hk))
  · intro v U c l T k hb hT hk hsafe
    rw [hg.take_reign (hlen hk)]
    exact ballot_step hsh h hs hb hT hk (hsafe.of_grows hg (hlen hk))
  · intro U el hel v hv T k hT hk hsafe
    rw [hg.take_reign (hlen hk)]
    obtain ⟨l, hl, hp⟩ := elector_step hsh h hs hel hv hT hk (hsafe.of_grows hg (hlen hk))
    exact ⟨l, hg.ballot v U _ hl, hp⟩

end Retention

/-! ## Committed entries -/

namespace Committed

omit [Fintype N] in
/-- The term of an entry is at most the term of the last one. -/
theorem le_lastTerm (hl : l.Pairwise (τ · ≤ τ ·)) (he : e ∈ l) : τ e ≤ lastTerm τ l := by
  rcases eq_nil_or_concat' l with rfl | ⟨init, x, rfl⟩
  · simp at he
  rw [lastTerm, getLast?_concat]
  rcases mem_append.1 he with he | he
  · exact (pairwise_append.1 hl).2.2 e he x (by simp)
  · rw [mem_singleton.1 he]

variable {T k : ℕ}

theorem length_le (h : Committed τ a T k) : k ≤ (a.reign T).length := by
  obtain ⟨e, he, -⟩ := h.entry
  have := (List.getElem?_eq_some_iff.1 he).1
  have := h.pos
  omega

/-- A log with the committed prefix in it ends no earlier than the prefix's term. -/
theorem le_lastTerm_of_prefix (hsh : Shape τ a) (h : Committed τ a T k) (hl : Valid τ a.reign l)
    (hp : (a.reign T).take k <+: l) : T ≤ lastTerm τ l := by
  obtain ⟨e, he, rfl⟩ := h.entry
  have hk := h.pos
  have hmem : e ∈ (a.reign (τ e)).take k := by
    refine mem_of_getElem? (i := k - 1) ?_
    rwa [getElem?_take_of_lt (by omega)]
  exact le_lastTerm (hsh.sorted hl) (hp.subset hmem)

omit [Fintype N] in
/-- A log whose last entry is of term `T > 0` is a prefix of `T`'s log. -/
theorem prefix_reign_lastTerm (hl : Valid τ a.reign l) : l <+: a.reign (lastTerm τ l) := by
  rcases hlast : l.getLast? with _ | e
  · rw [getLast?_eq_none_iff] at hlast
    rw [hlast]
    exact nil_prefix
  · rw [lastTerm, hlast]
    exact hl.prefix_reign hlast

section

variable (hsh : Shape τ a)
include hsh

/-- The up-to-date candidate's case of leader completeness: what a voter holds, the
candidate it voted for holds. -/
theorem candidate_keeps (h : Committed τ a T k) {lc : List E} (hlc : Valid τ a.reign lc)
    (hlt : ∀ e ∈ lc, τ e < U) (hl : Valid τ a.reign l) (hu : UpToDate τ lc l)
    (hp : (a.reign T).take k <+: l) (hsafe : Safe a T k (U - 1)) : (a.reign T).take k <+: lc := by
  have hT := h.le_lastTerm_of_prefix hsh hl hp
  have hlcr := prefix_reign_lastTerm hlc
  rcases hu with hu | ⟨hu, hlen⟩
  · -- the candidate's last entry is of a later term, whose leader had the prefix
    have hne : lc ≠ [] := by rintro rfl; simp [lastTerm] at hu
    obtain ⟨init, x, rfl⟩ := (eq_nil_or_concat' lc).resolve_left hne
    have hx : lastTerm τ (init ++ [x]) = τ x := by rw [lastTerm, getLast?_concat]
    rw [hx] at hu hlcr
    obtain ⟨el, hel⟩ := hsh.won_of_mem hlc (k := init.length) (e := x) (by simp)
    have hxU := hlt x (by simp)
    have hr := (hsafe (τ x) el (by omega) (by omega) hel).trans (hsh.wonLog _ el hel)
    rcases prefix_total hr hlcr with hdone | hback
    · exact hdone
    -- otherwise the later entry would sit among entries of term at most `T`
    have hmem : x ∈ a.reign T := mem_of_mem_take (hback.subset (by simp))
    have := hsh.reignTerm T x hmem
    omega
  · rw [hu] at hlcr
    have hll := prefix_reign_lastTerm hl
    exact hp.trans (prefix_of_prefix_length_le hll hlcr hlen)

/-- **Leader completeness.**  Every leader of a later term was elected with the
committed prefix in its log. -/
theorem safe (hr : Retention a) (h : Committed τ a T k) (n : ℕ) : Safe a T k n := by
  induction n with
  | zero => intro U el hT hU hel; omega
  | succ n ih =>
    intro U el hT hU hel
    rcases Nat.lt_or_ge U (n + 1) with hlt | hge
    · exact ih U el hT (by omega) hel
    obtain rfl : U = n + 1 := by omega
    -- a node that acknowledged the prefix voted for this leader
    obtain ⟨Q, hQ, hack⟩ := h.quorum
    obtain ⟨v, hvQ, hv⟩ := hQ.inter (hsh.wonMajority _ el hel)
    obtain ⟨l, hb, hp⟩ := hr.elector _ el hel v hv T k hT (hack v hvQ) ih
    obtain ⟨lc, hlc, hu⟩ := hsh.ballotCand v _ _ l hb
    have hcand := hsh.wonCand _ el hel
    obtain rfl : lc = el.log := Option.some.inj (hlc.symm.trans hcand)
    exact h.candidate_keeps hsh (hsh.candValid _ _ _ hcand) (hsh.candTerm _ _ _ hcand).2.2
      (hsh.ballotValid v _ _ l hb) hu hp ih

/-- The log of a later leader has the committed prefix. -/
theorem prefix_reign (hr : Retention a) (h : Committed τ a T k) (hT : T ≤ U)
    (hel : a.won U = some el) : (a.reign T).take k <+: a.reign U := by
  rcases Nat.eq_or_lt_of_le hT with rfl | hlt
  · exact take_prefix k _
  · exact (h.safe hsh hr U U el hlt le_rfl hel).trans (hsh.wonLog U el hel)

theorem won (h : Committed τ a T k) : ∃ el, a.won T = some el := by
  obtain ⟨e, he, rfl⟩ := h.entry
  exact hsh.won_of_mem (hsh.reignValid _) he

/-- **Committed prefixes never fork.** -/
theorem comparable (hr : Retention a) (h : Committed τ a T k) {j : ℕ} (h' : Committed τ a U j) :
    (a.reign T).take k <+: (a.reign U).take j ∨ (a.reign U).take j <+: (a.reign T).take k := by
  rcases Nat.le_total T U with hTU | hUT
  · obtain ⟨el, hel⟩ := h'.won hsh
    exact prefix_total (h.prefix_reign hsh hr hTU hel) (List.take_prefix j _)
  · obtain ⟨el, hel⟩ := h.won hsh
    exact prefix_total (List.take_prefix k _) (h'.prefix_reign hsh hr hUT hel)

/-- **The majority still holds what it acknowledged.** -/
theorem kept (hr : Retention a) (h : Committed τ a T k) (hv : k ≤ a.ack v T) :
    (a.reign T).take k <+: a.log v :=
  hr.log v T k hv (h.safe hsh hr _)

end

theorem grows (hg : a.Grows b) (h : Committed τ a T k) : Committed τ b T k where
  quorum := by
    obtain ⟨Q, hQ, hack⟩ := h.quorum
    exact ⟨Q, hQ, fun v hv => le_trans (hack v hv) (hg.ack v T)⟩
  entry := by
    obtain ⟨e, he, ht⟩ := h.entry
    exact ⟨e, prefix_getElem? (hg.reign T) he, ht⟩
  pos := h.pos

end Committed

/-! ## Sound states -/

variable [DecidableEq N]

/-- Everything that holds of a reachable state. -/
structure Sound (τ : E → ℕ) (a : Ledger N E) : Prop where
  shape : Shape τ a
  retention : Retention a
  committed : ∀ T, 0 < a.commit T → Committed τ a T (a.commit T)

namespace Sound

omit [DecidableEq N] in
theorem init : Sound τ (init : Ledger N E) :=
  ⟨Shape.init, Retention.init, fun _ h => absurd h (lt_irrefl 0)⟩

/-- **Every step keeps a state sound.** -/
theorem step (h : Sound τ a) (hs : Step τ a b) : Sound τ b where
  shape := h.shape.step hs
  retention := h.retention.step h.shape hs
  committed := by
    have hg := h.shape.grows hs
    cases hs with
    | commit U j hc =>
      intro T hT
      by_cases hU : T = U
      · subst hU
        have hself : (a.commitTo T j).commit T = max (a.commit T) j := update_self ..
        rw [hself]
        rcases max_cases (a.commit T) j with ⟨hmax, hle⟩ | ⟨hmax, hlt⟩
        · rw [hmax]
          exact (h.committed T (lt_of_lt_of_le hc.pos hle)).grows hg
        · rw [hmax]
          exact hc.grows hg
      · have hne : (a.commitTo U j).commit T = a.commit T := update_of_ne hU ..
        rw [hne] at hT ⊢
        exact (h.committed T hT).grows hg
    | _ => exact fun T hT => (h.committed T hT).grows hg

omit [DecidableEq N] in
/-- A node that holds an entry of the term it is in holds nothing but that term's log. -/
theorem log_prefix_reign (h : Sound τ a) (he : e ∈ a.log p) (ht : τ e = a.term p) :
    a.log p <+: a.reign (a.term p) := by
  have hval := h.shape.logValid p
  have hle : a.term p ≤ lastTerm τ (a.log p) := by
    rw [← ht]
    exact Committed.le_lastTerm (h.shape.sorted hval) he
  have hge : lastTerm τ (a.log p) ≤ a.term p := by
    unfold lastTerm
    split
    · rename_i x hx
      exact h.shape.logTerm p x (mem_of_getLast? hx)
    · exact Nat.zero_le _
  have := Committed.prefix_reign_lastTerm hval
  rwa [le_antisymm hge hle] at this

omit [DecidableEq N] in
/-- An entry of a term lies beyond the log its leader was elected with. -/
theorem election_length_lt (h : Sound τ a) (hl : l <+: a.reign T) (he : e ∈ l) (ht : τ e = T)
    (hel : a.won T = some el) : el.log.length < l.length := by
  by_contra hle
  have hp : l <+: el.log :=
    prefix_of_prefix_length_le hl (h.shape.wonLog T el hel) (by omega)
  have := (h.shape.candTerm _ _ _ (h.shape.wonCand T el hel)).2.2 e (hp.subset he)
  omega

end Sound

/-! ## Chosen prefixes -/

omit [DecidableEq N]

/-- A list of entries that was committed, whole, in a term up to `n`. -/
def Chosen (a : Ledger N E) (n : ℕ) (l : List E) : Prop :=
  ∃ T, T ≤ n ∧ l <+: (a.reign T).take (a.commit T)

namespace Chosen

variable {n m : ℕ} {l l' : List E}

omit [Fintype N] in
theorem nil : Chosen a n [] := ⟨0, Nat.zero_le n, nil_prefix⟩

omit [Fintype N] in
theorem mono (h : Chosen a n l) (hm : n ≤ m) : Chosen a m l := by
  obtain ⟨T, hT, hp⟩ := h
  exact ⟨T, le_trans hT hm, hp⟩

omit [Fintype N] in
theorem of_prefix (h : Chosen a n l) (hp : l' <+: l) : Chosen a n l' := by
  obtain ⟨T, hT, hl⟩ := h
  exact ⟨T, hT, hp.trans hl⟩

omit [Fintype N] in
theorem grows (hg : a.Grows b) (h : Chosen a n l) : Chosen b n l := by
  obtain ⟨T, hT, hp⟩ := h
  exact ⟨T, hT, (hp.trans (take_prefix_take_left (hg.commit T))).trans ((hg.reign T).take _)⟩

/-- The leader of a term has everything chosen up to then. -/
theorem prefix_reign (hs : Sound τ a) (h : Chosen a n l) (hel : a.won n = some el) :
    l <+: a.reign n := by
  obtain ⟨T, hT, hp⟩ := h
  rcases Nat.eq_zero_or_pos (a.commit T) with h0 | hpos
  · rw [h0, take_zero] at hp
    rw [prefix_nil.1 hp]
    exact nil_prefix
  · exact hp.trans ((hs.committed T hpos).prefix_reign hs.shape hs.retention hT hel)

/-- **Chosen prefixes never fork.** -/
theorem comparable (hs : Sound τ a) (h : Chosen a n l) (h' : Chosen a m l') :
    l <+: l' ∨ l' <+: l := by
  obtain ⟨T, -, hp⟩ := h
  obtain ⟨U, -, hp'⟩ := h'
  rcases Nat.eq_zero_or_pos (a.commit T) with h0 | hT
  · rw [h0, take_zero] at hp
    rw [prefix_nil.1 hp]
    exact .inl nil_prefix
  rcases Nat.eq_zero_or_pos (a.commit U) with h0 | hU
  · rw [h0, take_zero] at hp'
    rw [prefix_nil.1 hp']
    exact .inr nil_prefix
  rcases (hs.committed T hT).comparable hs.shape hs.retention (hs.committed U hU) with hle | hle
  · exact prefix_total (hp.trans hle) hp'
  · exact prefix_total hp (hp'.trans hle)

end Chosen

end Consensus
