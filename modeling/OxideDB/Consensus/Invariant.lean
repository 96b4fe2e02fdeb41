import OxideDB.Consensus.Ledger

/-!
# The shape of a replicated log

What every reachable `Ledger` looks like.  The carrier is `Valid`: a log in which
the prefix ending at an entry of term `T` is a prefix of the log of `T`'s leader.
Two valid logs that share an entry's place and term are therefore equal up to it,
which is log matching, and terms never fall along a valid log.
-/

variable {T k U : ℕ}

namespace Consensus

open List Option Function Ledger

variable {N E : Type*} {τ : E → ℕ}

/-! ## Valid logs -/

/-- The prefix that ends at an entry is a prefix of the log of that entry's term. -/
def Valid (τ : E → ℕ) (reign : ℕ → List E) (l : List E) : Prop :=
  ∀ k e, l[k]? = some e → l.take (k + 1) <+: reign (τ e)

theorem Valid.nil (reign : ℕ → List E) : Valid τ reign [] := by
  intro k e he
  simp at he

variable {e : E} {el : Election N E} {l l' : List E} {p c v : N} {x : N × List E}

/-- What stands in a prefix stands in the list. -/
theorem prefix_getElem? (hp : l <+: l') (he : l[k]? = some e) : l'[k]? = some e := by
  obtain ⟨t, rfl⟩ := hp
  rw [getElem?_append_left (List.getElem?_eq_some_iff.1 he).1]
  exact he

theorem Valid.of_isPrefix {reign : ℕ → List E} (h : Valid τ reign l) (hp : l' <+: l) :
    Valid τ reign l' := by
  intro k e he
  have hk : k < l'.length := (List.getElem?_eq_some_iff.1 he).1
  have hl : l[k]? = some e := prefix_getElem? hp he
  have htake : l'.take (k + 1) = l.take (k + 1) := by
    rw [prefix_iff_eq_take.1 hp, take_take, min_eq_left hk]
  rw [htake]
  exact h k e hl

variable {l : List E}

/-- Leaders' logs only grow, so a valid log stays valid. -/
theorem Valid.mono {r r' : ℕ → List E} (h : Valid τ r l) (hr : ∀ T, r T <+: r' T) : Valid τ r' l :=
  fun k e he => (h k e he).trans (hr _)

variable {r : ℕ → List E}

/-- A valid log ends inside the log of its last entry's term. -/
theorem Valid.prefix_reign (h : Valid τ r l) (he : l.getLast? = some e) : l <+: r (τ e) := by
  have hne : l ≠ [] := by rintro rfl; simp at he
  have hpos : 0 < l.length := length_pos_iff.2 hne
  have hidx : l[l.length - 1]? = some e := by rw [← getLast?_eq_getElem?]; exact he
  have := h _ e hidx
  rwa [Nat.sub_add_cancel hpos, take_length] at this

/-- **Log matching.**  Two valid logs with an entry of one term at one place are
equal up to it. -/
theorem Valid.matching (h : Valid τ r l) (h' : Valid τ r l') {e' : E} (he : l[k]? = some e)
    (he' : l'[k]? = some e') (ht : τ e = τ e') : l.take (k + 1) = l'.take (k + 1) := by
  have h1 := h k e he
  have h2 := h' k e' he'
  rw [← ht] at h2
  have hk : k < l.length := (List.getElem?_eq_some_iff.1 he).1
  have hk' : k < l'.length := (List.getElem?_eq_some_iff.1 he').1
  have hlen : (l.take (k + 1)).length = (l'.take (k + 1)).length := by
    rw [length_take, length_take]; omega
  exact (prefix_of_prefix_length_le h1 h2 hlen.le).eq_of_length hlen

/-- An entry appended at the end of its own term's log. -/
theorem Valid.concat (h : Valid τ r l) (hr : l ++ [e] <+: r (τ e)) : Valid τ r (l ++ [e]) := by
  intro k x hx
  rcases lt_or_ge k l.length with hk | hk
  · rw [getElem?_append_left hk] at hx
    rw [List.take_append_of_le_length hk]
    exact h k x hx
  · obtain ⟨rfl⟩ : k = l.length := by
      have := (List.getElem?_eq_some_iff.1 hx).1
      rw [length_append, length_singleton] at this
      omega
    rw [getElem?_append_right le_rfl, Nat.sub_self] at hx
    simp only [getElem?_cons_zero, some.injEq] at hx
    subst hx
    rwa [take_of_length_le (by simp)]

/-! ## The invariant -/

variable [Fintype N]

/-- The shape of a reachable state. -/
structure Shape (τ : E → ℕ) (a : Ledger N E) : Prop where
  logValid : ∀ p, Valid τ a.reign (a.log p)
  logTerm : ∀ p, ∀ e ∈ a.log p, τ e ≤ a.term p
  reignValid : ∀ T, Valid τ a.reign (a.reign T)
  reignTerm : ∀ T, ∀ e ∈ a.reign T, τ e ≤ T
  reignSorted : ∀ T, (a.reign T).Pairwise (τ · ≤ τ ·)
  candValid : ∀ c T l, a.cand c T = some l → Valid τ a.reign l
  candTerm : ∀ c T l, a.cand c T = some l → 0 < T ∧ T ≤ a.term c ∧ ∀ e ∈ l, τ e < T
  ballotValid : ∀ v T c l, a.ballot v T = some (c, l) → Valid τ a.reign l
  ballotTerm : ∀ v T c l, a.ballot v T = some (c, l) → T ≤ a.term v
  ballotCand : ∀ v T c l, a.ballot v T = some (c, l) →
    ∃ lc, a.cand c T = some lc ∧ UpToDate τ lc l
  wonCand : ∀ T el, a.won T = some el → a.cand el.leader T = some el.log
  wonMajority : ∀ T el, a.won T = some el → Majority el.electors
  wonBallot : ∀ T el, a.won T = some el → ∀ v ∈ el.electors,
    ∃ l, a.ballot v T = some (el.leader, l)
  wonLog : ∀ T el, a.won T = some el → el.log <+: a.reign T
  wonTail : ∀ T el, a.won T = some el → ∀ e ∈ (a.reign T).drop el.log.length, τ e = T
  unwon : ∀ T, a.won T = none → a.reign T = []
  ackLe : ∀ v T, a.ack v T ≤ (a.reign T).length
  ackTerm : ∀ v T, 0 < a.ack v T → T ≤ a.term v

namespace Shape

variable {a b : Ledger N E}

theorem init : Shape τ (init : Ledger N E) where
  logValid _ := Valid.nil _
  logTerm _ e he := by simp [Ledger.init] at he
  reignValid _ := Valid.nil _
  reignTerm _ e he := by simp [Ledger.init] at he
  reignSorted _ := List.Pairwise.nil
  candValid _ _ _ h := by simp [Ledger.init] at h
  candTerm _ _ _ h := by simp [Ledger.init] at h
  ballotValid _ _ _ _ h := by simp [Ledger.init] at h
  ballotTerm _ _ _ _ h := by simp [Ledger.init] at h
  ballotCand _ _ _ _ h := by simp [Ledger.init] at h
  wonCand _ _ h := by simp [Ledger.init] at h
  wonMajority _ _ h := by simp [Ledger.init] at h
  wonBallot _ _ h := by simp [Ledger.init] at h
  wonLog _ _ h := by simp [Ledger.init] at h
  wonTail _ _ h := by simp [Ledger.init] at h
  unwon _ _ := rfl
  ackLe _ _ := le_rfl
  ackTerm _ _ h := by simp [Ledger.init] at h

theorem won_of_mem (h : Shape τ a) (hl : Valid τ a.reign l) (he : l[k]? = some e) :
    ∃ el, a.won (τ e) = some el := by
  by_contra hno
  have hnone : a.won (τ e) = none := by
    rw [← not_isSome_iff_eq_none]
    intro hs
    exact hno (isSome_iff_exists.1 hs)
  have hp := hl k e he
  rw [h.unwon _ hnone, prefix_nil] at hp
  have hk : k < l.length := (List.getElem?_eq_some_iff.1 he).1
  have := congrArg length hp
  rw [length_take, length_nil] at this
  omega

theorem sorted (h : Shape τ a) (hl : Valid τ a.reign l) : l.Pairwise (τ · ≤ τ ·) := by
  rcases hlast : l.getLast? with _ | e
  · rw [getLast?_eq_none_iff] at hlast
    rw [hlast]
    exact List.Pairwise.nil
  · exact (h.reignSorted _).sublist (hl.prefix_reign hlast).sublist

/-! ## The steps preserve the shape -/

variable [DecidableEq N]

omit [Fintype N] [DecidableEq N] in
theorem le_update {ι : Type*} [DecidableEq ι] {f : ι → ℕ} {p : ι} (hT : f p ≤ T) (q : ι) :
    f q ≤ update f p T q := by
  by_cases hq : q = p
  · subst hq; rwa [update_self]
  · rw [update_of_ne hq]

variable {T : ℕ}

theorem enter (h : Shape τ a) (hT : a.term p ≤ T) :
    Shape τ (a.enter p T) where
  __ := h
  logTerm q e he := le_trans (h.logTerm q e he) (le_update hT q)
  candTerm c U l hl := by
    obtain ⟨h0, h1, h2⟩ := h.candTerm c U l hl
    exact ⟨h0, le_trans h1 (le_update hT c), h2⟩
  ballotTerm v U c l hl := le_trans (h.ballotTerm v U c l hl) (le_update hT v)
  ackTerm v U hv := le_trans (h.ackTerm v U hv) (le_update hT v)

omit [Fintype N] in
theorem cast_ballot (hx : (a.cast p c T).ballot v U = some x) :
    (v = p ∧ U = T ∧ x = (c, a.log p)) ∨ a.ballot v U = some x := by
  simp only [Ledger.cast] at hx
  by_cases hv : v = p
  · subst hv
    rw [update_self] at hx
    by_cases hU : U = T
    · subst hU
      rw [update_self] at hx
      exact .inl ⟨rfl, rfl, (some.inj hx).symm⟩
    · rw [update_of_ne hU] at hx
      exact .inr hx
  · rw [update_of_ne hv] at hx
    exact .inr hx

omit [Fintype N] in
/-- A ballot is never overwritten by a different one. -/
theorem cast_keeps (hnone : a.ballot p T = none) (hx : a.ballot v U = some x) :
    (a.cast p c T).ballot v U = some x := by
  simp only [Ledger.cast]
  by_cases hv : v = p
  · subst hv
    rw [update_self]
    by_cases hU : U = T
    · subst hU; rw [hnone] at hx; simp at hx
    · rwa [update_of_ne hU]
  · rwa [update_of_ne hv]

theorem cast (h : Shape τ a) (hT : a.term p ≤ T) (hnone : a.ballot p T = none)
    (hc : a.cand c T = some l) (hu : UpToDate τ l (a.log p)) :
    Shape τ (a.cast p c T) where
  __ := h.enter hT
  ballotValid v U d x hx := by
    rcases cast_ballot hx with ⟨rfl, rfl, heq⟩ | hx
    · obtain ⟨rfl, rfl⟩ := Prod.mk.inj heq
      exact h.logValid v
    · exact h.ballotValid v U d x hx
  ballotTerm v U d x hx := by
    rcases cast_ballot hx with ⟨rfl, rfl, -⟩ | hx
    · show U ≤ update a.term v U v
      rw [update_self]
    · exact (h.enter hT).ballotTerm v U d x hx
  ballotCand v U d x hx := by
    rcases cast_ballot hx with ⟨rfl, rfl, heq⟩ | hx
    · obtain ⟨rfl, rfl⟩ := Prod.mk.inj heq
      exact ⟨l, hc, hu⟩
    · exact h.ballotCand v U d x hx
  wonBallot U el hel v hv := by
    obtain ⟨x, hx⟩ := h.wonBallot U el hel v hv
    exact ⟨x, cast_keeps hnone hx⟩

omit [DecidableEq N] in
/-- A node has not voted in a term it has not reached. -/
theorem ballot_none (h : Shape τ a) (hT : a.term p < T) : a.ballot p T = none := by
  rcases hb : a.ballot p T with _ | ⟨c, l⟩
  · rfl
  · exact absurd (h.ballotTerm p T c l hb) (Nat.not_le.2 hT)

omit [DecidableEq N] in
theorem cand_none (h : Shape τ a) (hT : a.term p < T) : a.cand p T = none := by
  rcases hb : a.cand p T with _ | l
  · rfl
  · exact absurd (h.candTerm p T l hb).2.1 (Nat.not_le.2 hT)

omit [Fintype N] in
/-- The candidacies after one more node stands. -/
theorem nominate_cand (hl : (a.nominate p T).cand c U = some l) :
    (c = p ∧ U = T ∧ l = a.log p) ∨ a.cand c U = some l := by
  simp only [nominate] at hl
  by_cases hc : c = p
  · subst hc
    rw [update_self] at hl
    by_cases hU : U = T
    · subst hU
      rw [update_self] at hl
      exact .inl ⟨rfl, rfl, (some.inj hl).symm⟩
    · rw [update_of_ne hU] at hl
      exact .inr hl
  · rw [update_of_ne hc] at hl
    exact .inr hl

omit [Fintype N] in
theorem nominate_keeps (hnone : a.cand p T = none) (hl : a.cand c U = some l) :
    (a.nominate p T).cand c U = some l := by
  simp only [nominate]
  by_cases hc : c = p
  · subst hc
    rw [update_self]
    by_cases hU : U = T
    · subst hU; rw [hnone] at hl; simp at hl
    · rwa [update_of_ne hU]
  · rwa [update_of_ne hc]

theorem nominate (h : Shape τ a) (hT : a.term p < T) :
    Shape τ (a.nominate p T) where
  __ := h.enter hT.le
  candValid c U l hl := by
    rcases nominate_cand hl with ⟨rfl, rfl, rfl⟩ | hl
    · exact h.logValid c
    · exact h.candValid c U l hl
  candTerm c U l hl := by
    rcases nominate_cand hl with ⟨rfl, rfl, rfl⟩ | hl
    · refine ⟨by omega, ?_, fun e he => lt_of_le_of_lt (h.logTerm c e he) hT⟩
      show U ≤ update a.term c U c
      rw [update_self]
    · exact (h.enter hT.le).candTerm c U l hl
  ballotCand v U c l hl := by
    obtain ⟨lc, hlc, hu⟩ := h.ballotCand v U c l hl
    exact ⟨lc, nominate_keeps (h.cand_none hT) hlc, hu⟩
  wonCand U el hel := nominate_keeps (h.cand_none hT) (h.wonCand U el hel)

theorem stand (h : Shape τ a) (hT : a.term p < T) : Shape τ (a.stand p T) := by
  refine (h.nominate hT).cast (l := a.log p) ?_ (h.ballot_none hT) ?_ (.inr ⟨rfl, le_rfl⟩)
  · show update a.term p T p ≤ T
    rw [update_self]
  · simp [Ledger.nominate]

omit [DecidableEq N] in
/-- Winning a term gives it a log where it had none. -/
theorem crown_reign (h : Shape τ a) (el : Election N E) (hnone : a.won T = none) (U : ℕ) :
    a.reign U <+: (a.crown T el).reign U := by
  simp only [crown]
  by_cases hU : U = T
  · subst hU
    rw [h.unwon U hnone]
    exact nil_prefix
  · rw [update_of_ne hU]

omit [DecidableEq N] in
theorem crown (h : Shape τ a) (hnone : a.won T = none) (hc : a.cand el.leader T = some el.log)
    (hm : Majority el.electors) (hb : ∀ v ∈ el.electors, ∃ l, a.ballot v T = some (el.leader, l)) :
    Shape τ (a.crown T el) := by
  have hreign := h.crown_reign el hnone
  have hval := h.candValid _ _ _ hc
  have hlt := (h.candTerm _ _ _ hc).2.2
  have hself : (a.crown T el).reign T = el.log := update_self ..
  have hne : ∀ {U}, U ≠ T → (a.crown T el).reign U = a.reign U :=
    fun hU => update_of_ne hU ..
  have hwne : ∀ {U}, U ≠ T → (a.crown T el).won U = a.won U :=
    fun hU => update_of_ne hU ..
  have hwself : (a.crown T el).won T = some el := update_self ..
  refine { h with
    logValid := fun p => (h.logValid p).mono hreign
    reignValid := ?_, reignTerm := ?_, reignSorted := ?_
    candValid := fun c U l hl => (h.candValid c U l hl).mono hreign
    ballotValid := fun v U c l hl => (h.ballotValid v U c l hl).mono hreign
    wonCand := ?_, wonMajority := ?_, wonBallot := ?_, wonLog := ?_, wonTail := ?_
    unwon := ?_, ackLe := fun v U => le_trans (h.ackLe v U) (hreign U).length_le }
  · intro U
    by_cases hU : U = T
    · subst hU; rw [hself]; exact hval.mono hreign
    · rw [hne hU]; exact (h.reignValid U).mono hreign
  · intro U
    by_cases hU : U = T
    · subst hU; rw [hself]; exact fun e he => (hlt e he).le
    · rw [hne hU]; exact h.reignTerm U
  · intro U
    by_cases hU : U = T
    · subst hU; rw [hself]; exact h.sorted hval
    · rw [hne hU]; exact h.reignSorted U
  · intro U el' hel'
    by_cases hU : U = T
    · subst hU; rw [hwself] at hel'; cases hel'; exact hc
    · rw [hwne hU] at hel'; exact h.wonCand U el' hel'
  · intro U el' hel'
    by_cases hU : U = T
    · subst hU; rw [hwself] at hel'; cases hel'; exact hm
    · rw [hwne hU] at hel'; exact h.wonMajority U el' hel'
  · intro U el' hel'
    by_cases hU : U = T
    · subst hU; rw [hwself] at hel'; cases hel'; exact hb
    · rw [hwne hU] at hel'; exact h.wonBallot U el' hel'
  · intro U el' hel'
    by_cases hU : U = T
    · subst hU; rw [hwself] at hel'; cases hel'; rw [hself]
    · rw [hwne hU] at hel'; rw [hne hU]; exact h.wonLog U el' hel'
  · intro U el' hel'
    by_cases hU : U = T
    · subst hU; rw [hwself] at hel'; cases hel'; rw [hself, drop_length]; simp
    · rw [hwne hU] at hel'; rw [hne hU]; exact h.wonTail U el' hel'
  · intro U hU'
    by_cases hU : U = T
    · subst hU; rw [hwself] at hU'; simp at hU'
    · rw [hwne hU] at hU'; rw [hne hU]; exact h.unwon U hU'

omit [Fintype N] in
theorem extend_reign (U : ℕ) : a.reign U <+: (a.extend c T e).reign U := by
  simp only [Ledger.extend]
  by_cases hU : U = T
  · subst hU; rw [update_self]; exact prefix_append _ _
  · rw [update_of_ne hU]

theorem extend (h : Shape τ a) (hw : a.won T = some el) (ht : a.term el.leader = T) (he : τ e = T) :
    Shape τ (a.extend el.leader T e) := by
  have hreign : ∀ U, a.reign U <+: (a.extend el.leader T e).reign U := extend_reign
  have hself : (a.extend el.leader T e).reign T = a.reign T ++ [e] := update_self ..
  have hne : ∀ {U}, U ≠ T → (a.extend el.leader T e).reign U = a.reign U :=
    fun hU => update_of_ne hU ..
  have hnew : Valid τ (a.extend el.leader T e).reign (a.reign T ++ [e]) := by
    refine ((h.reignValid T).mono hreign).concat ?_
    rw [he, hself]
  refine { h with
    logValid := ?_, logTerm := ?_
    reignValid := ?_, reignTerm := ?_, reignSorted := ?_
    candValid := fun c U l hl => (h.candValid c U l hl).mono hreign
    ballotValid := fun v U c l hl => (h.ballotValid v U c l hl).mono hreign
    wonLog := fun U el' hel' => (h.wonLog U el' hel').trans (hreign U)
    wonTail := ?_, unwon := ?_
    ackLe := fun v U => le_trans (h.ackLe v U) (hreign U).length_le }
  · intro p
    by_cases hp : p = el.leader
    · subst hp; simp only [Ledger.extend, update_self]; exact hnew
    · simp only [Ledger.extend, update_of_ne hp]; exact (h.logValid p).mono hreign
  · intro p x hx
    by_cases hp : p = el.leader
    · subst hp
      simp only [Ledger.extend, update_self] at hx ⊢
      rcases mem_append.1 hx with hx | hx
      · rw [ht]; exact h.reignTerm T x hx
      · rw [mem_singleton.1 hx, he, ht]
    · simp only [Ledger.extend, update_of_ne hp] at hx ⊢
      exact h.logTerm p x hx
  · intro U
    by_cases hU : U = T
    · subst hU; rw [hself]; exact hnew
    · rw [hne hU]; exact (h.reignValid U).mono hreign
  · intro U x hx
    by_cases hU : U = T
    · subst hU
      rw [hself] at hx
      rcases mem_append.1 hx with hx | hx
      · exact h.reignTerm U x hx
      · rw [mem_singleton.1 hx, he]
    · rw [hne hU] at hx; exact h.reignTerm U x hx
  · intro U
    by_cases hU : U = T
    · subst hU
      rw [hself, pairwise_append]
      refine ⟨h.reignSorted U, pairwise_singleton .., ?_⟩
      intro x hx y hy
      rw [mem_singleton.1 hy, he]
      exact h.reignTerm U x hx
    · rw [hne hU]; exact h.reignSorted U
  · intro U el' hel' x hx
    by_cases hU : U = T
    · subst hU
      have hle := (h.wonLog U el' hel').length_le
      rw [hself, drop_append_of_le_length hle] at hx
      rcases mem_append.1 hx with hx | hx
      · exact h.wonTail U el' hel' x hx
      · rw [mem_singleton.1 hx, he]
    · rw [hne hU] at hx; exact h.wonTail U el' hel' x hx
  · intro U hU'
    have hU : U ≠ T := by
      rintro rfl
      have : a.won U = none := hU'
      rw [hw] at this
      simp at this
    rw [hne hU]
    exact h.unwon U hU'

theorem adopt (h : Shape τ a) {m : List E} (hT : a.term p ≤ T) (hm : m <+: a.reign T)
    (hl : Merge (a.log p) m l) : Shape τ (a.adopt p T l) where
  __ := h.enter hT
  logValid q := by
    by_cases hq : q = p
    · subst hq
      simp only [adopt, update_self]
      rcases hl with rfl | ⟨hlm, -⟩
      · exact h.logValid q
      · exact (h.reignValid T).of_isPrefix (hlm.trans hm)
    · simp only [Ledger.adopt, update_of_ne hq]
      exact h.logValid q
  logTerm q x hx := by
    by_cases hq : q = p
    · subst hq
      simp only [adopt, update_self] at hx ⊢
      rcases hl with rfl | ⟨hlm, -⟩
      · exact le_trans (h.logTerm q x hx) hT
      · exact h.reignTerm T x ((hlm.trans hm).subset hx)
    · simp only [Ledger.adopt, update_of_ne hq] at hx ⊢
      exact h.logTerm q x hx

omit [Fintype N] in
/-- The acknowledgements after one more is made. -/
theorem acknowledge_ack (v : N) (U : ℕ) :
    (a.acknowledge p T k).ack v U =
      if v = p ∧ U = T then max (a.ack p T) k else a.ack v U := by
  simp only [acknowledge]
  by_cases hv : v = p
  · subst hv
    rw [update_self]
    by_cases hU : U = T
    · subst hU; simp
    · simp [hU]
  · simp [hv]

theorem acknowledge (h : Shape τ a) (hT : a.term p ≤ T) (hk : k ≤ (a.reign T).length) :
    Shape τ (a.acknowledge p T k) where
  __ := h.enter hT
  ackLe v U := by
    rw [acknowledge_ack]
    split
    · rename_i hvU
      obtain ⟨rfl, rfl⟩ := hvU
      exact max_le (h.ackLe v U) hk
    · exact h.ackLe v U
  ackTerm v U hv := by
    rw [acknowledge_ack] at hv
    split at hv
    · rename_i hvU
      obtain ⟨rfl, rfl⟩ := hvU
      show U ≤ update a.term v U v
      rw [update_self]
    · exact (h.enter hT).ackTerm v U hv

/-- **Every step preserves the shape.** -/
theorem step (h : Shape τ a) (hs : Step τ a b) : Shape τ b := by
  cases hs with
  | observe p T hT => exact h.enter hT
  | stand p T hT => exact h.stand hT
  | vote p c T l hT hnone hc hu => exact h.cast hT hnone hc hu
  | win T el hnone hc hm hb => exact h.crown hnone hc hm hb
  | extend T el e hw ht hlog he => exact h.extend hw ht he
  | accept p T m l hT hm hl => exact h.adopt hT hm hl
  | ack p T k hT hk hp => exact h.acknowledge hT hk
  | commit T k hc => exact { h with }

/-! ## History is kept -/

omit [Fintype N] in
theorem acknowledge_le (v : N) (U : ℕ) : a.ack v U ≤ (a.acknowledge p T k).ack v U := by
  rw [acknowledge_ack]
  split
  · rename_i hvU
    obtain ⟨rfl, rfl⟩ := hvU
    exact le_max_left _ _
  · exact le_rfl

/-- **No step takes history back.** -/
theorem grows (h : Shape τ a) (hs : Step τ a b) : a.Grows b := by
  have hrefl := Ledger.Grows.refl a
  cases hs with
  | observe p T hT => exact { hrefl with term := le_update hT }
  | stand p T hT =>
    have hb : (a.nominate p T).ballot p T = none := h.ballot_none hT
    refine { hrefl with
      term := fun q => ?_
      cand := fun c U l hl => nominate_keeps (h.cand_none hT) hl
      ballot := fun v U x hx => cast_keeps hb hx }
    refine le_trans (le_update hT.le q) (le_update (p := p) (T := T) ?_ q)
    rw [update_self]
  | vote p c T l hT hnone hc hu =>
    exact { hrefl with
      term := le_update hT
      ballot := fun v U x hx => cast_keeps hnone hx }
  | win T el hnone hc hm hb =>
    refine { hrefl with won := ?_, reign := h.crown_reign el hnone }
    intro U el' hel'
    have hU : U ≠ T := by
      rintro rfl
      rw [hnone] at hel'
      simp at hel'
    exact (update_of_ne hU ..).trans hel'
  | extend T el e hw ht hlog he => exact { hrefl with reign := extend_reign }
  | accept p T m l hT hm hl => exact { hrefl with term := le_update hT }
  | ack p T k hT hk hp => exact { hrefl with term := le_update hT, ack := acknowledge_le }
  | commit T k hc => exact { hrefl with commit := le_update (le_max_left _ _) }

end Shape

end Consensus
