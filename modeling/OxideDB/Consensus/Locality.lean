import OxideDB.Consensus.Completeness

/-!
# What one node's steps leave to the others

A protocol step is taken by one node, and what the others rely on it leaves alone:
their terms, logs and ballots, and the logs of the terms they lead.  `Own p a b` is
that frame, and `Moves τ p a b` says that `b` is reached from `a` by steps of `p`.
-/

variable {T : ℕ}

namespace Consensus

open Function

variable {N E : Type*} {a b c : Ledger N E} {p : N}

/-- What `p` may have changed between `a` and `b`. -/
structure Own (p : N) (a b : Ledger N E) : Prop where
  term : ∀ q, q ≠ p → b.term q = a.term q
  log : ∀ q, q ≠ p → b.log q = a.log q
  ballot : ∀ q, q ≠ p → b.ballot q = a.ballot q
  reign : ∀ T el, a.won T = some el → el.leader ≠ p → b.reign T = a.reign T
  commit : ∀ T el, a.won T = some el → el.leader ≠ p → b.commit T = a.commit T
  won : ∀ T el, b.won T = some el → a.won T = some el ∨ el.leader = p

namespace Own

theorem refl (p : N) (a : Ledger N E) : Own p a a :=
  ⟨fun _ _ => rfl, fun _ _ => rfl, fun _ _ => rfl, fun _ _ _ _ => rfl, fun _ _ _ _ => rfl,
    fun _ _ h => .inl h⟩

theorem trans (h : Own p a b) (hg : a.Grows b) (h' : Own p b c) : Own p a c where
  term q hq := (h'.term q hq).trans (h.term q hq)
  log q hq := (h'.log q hq).trans (h.log q hq)
  ballot q hq := (h'.ballot q hq).trans (h.ballot q hq)
  reign T el hel hp := (h'.reign T el (hg.won T el hel) hp).trans (h.reign T el hel hp)
  commit T el hel hp := (h'.commit T el (hg.won T el hel) hp).trans (h.commit T el hel hp)
  won T el hel := by
    rcases h'.won T el hel with hel | hp
    · exact h.won T el hel
    · exact .inr hp

variable [DecidableEq N]

theorem enter (p : N) (T : ℕ) : Own p a (a.enter p T) :=
  { refl p a with term := fun _ hq => update_of_ne hq .. }

theorem cast (p v : N) (T : ℕ) : Own p a (a.cast p v T) :=
  { refl p a with
    term := fun _ hq => update_of_ne hq ..
    ballot := fun _ hq => update_of_ne hq .. }

theorem stand (p : N) (T : ℕ) : Own p a (a.stand p T) where
  term _ hq := (update_of_ne hq ..).trans (update_of_ne hq ..)
  log _ _ := rfl
  ballot _ hq := update_of_ne hq ..
  reign _ _ _ _ := rfl
  commit _ _ _ _ := rfl
  won _ _ h := .inl h

omit [DecidableEq N] in
theorem crown (el : Election N E) (hnone : a.won T = none) : Own el.leader a (a.crown T el) := by
  have hne : ∀ U el', a.won U = some el' → U ≠ T := by
    rintro U el' hel' rfl
    rw [hnone] at hel'
    cases hel'
  refine { refl el.leader a with reign := ?_, won := ?_ }
  · exact fun U el' hel' _ => update_of_ne (hne U el' hel') ..
  intro U el' hel'
  by_cases hU : U = T
  · subst hU
    have : (a.crown U el).won U = some el := update_self ..
    rw [this, Option.some.injEq] at hel'
    exact .inr (congrArg Election.leader hel'.symm)
  · exact .inl ((update_of_ne hU ..).symm.trans hel')

theorem extend {el : Election N E} (e : E) (hel : a.won T = some el) :
    Own el.leader a (a.extend el.leader T e) := by
  refine { refl el.leader a with log := fun _ hq => update_of_ne hq .., reign := ?_ }
  intro U el' hel' hne
  refine update_of_ne ?_ ..
  rintro rfl
  rw [hel] at hel'
  exact hne (congrArg Election.leader (Option.some.inj hel').symm)

theorem adopt (p : N) (T : ℕ) (l : List E) : Own p a (a.adopt p T l) :=
  { refl p a with
    term := fun _ hq => update_of_ne hq ..
    log := fun _ hq => update_of_ne hq .. }

theorem acknowledge (p : N) (T k : ℕ) : Own p a (a.acknowledge p T k) :=
  { refl p a with term := fun _ hq => update_of_ne hq .. }

omit [DecidableEq N] in
theorem commitTo {el : Election N E} (k : ℕ) (hel : a.won T = some el) :
    Own el.leader a (a.commitTo T k) := by
  refine { refl el.leader a with commit := ?_ }
  intro U el' hel' hne
  refine update_of_ne ?_ ..
  rintro rfl
  rw [hel] at hel'
  exact hne (congrArg Election.leader (Option.some.inj hel').symm)

end Own

variable [Fintype N] [DecidableEq N] {τ : E → ℕ}

/-- `b` is reached from `a` by steps of `p`. -/
structure Moves (τ : E → ℕ) (p : N) (a b : Ledger N E) : Prop where
  steps : Steps τ a b
  sound : Sound τ b
  grows : a.Grows b
  own : Own p a b

namespace Moves

theorem refl (hs : Sound τ a) (p : N) : Moves τ p a a :=
  ⟨.refl, hs, Ledger.Grows.refl a, Own.refl p a⟩

theorem trans (h : Moves τ p a b) (h' : Moves τ p b c) : Moves τ p a c :=
  ⟨h.steps.trans h'.steps, h'.sound, h.grows.trans h'.grows, h.own.trans h.grows h'.own⟩

theorem step (hs : Sound τ a) (hstep : Step τ a b) (ho : Own p a b) : Moves τ p a b :=
  ⟨.single hstep, hs.step hstep, hs.shape.grows hstep, ho⟩

end Moves

end Consensus
