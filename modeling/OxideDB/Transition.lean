import Mathlib.Data.List.Basic

/-!
# Runs of a transition system

A system is a step function that takes a state and an event to the next state, or
refuses.  A run is a list of events, none of them refused.  Runs are restricted by a
condition on each of their steps, read off the state before the step: `Along step P s es`
says that every step of the run `es` from `s` meets `P`.

* `run_append` — runs compose.
-/

namespace Transition

variable {S E : Type*} {step : S → E → Option S} {P Q : S → E → Prop} {s s' : S}

/-- The state after the events, or `none` when one of them was not possible. -/
def run (step : S → E → Option S) : S → List E → Option S
  | s, [] => some s
  | s, e :: es => (step s e).bind fun s' => run step s' es

/-- Every step of the run meets `P`. -/
def Along (step : S → E → Option S) (P : S → E → Prop) : S → List E → Prop
  | _, [] => True
  | s, e :: es => P s e ∧
    match step s e with
    | some s' => Along step P s' es
    | none => True

instance Along.decidable (step : S → E → Option S) (P : S → E → Prop)
    [∀ s e, Decidable (P s e)] : (s : S) → (es : List E) → Decidable (Along step P s es)
  | _, [] => inferInstanceAs (Decidable True)
  | s, e :: es =>
    have : Decidable (match step s e with
        | some s' => Along step P s' es
        | none => True) :=
      match step s e with
      | some s' => Along.decidable step P s' es
      | none => inferInstanceAs (Decidable True)
    inferInstanceAs (Decidable (_ ∧ _))

theorem run_append (s : S) (es es' : List E) :
    run step s (es ++ es') = (run step s es).bind fun s' => run step s' es' := by
  induction es generalizing s with
  | nil => rfl
  | cons e es ih =>
    simp only [List.cons_append, run]
    rcases step s e with _ | s'
    · rfl
    · exact ih s'

variable {e : E} {es es' : List E} {s₁ : S}

/-- A run that begins with `e`: the step, and the rest. -/
theorem run_cons (h : run step s (e :: es) = some s') :
    ∃ s₁, step s e = some s₁ ∧ run step s₁ es = some s' :=
  Option.bind_eq_some_iff.1 h

/-- A run, and one that goes on from where it ends. -/
theorem run_join (hr : run step s es = some s₁) (hr' : run step s₁ es' = some s') :
    run step s (es ++ es') = some s' := by
  rw [run_append, hr]
  exact hr'

theorem run_concat (hr : run step s es = some s₁) (hs : step s₁ e = some s') :
    run step s (es ++ [e]) = some s' :=
  run_join hr (by simp only [run, hs, Option.bind_some])

namespace Along

theorem cons (h : Along step P s (e :: es)) (hs : step s e = some s₁) :
    P s e ∧ Along step P s₁ es := by
  obtain ⟨hP, hrest⟩ := h
  simp only [hs] at hrest
  exact ⟨hP, hrest⟩

theorem left (h : Along step P s (es ++ es')) : Along step P s es := by
  induction es generalizing s with
  | nil => trivial
  | cons e es ih =>
    obtain ⟨hP, hrest⟩ := h
    refine ⟨hP, ?_⟩
    rcases hs : step s e with _ | s₁
    · trivial
    · simp only [hs] at hrest
      exact ih hrest

theorem right (h : Along step P s (es ++ es')) (hr : run step s es = some s') :
    Along step P s' es' := by
  induction es generalizing s with
  | nil => cases hr; exact h
  | cons e es ih =>
    obtain ⟨s₁, hs, hr⟩ := run_cons hr
    exact ih (h.cons hs).2 hr

theorem append (h : Along step P s es) (hr : run step s es = some s') (h' : Along step P s' es') :
    Along step P s (es ++ es') := by
  induction es generalizing s with
  | nil => cases hr; exact h'
  | cons e es ih =>
    obtain ⟨s₁, hs, hr⟩ := run_cons hr
    obtain ⟨hP, hrest⟩ := h.cons hs
    refine ⟨hP, ?_⟩
    rw [hs]
    exact ih hrest hr

theorem imp (hPQ : ∀ s e, P s e → Q s e) (h : Along step P s es) : Along step Q s es := by
  induction es generalizing s with
  | nil => trivial
  | cons e es ih =>
    obtain ⟨hP, hrest⟩ := h
    refine ⟨hPQ s e hP, ?_⟩
    rcases hs : step s e with _ | s₁
    · trivial
    · simp only [hs] at hrest
      exact ih hrest

section

variable {I : S → Prop} (hstep : ∀ s e s', P s e → I s → step s e = some s' → I s')
include hstep

/-- **What every permitted step keeps, the run keeps.** -/
theorem invariant (h : Along step P s es) (hI : I s) (hr : run step s es = some s') : I s' := by
  induction es generalizing s with
  | nil => cases hr; exact hI
  | cons e es ih =>
    obtain ⟨s₁, hs, hr⟩ := run_cons hr
    obtain ⟨hP, hrest⟩ := h.cons hs
    exact ih hrest (hstep s e s₁ hP hI hs) hr

/-- What the invariant makes of every permitted step, holds of the steps of the run. -/
theorem derive (hQ : ∀ s e, P s e → I s → Q s e) (h : Along step P s es) (hI : I s) :
    Along step Q s es := by
  induction es generalizing s with
  | nil => trivial
  | cons e es ih =>
    obtain ⟨hP, hrest⟩ := h
    refine ⟨hQ s e hP hI, ?_⟩
    rcases hs : step s e with _ | s₁
    · trivial
    · simp only [hs] at hrest
      exact ih hrest (hstep s e s₁ hP hI hs)

end

/-- A condition that every event of the run meets restricts nothing. -/
theorem of_mem (h : ∀ s, ∀ e ∈ es, P s e) : Along step P s es := by
  induction es generalizing s with
  | nil => trivial
  | cons e es ih =>
    refine ⟨h s e List.mem_cons_self, ?_⟩
    rcases step s e with _ | s₁
    · trivial
    · exact ih fun s e he => h s e (List.mem_cons_of_mem _ he)

theorem of_forall (h : ∀ s e, P s e) (s : S) (es : List E) : Along step P s es :=
  of_mem fun s e _ => h s e

/-- **A run seen in a smaller system**: where every permitted step is a permitted step of the part
`f` of the state, or leaves that part as it is, a run is a run of the part. -/
theorem project {S' E' : Type*} {step' : S' → E' → Option S'} {P' : S' → E' → Prop} (f : S → S')
    (hstep : ∀ s e s', P s e → step s e = some s' →
      f s' = f s ∨ ∃ e', P' (f s) e' ∧ step' (f s) e' = some (f s'))
    (h : Along step P s es) (hr : run step s es = some s') :
    ∃ es', Along step' P' (f s) es' ∧ run step' (f s) es' = some (f s') := by
  induction es generalizing s with
  | nil => cases hr; exact ⟨[], trivial, rfl⟩
  | cons e es ih =>
    obtain ⟨s₁, hs, hr⟩ := run_cons hr
    obtain ⟨hP, hrest⟩ := h.cons hs
    obtain ⟨es', hes', hr'⟩ := ih hrest hr
    rcases hstep s e s₁ hP hs with hsame | ⟨e', hP', hs'⟩
    · rw [hsame] at hes' hr'
      exact ⟨es', hes', hr'⟩
    refine ⟨e' :: es', ⟨hP', ?_⟩, ?_⟩
    · rw [hs']
      exact hes'
    · rw [run, hs']
      exact hr'

end Along

theorem run_invariant {I : S → Prop} (hstep : ∀ s e s', I s → step s e = some s' → I s') (hI : I s)
    (hr : run step s es = some s') : I s' :=
  (Along.of_forall (P := fun _ _ => True) (fun _ _ => trivial) s es).invariant
    (fun s e s' _ => hstep s e s') hI hr

/-- A run that ends in a state with the property `p`, as the run itself shows. -/
theorem exists_of_any {p : S → Prop} [DecidablePred p]
    (h : (run step s es).any (fun s' => p s') = true) : ∃ s', run step s es = some s' ∧ p s' := by
  rcases hr : run step s es with _ | s'
  · rw [hr] at h; cases h
  · rw [hr] at h; exact ⟨s', rfl, of_decide_eq_true h⟩

/-- The run shows `p` of the state it ends in, and from that comes `q`. -/
theorem exists_run {p q : S → Prop} [DecidablePred p]
    (h : (run step s es).any (fun s' => p s') = true)
    (hq : ∀ s', run step s es = some s' → p s' → q s') : ∃ s', run step s es = some s' ∧ q s' := by
  obtain ⟨s', hr, hp⟩ := exists_of_any h
  exact ⟨s', hr, hq s' hr hp⟩

end Transition
