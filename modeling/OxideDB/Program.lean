import Mathlib.Data.List.Basic
import Mathlib.Order.Defs.Unbundled

/-!
# Programs with a state and exceptions

A program takes a state to a result, or to an exception, and leaves a state either way: what was
done before an exception stays done.
-/

/-- A program over the state `S` that returns an `A` or raises an `E`. -/
def Program (S E A : Type) := S → Except E A × S

namespace Program

variable {S E A B : Type}

instance : Monad (Program S E) where
  pure a s := (.ok a, s)
  bind p f s :=
    match p s with
    | (.ok a, s') => f a s'
    | (.error e, s') => (.error e, s')

def raise (e : E) : Program S E A := fun s => (.error e, s)

def get (f : S → A) : Program S E A := fun s => (.ok (f s), s)

def modify (f : S → S) : Program S E Unit := fun s => (.ok (), f s)

/-- What the program has returned or raised. -/
def attempt (p : Program S E A) : Program S E (Except E A) := fun s => (.ok (p s).1, (p s).2)

/-! ## What a program leaves -/

/-- From `s`, the program ends as `Q` says. -/
def Spec (p : Program S E A) (s : S) (Q : Except E A → S → Prop) : Prop := Q (p s).1 (p s).2

variable {p : Program S E A} {f : A → Program S E B} {s : S} {Q Q' : Except E A → S → Prop}
variable {a : A} {e : E} {s' : S} {g : S → S}

theorem spec_pure : (pure a : Program S E A).Spec s Q ↔ Q (.ok a) s := Iff.rfl

theorem spec_raise : (raise e : Program S E A).Spec s Q ↔ Q (.error e) s := Iff.rfl

theorem spec_attempt {Q : Except E (Except E A) → S → Prop} :
    p.attempt.Spec s Q ↔ p.Spec s fun r => Q (.ok r) := Iff.rfl

theorem bind_ok (h : p s = (.ok a, s')) : (p >>= f) s = f a s' := by
  show bind p f s = _
  simp only [bind, h]

theorem bind_error (h : p s = (.error e, s')) : (p >>= f) s = (.error e, s') := by
  show bind p f s = _
  simp only [bind, h]

section

variable {Q : Except E B → S → Prop}

theorem spec_bind :
    (p >>= f).Spec s Q ↔ p.Spec s fun r s' =>
      match r with
      | .ok a => (f a).Spec s' Q
      | .error e => Q (.error e) s' := by
  show Q (bind p f s).1 (bind p f s).2 ↔ _
  simp only [bind, Spec]
  rcases p s with ⟨_ | _, _⟩ <;> rfl

theorem spec_bind_ok (h : p s = (.ok a, s')) : (p >>= f).Spec s Q ↔ (f a).Spec s' Q := by
  rw [Spec, bind_ok h, Spec]

theorem spec_get_bind {g : S → A} : (get g >>= f).Spec s Q ↔ (f (g s)).Spec s Q := Iff.rfl

theorem spec_modify_bind {f : Unit → Program S E B} :
    (modify g >>= f).Spec s Q ↔ (f ()).Spec (g s) Q := Iff.rfl

end

theorem Spec.mono (h : p.Spec s Q) (hQ : ∀ r s', Q r s' → Q' r s') : p.Spec s Q' := hQ _ _ h

theorem Spec.and (h : p.Spec s Q) (h' : p.Spec s Q') : p.Spec s fun r s' => Q r s' ∧ Q' r s' :=
  ⟨h, h'⟩

/-- The first program's end, and what the second makes of it. -/
theorem Spec.bind {Q' : Except E B → S → Prop} (h : p.Spec s Q)
    (hok : ∀ a s', Q (.ok a) s' → (f a).Spec s' Q') (herr : ∀ e s', Q (.error e) s' → Q' (.error e) s') :
    (p >>= f).Spec s Q' :=
  spec_bind.2 <| h.mono fun r s' hr => by
    cases r with
    | ok a => exact hok a s' hr
    | error e => exact herr e s' hr

/-! ## Programs that return -/

/-- From `s`, the program raises nothing, and `R` holds of what it returns and leaves. -/
def Returns (p : Program S E A) (s : S) (R : A → S → Prop) : Prop :=
  ∃ a s', p s = (.ok a, s') ∧ R a s'

namespace Returns

variable {R R' : A → S → Prop}

theorem pure (h : R a s) : (Pure.pure a : Program S E A).Returns s R := ⟨a, s, rfl, h⟩

theorem get {g : S → A} (h : R (g s) s) : (Program.get g : Program S E A).Returns s R :=
  ⟨g s, s, rfl, h⟩

theorem modify {R : Unit → S → Prop} (h : R () (g s)) :
    (Program.modify g : Program S E Unit).Returns s R := ⟨(), g s, rfl, h⟩

theorem mono (h : p.Returns s R) (hR : ∀ a s', R a s' → R' a s') : p.Returns s R' := by
  obtain ⟨a, s', hp, ha⟩ := h
  exact ⟨a, s', hp, hR a s' ha⟩

theorem bind {R' : B → S → Prop} (h : p.Returns s R) (hf : ∀ a s', R a s' → (f a).Returns s' R') :
    (p >>= f).Returns s R' := by
  obtain ⟨a, s', hp, ha⟩ := h
  obtain ⟨b, s'', hfa, hb⟩ := hf a s' ha
  exact ⟨b, s'', (bind_ok hp).trans hfa, hb⟩

theorem forM {l : List B} {g : B → Program S E PUnit} {I : S → Prop}
    (h : ∀ b ∈ l, ∀ s, I s → (g b).Returns s fun _ => I) (hs : I s) :
    (l.forM g).Returns s fun _ => I := by
  induction l generalizing s with
  | nil => exact .pure hs
  | cons b l ih =>
    exact (h b List.mem_cons_self s hs).bind fun _ _ hs' =>
      ih (fun b' hb' => h b' (List.mem_cons_of_mem _ hb')) hs'

theorem attempt (h : p.Returns s R) : p.attempt.Returns s fun r s' => ∃ a, r = .ok a ∧ R a s' := by
  obtain ⟨a, s', hp, ha⟩ := h
  refine ⟨.ok a, s', ?_, a, rfl, ha⟩
  rw [Program.attempt, hp]

end Returns

/-! ## Programs that keep to a preorder -/

/-- Whatever state it begins in and however it ends, the program has gone up. -/
def Within (R : S → S → Prop) (p : Program S E A) : Prop := ∀ s, R s (p s).2

namespace Within

variable {R : S → S → Prop}

theorem modify (h : ∀ s, R s (g s)) : Within R (Program.modify g : Program S E Unit) := h

theorem attempt (h : Within R p) : Within R p.attempt := h

variable [IsPreorder S R]

theorem pure (a : A) : Within R (Pure.pure a : Program S E A) := fun s => refl_of R s

theorem raise (e : E) : Within R (Program.raise e : Program S E A) := fun s => refl_of R s

theorem get (g : S → A) : Within R (Program.get g : Program S E A) := fun s => refl_of R s

theorem bind (h : Within R p) (hf : ∀ a, Within R (f a)) : Within R (p >>= f) := by
  intro s
  have hp := h s
  rcases hps : p s with ⟨e | a, s'⟩
  · rw [hps] at hp
    rw [bind_error hps]
    exact hp
  · rw [hps] at hp
    rw [bind_ok hps]
    exact trans_of R hp (hf a s')

theorem forM {l : List B} {g : B → Program S E PUnit} (h : ∀ b ∈ l, Within R (g b)) :
    Within R (l.forM g) := by
  induction l with
  | nil => exact pure _
  | cons b l ih =>
    exact (h b List.mem_cons_self).bind fun _ => ih fun b' hb' => h b' (List.mem_cons_of_mem _ hb')

end Within

theorem Spec.of_within {R : S → S → Prop} (h : Within R p) (s : S) : p.Spec s fun _ s' => R s s' := h s

/-! ## Programs with fuel -/

/-- From some fuel on the program comes to an end, and always to the same; `none` is returned where the
fuel was not enough. -/
def Settles (p : ℕ → Program S E (Option A)) (s : S) : Prop :=
  ∃ n, (p n s).1 ≠ .ok none ∧ ∀ m, n ≤ m → p m s = p n s

namespace Settles

variable {p q : ℕ → Program S E (Option A)} {s s' : S}

theorem of_run {r : Except E (Option A)} (n : ℕ) (hrun : ∀ m, n ≤ m → p m s = (r, s'))
    (h : r ≠ .ok none) : Settles p s :=
  ⟨n, by rw [hrun n (Nat.le_refl n)]; exact h, fun m hle => by rw [hrun m hle, hrun n (Nat.le_refl n)]⟩

theorem of_eq (n : ℕ) (hrun : ∀ m, n ≤ m → p m s = q m s') (h : Settles q s') : Settles p s := by
  obtain ⟨k, hne, hsame⟩ := h
  have hmax : p (max n k) s = q k s' := by
    rw [hrun _ (Nat.le_max_left _ _), hsame _ (Nat.le_max_right _ _)]
  refine ⟨max n k, by rw [hmax]; exact hne, fun m hle => ?_⟩
  rw [hmax, hrun m (Nat.le_trans (Nat.le_max_left _ _) hle),
    hsame m (Nat.le_trans (Nat.le_max_right _ _) hle)]

theorem succ (h : Settles (fun n => p (n + 1)) s) : Settles p s := by
  obtain ⟨n, hne, hsame⟩ := h
  refine ⟨n + 1, hne, fun m hle => ?_⟩
  obtain ⟨k, rfl⟩ : ∃ k, m = k + 1 := ⟨m - 1, (Nat.succ_pred_eq_of_pos (by omega)).symm⟩
  exact hsame k (Nat.le_of_succ_le_succ hle)

theorem after {q : Program S E B} {p : B → ℕ → Program S E (Option A)}
    (h : ∀ b s', q s = (.ok b, s') → Settles (p b) s') :
    Settles (fun n => q >>= fun b => p b n) s := by
  rcases hq : q s with ⟨e | b, s'⟩
  · exact of_run 0 (fun _ _ => bind_error hq) nofun
  · exact of_eq 0 (fun _ _ => bind_ok hq) (h b s' hq)

theorem andThen {f : Option A → Program S E (Option B)} (h : Settles p s)
    (hf : ∀ a s', (f (some a) s').1 ≠ .ok none) : Settles (fun n => p n >>= f) s := by
  obtain ⟨n, hne, hsame⟩ := h
  rcases hp : p n s with ⟨e | _ | a, s'⟩
  · exact of_run n (fun m hle => bind_error ((hsame m hle).trans hp)) nofun
  · rw [hp] at hne
    exact absurd rfl hne
  · exact of_run n (fun m hle => bind_ok ((hsame m hle).trans hp)) (hf a s')

end Settles

end Program
