import Mathlib.Order.Nat

/-!
# Numbers handed out from a counter

A counter gives out runs of consecutive numbers, each run to one owner, and the owners use
the numbers of their runs from the lowest up.  `Allotment top held used` says that what the
owners hold and what they have used comes from such a counter, which stands at `top`.
-/

/-- What owners hold and have used of a counter's numbers. -/
structure Allotment {ι : Type*} (top : ℕ) (held used : ι → ℕ → Prop) : Prop where
  used_pos {c : ι} {n : ℕ} (h : used c n) : 1 ≤ n
  used_le {c : ι} {n : ℕ} (h : used c n) : n ≤ top
  held_pos {c : ι} {n : ℕ} (h : held c n) : 1 ≤ n
  held_le {c : ι} {n : ℕ} (h : held c n) : n ≤ top
  /-- No number is held by two. -/
  held_one {c c' : ι} {n : ℕ} (h : held c n) (h' : held c' n) : c = c'
  /-- No number that is held has been used. -/
  fresh {c c' : ι} {n : ℕ} (h : held c n) : ¬ used c' n
  /-- What an owner holds is above what it has used. -/
  above {c : ι} {n m : ℕ} (h : used c n) (h' : held c m) : n < m

namespace Allotment

variable {ι : Type*} {top : ℕ} {held used : ι → ℕ → Prop}

theorem nothing (top : ℕ) : Allotment top (fun (_ : ι) _ => False) fun _ _ => False where
  used_pos h := h.elim
  used_le h := h.elim
  held_pos h := h.elim
  held_le h := h.elim
  held_one h := h.elim
  fresh h := h.elim
  above h := h.elim

variable {held' : ι → ℕ → Prop} (h : Allotment top held used)
include h

theorem mono {used' : ι → ℕ → Prop} (hheld : ∀ c n, held' c n → held c n)
    (hused : ∀ c n, used' c n → used c n) :
    Allotment top held' used' where
  used_pos hn := h.used_pos (hused _ _ hn)
  used_le hn := h.used_le (hused _ _ hn)
  held_pos hn := h.held_pos (hheld _ _ hn)
  held_le hn := h.held_le (hheld _ _ hn)
  held_one hn hn' := h.held_one (hheld _ _ hn) (hheld _ _ hn')
  fresh hn hu := h.fresh (hheld _ _ hn) (hused _ _ hu)
  above hu hn := h.above (hused _ _ hu) (hheld _ _ hn)

/-- An owner gets the next run. -/
theorem refill (b : ℕ) (hheld : ∀ c n, held' c n → held c n ∨ top < n ∧ n ≤ top + b)
    (hone : ∀ c c' n, top < n → held' c n → held' c' n → c = c') :
    Allotment (top + b) held' used where
  used_pos := h.used_pos
  used_le hn := Nat.le_add_right_of_le (h.used_le hn)
  held_pos hn := (hheld _ _ hn).elim h.held_pos fun hn => Nat.one_le_of_lt hn.1
  held_le hn := (hheld _ _ hn).elim (fun hn => Nat.le_add_right_of_le (h.held_le hn)) And.right
  held_one {c c' n} hn hn' := by
    rcases Nat.lt_or_ge top n with hlt | hle
    · exact hone c c' n hlt hn hn'
    · have hold : ∀ c, held' c n → held c n := fun c hn =>
        (hheld c n hn).resolve_right fun hnew => absurd hnew.1 (Nat.not_lt.2 hle)
      exact h.held_one (hold c hn) (hold c' hn')
  fresh hn hu := (hheld _ _ hn).elim (fun hn => h.fresh hn hu)
    fun hn => absurd (h.used_le hu) (Nat.not_le.2 hn.1)
  above hu hn := (hheld _ _ hn).elim (h.above hu) fun hn => Nat.lt_of_le_of_lt (h.used_le hu) hn.1

/-- An owner uses the lowest number it holds. -/
theorem take {c : ι} {n : ℕ} (hn : held c n)
    (hheld : ∀ c' m, held' c' m → held c' m ∧ (c' = c → n < m)) :
    Allotment top held' fun c' m => used c' m ∨ c' = c ∧ m = n where
  used_pos hm := hm.elim h.used_pos fun hm => hm.2 ▸ h.held_pos hn
  used_le hm := hm.elim h.used_le fun hm => hm.2 ▸ h.held_le hn
  held_pos hm := h.held_pos (hheld _ _ hm).1
  held_le hm := h.held_le (hheld _ _ hm).1
  held_one hm hm' := h.held_one (hheld _ _ hm).1 (hheld _ _ hm').1
  fresh {c' c₁ m} hm hu := by
    obtain ⟨hold, hlt⟩ := hheld _ _ hm
    rcases hu with hu | ⟨-, rfl⟩
    · exact h.fresh hold hu
    · exact absurd (hlt (h.held_one hold hn)) (lt_irrefl _)
  above {c' m m'} hu hm := by
    obtain ⟨hold, hlt⟩ := hheld _ _ hm
    rcases hu with hu | ⟨rfl, rfl⟩
    · exact h.above hu hold
    · exact hlt rfl

end Allotment
