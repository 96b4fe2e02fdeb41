import Mathlib.Data.List.Basic

/-!
# What is where in a list

A list that names its entries by their places: an entry is replaced, one is added at the end, one is
taken out.
-/

namespace List

variable {α : Type*} {l : List α} {i j : ℕ} {a x : α}

/-- After an entry was replaced: it, or another one as it was. -/
theorem getElem?_set_eq_some (h : (l.set i a)[j]? = some x) :
    i = j ∧ x = a ∨ i ≠ j ∧ l[j]? = some x := by
  by_cases hij : i = j
  · subst hij
    refine .inl ⟨rfl, ?_⟩
    obtain ⟨hlt, hx⟩ := getElem?_eq_some_iff.1 h
    rw [← hx, getElem_set_self]
  · rw [getElem?_set_ne hij] at h
    exact .inr ⟨hij, h⟩

/-- After an entry was added: one that was there, or it. -/
theorem getElem?_concat (h : (l ++ [a])[j]? = some x) :
    l[j]? = some x ∨ j = l.length ∧ x = a := by
  rw [getElem?_append] at h
  split at h
  · exact .inl h
  obtain ⟨hlt, hx⟩ := getElem?_eq_some_iff.1 h
  simp only [length_singleton] at hlt
  have hj : j = l.length := by omega
  subst hj
  exact .inr ⟨rfl, by simpa using hx.symm⟩

/-- What is before an entry and after it stays when the entry is replaced or taken out. -/
theorem split_of_getElem? (h : l[i]? = some x) :
    ∃ A B, l = A ++ x :: B ∧ (∀ y, l.set i y = A ++ y :: B) ∧ l.eraseIdx i = A ++ B := by
  obtain ⟨hlt, rfl⟩ := getElem?_eq_some_iff.1 h
  refine ⟨l.take i, l.drop (i + 1), ?_, fun y => ?_, eraseIdx_eq_take_drop_succ ..⟩
  · rw [getElem_cons_drop, take_append_drop]
  · rw [set_eq_take_append_cons_drop, if_pos hlt]

end List
