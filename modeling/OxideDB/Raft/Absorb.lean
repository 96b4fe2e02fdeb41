import OxideDB.Raft.Blocks
import OxideDB.Consensus.Invariant

/-!
# Absorbing a leader's entries

The loop of `append_entries` over the entries of a request, first as a function on
the whole log and then on the node.  An entry the log has already is skipped, a
missing one appended, and one that conflicts cuts the log before it goes in.
-/

namespace OxideDB.Raft

open List

open Consensus (Merge)

/-! ## On the whole log -/

/-- What one entry does to a log whose first `base` entries are folded away. -/
def absorb (base : ℕ) (l : List LogEntry) (e : LogEntry) : List LogEntry :=
  if e.index ≤ base then l
  else
    match l[e.index - 1]? with
    | some x => if x.term ≠ e.term then l.take (e.index - 1) ++ [e] else l
    | none => l ++ [e]

variable {base prev : ℕ} {l m : List LogEntry} {e : LogEntry}

theorem length_absorb (base : ℕ) (hl : e.index ≤ l.length + 1) :
    e.index ≤ (absorb base l e).length ∨ e.index ≤ base := by
  unfold absorb
  split
  · rename_i h; exact .inr h
  left
  split
  · rename_i x hx
    have := (List.getElem?_eq_some_iff.1 hx).1
    split
    · rw [length_append, length_take, length_singleton]; omega
    · omega
  · rw [length_append, length_singleton]; omega

/-- Below the entry, and below anything it agrees with, nothing changes. -/
theorem getElem?_absorb {i : ℕ} (hi : i < l.length)
    (hkeep : e.index ≤ i + 1 → base < e.index → ∀ x, l[e.index - 1]? = some x → x.term = e.term) :
    (absorb base l e)[i]? = l[i]? := by
  unfold absorb
  split
  · rfl
  rename_i hb
  split
  · rename_i x hx
    split
    · rename_i hne
      have hlt : i + 1 < e.index := by
        by_contra hle
        exact hne (hkeep (by omega) (by omega) x hx)
      have hx' := (List.getElem?_eq_some_iff.1 hx).1
      rw [getElem?_append_left (by rw [length_take]; omega),
        getElem?_take_of_lt (by omega)]
    · rfl
  · rw [getElem?_append_left hi]

section

variable (hm : Numbered 0 m) (hprev : m.take prev <+: l) (hbase : m.take base <+: l)
include hm hprev hbase

/-- **The loop, entry by entry.**  `m` is the leader's log, sent from `prev` on.
Induction over the entries absorbed so far. -/
theorem absorb_fold
    (hmatch : ∀ k x y, l[k]? = some x → m[k]? = some y → x.term = y.term →
      l.take (k + 1) = m.take (k + 1)) (j : ℕ) (hj : prev + j ≤ m.length) :
    (((m.drop prev).take j).foldl (absorb base) l = l ∧ m.take (prev + j) <+: l) ∨
    (((m.drop prev).take j).foldl (absorb base) l = m.take (prev + j) ∧
      ¬ m.take (prev + j) <+: l) := by
  induction j with
  | zero => exact .inl ⟨rfl, hprev⟩
  | succ j ih =>
    have hlt : prev + j < m.length := by omega
    obtain ⟨e, he⟩ : ∃ e, m[prev + j]? = some e := ⟨_, getElem?_eq_getElem hlt⟩
    have hidx : e.index = prev + j + 1 := by have := hm _ e he; omega
    have htake : (m.drop prev).take (j + 1) = (m.drop prev).take j ++ [e] := by
      rw [take_add_one, getElem?_drop, he]; rfl
    have hmtake : m.take (prev + (j + 1)) = m.take (prev + j) ++ [e] := by
      rw [← Nat.add_assoc, take_add_one, he]; rfl
    have hlen : (m.take (prev + j)).length = prev + j := by
      rw [length_take]; omega
    rw [htake, foldl_append, foldl_cons, foldl_nil]
    rcases ih (by omega) with ⟨hcur, hpre⟩ | ⟨hcur, hnot⟩
    · rw [hcur]
      by_cases hb : e.index ≤ base
      · refine .inl ⟨by rw [absorb, if_pos hb], ?_⟩
        exact (take_prefix_take_left (by omega)).trans hbase
      rcases hx : l[prev + j]? with _ | x
      · -- the log ends here, so it was the leader's log up to this place
        have hlen' : l.length ≤ prev + j := getElem?_eq_none_iff.1 hx
        have hl : l = m.take (prev + j) :=
          (hpre.eq_of_length_le (by rw [hlen]; exact hlen')).symm
        refine .inr ⟨?_, fun hp => ?_⟩
        · rw [absorb, if_neg hb, hidx, Nat.add_sub_cancel, hx, hmtake, ← hl]
        · have := hp.length_le
          rw [length_take] at this
          omega
      · by_cases hterm : x.term = e.term
        · refine .inl ⟨?_, ?_⟩
          · rw [absorb, if_neg hb, hidx, Nat.add_sub_cancel, hx]
            simp [hterm]
          · rw [← Nat.add_assoc, ← hmatch _ x e hx he hterm]
            exact take_prefix _ _
        · refine .inr ⟨?_, fun hp => ?_⟩
          · rw [absorb, if_neg hb, hidx, Nat.add_sub_cancel, hx, hmtake]
            simp only [ne_eq, hterm, not_false_eq_true, if_true]
            congr 1
            rw [prefix_iff_eq_take.1 hpre, hlen]
          · have hex : l[prev + j]? = some e := by
              obtain ⟨t, ht⟩ := hp
              rw [← ht, hmtake, append_assoc, getElem?_append_right hlen.le, hlen,
                Nat.sub_self]
              rfl
            rw [hx] at hex
            exact hterm (by rw [Option.some.inj hex])
    · have hb : ¬ e.index ≤ base := fun hb =>
        hnot ((take_prefix_take_left (by omega)).trans hbase)
      refine .inr ⟨?_, fun hp => hnot (List.IsPrefix.trans ?_ hp)⟩
      · rw [hcur, absorb, if_neg hb, hidx, Nat.add_sub_cancel,
          getElem?_eq_none hlen.le, hmtake]
      · exact take_prefix_take_left (by omega)

/-- At every turn the log is one that accepting `m` may leave. -/
theorem absorb_merge
    (hmatch : ∀ k x y, l[k]? = some x → m[k]? = some y → x.term = y.term →
      l.take (k + 1) = m.take (k + 1)) (hlen : prev ≤ m.length) (k : ℕ) :
    Merge l m (((m.drop prev).take k).foldl (absorb base) l) := by
  have key : ∀ j, prev + j ≤ m.length →
      Merge l m (((m.drop prev).take j).foldl (absorb base) l) := by
    intro j hj
    rcases absorb_fold hm hprev hbase hmatch j hj with ⟨hcur, -⟩ | ⟨hcur, hnot⟩
    · rw [hcur]; exact .refl l m
    · rw [hcur]
      exact .take fun hp => hnot ((take_prefix_take_left (Nat.le_succ _)).trans hp)
  rcases Nat.le_total (prev + k) m.length with hk | hk
  · exact key k hk
  have : (m.drop prev).take k = (m.drop prev).take (m.length - prev) := by
    rw [take_of_length_le (by rw [length_drop]; omega),
      take_of_length_le (by rw [length_drop])]
  rw [this]
  exact key _ (by omega)

theorem absorb_cut
    (hmatch : ∀ k x y, l[k]? = some x → m[k]? = some y → x.term = y.term →
      l.take (k + 1) = m.take (k + 1)) {k : ℕ} (he : (m.drop prev)[k]? = some e) {x : LogEntry}
    (hx : (((m.drop prev).take k).foldl (absorb base) l)[e.index - 1]? = some x)
    (hne : x.term ≠ e.term) :
    Merge l m ((((m.drop prev).take k).foldl (absorb base) l).take (e.index - 1)) := by
  rw [getElem?_drop] at he
  have hidx : e.index = prev + k + 1 := by have := hm _ e he; omega
  have hlt := (List.getElem?_eq_some_iff.1 he).1
  have hlen : (m.take (prev + k)).length = prev + k := by rw [length_take]; omega
  rw [hidx, Nat.add_sub_cancel] at hx ⊢
  rcases absorb_fold hm hprev hbase hmatch k (by omega) with ⟨hcur, hpre⟩ | ⟨hcur, hnot⟩
  · rw [hcur] at hx ⊢
    have htake : l.take (prev + k) = m.take (prev + k) := by
      rw [prefix_iff_eq_take.1 hpre, hlen]
    rw [htake]
    refine .take fun hp => hne ?_
    have hxe : l[prev + k]? = some e := by
      refine Consensus.prefix_getElem? hp ?_
      rw [getElem?_take_of_lt (Nat.lt_succ_self _)]
      exact he
    rw [hx] at hxe
    rw [Option.some.inj hxe]
  · rw [hcur, List.getElem?_eq_none hlen.le] at hx
    cases hx

/-- In the end the leader's log is in the node's. -/
theorem absorb_all
    (hmatch : ∀ k x y, l[k]? = some x → m[k]? = some y → x.term = y.term →
      l.take (k + 1) = m.take (k + 1)) (hlen : prev ≤ m.length) :
    m <+: (m.drop prev).foldl (absorb base) l := by
  have hall : (m.drop prev).take (m.length - prev) = m.drop prev :=
    take_of_length_le (by rw [length_drop])
  have hmall : m.take (prev + (m.length - prev)) = m := take_of_length_le (by omega)
  have := absorb_fold hm hprev hbase hmatch (m.length - prev) (by omega)
  rw [hall, hmall] at this
  rcases this with ⟨hcur, hpre⟩ | ⟨hcur, -⟩
  · rw [hcur]; exact hpre
  · rw [hcur]

end

/-! ## On the node -/

namespace Node

variable {n : ℕ} {σ δ : Type} {cfg : Config n σ δ} {nd : Node n σ δ}

/-- The request conflicts with nothing the node knows to be committed. -/
def KeepsCommitted (nd : Node n σ δ) (es : List LogEntry) : Prop :=
  ∀ e ∈ es, e.index ≤ nd.commitIndex → ∀ x, nd.entryAt e.index = some x → x.term = e.term

instance (nd : Node n σ δ) (es : List LogEntry) : Decidable (nd.KeepsCommitted es) := by
  unfold KeepsCommitted
  infer_instance

variable {S : List LogEntry → ℕ → Prop} (h : nd.Steady cfg)
include h

/-- One turn of the loop.  The cut a conflict makes is a write of its own. -/
theorem absorbEntry_leads (hidx : e.index ≤ nd.fullLog.length + 1)
    (hkeep : e.index ≤ nd.commitIndex → ∀ x, nd.entryAt e.index = some x → x.term = e.term)
    (hS : S (absorb nd.lastIncludedIndex nd.fullLog e) nd.commitIndex)
    (hcut : nd.lastIncludedIndex < e.index → ∀ x, nd.fullLog[e.index - 1]? = some x →
      x.term ≠ e.term → S (nd.fullLog.take (e.index - 1)) nd.commitIndex) :
    Leads cfg S nd (nd.absorbEntry e) ∧
      (nd.absorbEntry e).fullLog = absorb nd.lastIncludedIndex nd.fullLog e ∧
      (nd.absorbEntry e).lastIncludedIndex = nd.lastIncludedIndex ∧
      (nd.absorbEntry e).commitIndex = nd.commitIndex := by
  by_cases hb : e.index ≤ nd.lastIncludedIndex
  · have heq : nd.absorbEntry e = nd := by rw [absorbEntry, if_pos hb]
    have habs : absorb nd.lastIncludedIndex nd.fullLog e = nd.fullLog := by
      rw [absorb, if_pos hb]
    rw [habs] at hS
    rw [heq, habs]
    exact ⟨.refl h hS, rfl, rfl, rfl⟩
  have hentry := h.entryAt_eq (i := e.index) (by omega)
  rcases hx : nd.fullLog[e.index - 1]? with _ | x
  · have heq : nd.absorbEntry e = nd.append e := by
      rw [absorbEntry, if_neg hb, hentry, hx]
    have habs : absorb nd.lastIncludedIndex nd.fullLog e = nd.fullLog ++ [e] := by
      rw [absorb, if_neg hb, hx]
    have hend : e.index = nd.fullLog.length + 1 := by
      have := getElem?_eq_none_iff.1 hx
      omega
    have hl := append_leads h hend
    rw [habs] at hS
    rw [heq, habs]
    exact ⟨hl.mono fun l c hlc => hlc.1 ▸ hlc.2 ▸ hS, hl.holds.1, rfl, rfl⟩
  by_cases hterm : x.term = e.term
  · have heq : nd.absorbEntry e = nd := by
      rw [absorbEntry, if_neg hb, hentry, hx]
      simp [hterm]
    have habs : absorb nd.lastIncludedIndex nd.fullLog e = nd.fullLog := by
      rw [absorb, if_neg hb, hx]
      simp [hterm]
    rw [habs] at hS
    rw [heq, habs]
    exact ⟨.refl h hS, rfl, rfl, rfl⟩
  · have heq : nd.absorbEntry e = (nd.truncateFrom e.index).append e := by
      rw [absorbEntry, if_neg hb, hentry, hx]
      simp [hterm]
    have habs : absorb nd.lastIncludedIndex nd.fullLog e =
        nd.fullLog.take (e.index - 1) ++ [e] := by
      rw [absorb, if_neg hb, hx]
      simp [hterm]
    have hlen := (List.getElem?_eq_some_iff.1 hx).1
    have hcommit : nd.commitIndex < e.index := by
      by_contra hle
      exact hterm (hkeep (by omega) x (hentry.trans hx))
    have ht := truncateFrom_leads h hcommit (by omega)
    have hta := append_leads ht.steady (e := e) (by
      rw [ht.holds.1, length_take]; omega)
    rw [ht.holds.1, ht.holds.2] at hta
    rw [habs] at hS
    rw [heq, habs]
    refine ⟨(ht.mono ?_).trans (hta.mono ?_), hta.holds.1, rfl, hta.holds.2⟩
    · rintro l c ⟨rfl, rfl⟩
      exact hcut (by omega) x hx hterm
    · rintro l c ⟨rfl, rfl⟩
      exact hS

/-- **The loop of `append_entries`.**  The node's log goes through the states
`absorb` goes through, and through the cuts in between.  Induction over the entries;
what carries it is that the part known to be committed never changes. -/
theorem absorbEntries_leads {es : List LogEntry} (hes : Numbered prev es)
    (hprev : prev ≤ nd.fullLog.length) (hkeep : nd.KeepsCommitted es)
    (hS : ∀ k, S ((es.take k).foldl (absorb nd.lastIncludedIndex) nd.fullLog) nd.commitIndex)
    (hcut : ∀ k e, es[k]? = some e → nd.lastIncludedIndex < e.index →
      ∀ x, ((es.take k).foldl (absorb nd.lastIncludedIndex) nd.fullLog)[e.index - 1]? = some x →
      x.term ≠ e.term →
      S (((es.take k).foldl (absorb nd.lastIncludedIndex) nd.fullLog).take (e.index - 1))
        nd.commitIndex) :
    Leads cfg S nd (es.foldl absorbEntry nd) ∧
      (es.foldl absorbEntry nd).fullLog = es.foldl (absorb nd.lastIncludedIndex) nd.fullLog ∧
      (es.foldl absorbEntry nd).lastIncludedIndex = nd.lastIncludedIndex ∧
      (es.foldl absorbEntry nd).commitIndex = nd.commitIndex := by
  induction es generalizing nd prev with
  | nil => exact ⟨.refl h (hS 0), rfl, rfl, rfl⟩
  | cons e es ih =>
    obtain ⟨hidx, hes⟩ := Numbered.cons_iff.1 hes
    obtain ⟨hl, hf, hb, hc⟩ := absorbEntry_leads h (e := e) (by omega)
      (hkeep e mem_cons_self) (S := S) (hS 1) (hcut 0 e rfl)
    have hbase := le_trans h.base_le h.applied_le
    have hcommit := h.commit_le
    -- what is known to be committed is as it was
    have hsame : ∀ i, i < nd.commitIndex → (nd.absorbEntry e).fullLog[i]? = nd.fullLog[i]? := by
      intro i hi
      rw [hf]
      refine getElem?_absorb (by omega) fun hle hlt x hx => ?_
      exact hkeep e mem_cons_self (by omega) x ((h.entryAt_eq hlt).trans hx)
    have hprev' : prev + 1 ≤ (nd.absorbEntry e).fullLog.length := by
      rw [hf]
      rcases length_absorb nd.lastIncludedIndex (l := nd.fullLog) (e := e)
        (by omega) with hlen | hlen
      · omega
      · rw [absorb, if_pos hlen]
        omega
    have hkeep' : (nd.absorbEntry e).KeepsCommitted es := by
      intro e' he' hle x hx
      rw [hc] at hle
      by_cases hlt : (nd.absorbEntry e).lastIncludedIndex < e'.index
      · rw [hl.steady.entryAt_eq hlt, hsame _ (by omega)] at hx
        rw [hb] at hlt
        exact hkeep e' (mem_cons_of_mem _ he') hle x ((h.entryAt_eq hlt).trans hx)
      · rw [Steady.entryAt_none _ (by omega)] at hx
        cases hx
    obtain ⟨hl', hf', hb', hc'⟩ := ih hl.steady hes hprev' hkeep'
      (fun k => by rw [hf, hb, hc]; exact hS (k + 1))
      (fun k e' he' hlt x hx hne => by
        rw [hb] at hlt hx ⊢
        rw [hf] at hx ⊢
        rw [hc]
        exact hcut (k + 1) e' he' hlt x hx hne)
    refine ⟨hl.trans hl', ?_, hb'.trans hb, hc'.trans hc⟩
    rw [foldl_cons, foldl_cons, hf', hf, hb]

end Node

end OxideDB.Raft
