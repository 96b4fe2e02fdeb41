import OxideDB.Raft.Pieces
import OxideDB.Raft.Blocks

/-!
# How a log is indexed

A log whose front has been folded away is a list and the index it starts behind.  Truncation,
compaction and a leader's snapshot each rewrite the list, the start and the stored copy by
themselves, and the four counters follow.  They stay in step whoever sends the requests, as
long as the entries of a request are numbered on from where it says they start.

* `Node.Indexed.keeps`, `absorbEntries`, `replaceState` — the pieces of a step keep them so.
-/

namespace OxideDB.Raft

variable {e : LogEntry} {i : ℕ}
variable {n : ℕ} {σ δ : Type} {cfg : Config n σ δ}

namespace Node

open List

variable {nd nd' : Node n σ δ}

/-- The log, its counters and its stored copy are in step. -/
structure Indexed (nd : Node n σ δ) : Prop where
  numbered : Numbered nd.lastIncludedIndex nd.log
  base_le : nd.lastIncludedIndex ≤ nd.lastApplied
  applied_le : nd.lastApplied ≤ nd.commitIndex
  commit_le : nd.commitIndex ≤ nd.lastIncludedIndex + nd.log.length
  stored : nd.storage.log = nd.log
  base : nd.storage.base = nd.lastIncludedIndex

namespace Indexed

section

variable (h : nd.Indexed)
include h

theorem lastLogIndex : nd.lastLogIndex = nd.lastIncludedIndex + nd.log.length :=
  h.numbered.lastLogIndex_eq

theorem le_of_entryAt (he : nd.entryAt i = some e) : i ≤ nd.lastLogIndex := by
  unfold entryAt entryIn at he
  split at he
  · have := (List.getElem?_eq_some_iff.1 he).1
    rw [h.lastLogIndex]
    omega
  · cases he

theorem lt_of_entryAt_none (hbase : nd.lastIncludedIndex < i) (he : nd.entryAt i = none) :
    nd.lastLogIndex < i := by
  unfold entryAt entryIn at he
  rw [if_pos hbase, getElem?_eq_none_iff] at he
  rw [h.lastLogIndex]
  omega

/-! ## The pieces of a step -/

theorem append (he : e.index = nd.lastLogIndex + 1) : (nd.append e).Indexed := by
  rw [h.lastLogIndex] at he
  have hbelow : nd.log.filter (·.index < e.index) = nd.log := by
    rw [h.numbered.filter_lt, take_of_length_le (by omega)]
  have habove : nd.log.filter (e.index < ·.index) = [] := by
    rw [h.numbered.filter_gt (by omega), drop_eq_nil_iff]
    omega
  refine { h with numbered := h.numbered.concat he, commit_le := ?_, stored := ?_ }
  · have hle := h.commit_le
    show nd.commitIndex ≤ nd.lastIncludedIndex + (nd.log ++ [e]).length
    rw [length_append]
    omega
  · show nd.storage.log.filter _ ++ e :: nd.storage.log.filter _ = nd.log ++ [e]
    rw [h.stored, hbelow, habove]

/-- A snapshot at `index` takes the place of everything up to there. -/
theorem folded {index : ℕ} (hle : nd.lastIncludedIndex ≤ index)
    (hlog : nd'.log = nd.log.filter (index < ·.index)) (hbase : nd'.lastIncludedIndex = index)
    (happlied : nd'.lastApplied = index) (hcommit : nd'.commitIndex = max nd.commitIndex index)
    (hstored : nd'.storage.log = nd.storage.log.filter (index < ·.index))
    (hdisk : nd'.storage.base = index) : nd'.Indexed := by
  have hdrop := h.numbered.filter_gt hle
  have hcut := h.numbered.drop (index - nd.lastIncludedIndex)
  rw [Nat.add_sub_of_le hle] at hcut
  refine ⟨?_, by omega, by omega, ?_, by rw [hstored, h.stored, hlog], by rw [hdisk, hbase]⟩
  · rw [hlog, hdrop, hbase]
    exact hcut
  · have := h.commit_le
    rw [hcommit, hbase, hlog, hdrop, length_drop]
    omega

end

theorem applyCommittedEntries (cfg : Config n σ δ) (h : nd.Indexed) :
    (nd.applyCommittedEntries cfg).Indexed := by
  obtain ⟨m, rs, heq⟩ := applyNext_iterate cfg (nd.commitIndex - nd.lastApplied) nd
  rw [Nat.add_sub_of_le h.applied_le] at heq
  have happlied := h.base_le.trans h.applied_le
  have hmoved : Indexed { nd with
      lastApplied := nd.commitIndex, machine := m, applyResults := rs } :=
    { h with base_le := happlied, applied_le := le_rfl }
  rw [Node.applyCommittedEntries, heq]
  refine maybeSnapshot_cases hmoved { hmoved with } fun e data _ _ => ?_
  exact hmoved.folded happlied rfl rfl rfl (max_self _).symm rfl rfl

theorem commitTo (cfg : Config n σ δ) (h : nd.Indexed) (hlt : nd.commitIndex ≤ i)
    (hi : i ≤ nd.lastLogIndex) : (nd.commitTo cfg i).Indexed := by
  rw [h.lastLogIndex] at hi
  refine applyCommittedEntries cfg { h with applied_le := h.applied_le.trans hlt, commit_le := hi }

/-- A cut at an index the log has: memory and disk keep the same front. -/
theorem truncateFrom (h : nd.Indexed) (hbase : nd.lastIncludedIndex < i)
    (hi : i ≤ nd.lastLogIndex) :
    (nd.truncateFrom i).Indexed ∧ (nd.truncateFrom i).lastLogIndex + 1 = i := by
  have hnum : Numbered nd.lastIncludedIndex (nd.log.take (i - nd.lastIncludedIndex - 1)) :=
    h.numbered.take _
  have hlast : (nd.truncateFrom i).lastLogIndex =
      nd.lastIncludedIndex + (nd.log.take (i - nd.lastIncludedIndex - 1)).length :=
    Numbered.lastLogIndex_eq hnum
  have hlen : (nd.log.take (i - nd.lastIncludedIndex - 1)).length = i - nd.lastIncludedIndex - 1 := by
    rw [length_take, min_eq_left]
    rw [h.lastLogIndex] at hi
    omega
  have hcommit : (nd.truncateFrom i).commitIndex =
      min nd.commitIndex (nd.truncateFrom i).lastLogIndex := rfl
  have happlied : (nd.truncateFrom i).lastApplied =
      min nd.lastApplied (nd.truncateFrom i).commitIndex := rfl
  have hb := h.base_le
  have ha := h.applied_le
  refine ⟨⟨hnum, ?_, ?_, ?_, ?_, h.base⟩, by omega⟩
  · show nd.lastIncludedIndex ≤ (nd.truncateFrom i).lastApplied
    omega
  · omega
  · show _ ≤ nd.lastIncludedIndex + (nd.log.take (i - nd.lastIncludedIndex - 1)).length
    omega
  · show nd.storage.log.filter (·.index < i) = nd.log.take (i - nd.lastIncludedIndex - 1)
    rw [h.stored, h.numbered.filter_lt]

/-- An entry whose predecessor the log reaches: the log reaches it too. -/
theorem absorbEntry (h : nd.Indexed) (he : e.index = i + 1) (hi : i ≤ nd.lastLogIndex) :
    (nd.absorbEntry e).Indexed ∧ i + 1 ≤ (nd.absorbEntry e).lastLogIndex := by
  have hreach : ∀ nd : Node n σ δ, (nd.append e).lastLogIndex = i + 1 := by
    intro nd
    have hlast : (nd.append e).log.getLast? = some e := getLast?_concat
    rw [Node.lastLogIndex, hlast]
    exact he
  refine absorbEntry_cases (motive := fun nd => nd.Indexed ∧ i + 1 ≤ nd.lastLogIndex) ?_ ?_ ?_
  · intro hthere
    refine ⟨h, ?_⟩
    rcases le_or_gt e.index nd.lastIncludedIndex with hle | hlt
    · rw [h.lastLogIndex]
      omega
    · obtain ⟨old, hold⟩ := Option.isSome_iff_exists.1 (hthere hlt)
      exact he ▸ h.le_of_entryAt hold
  · intro hbase hnone
    have := h.lt_of_entryAt_none hbase hnone
    exact ⟨h.append (by omega), (hreach nd).ge⟩
  · intro old hbase hold
    obtain ⟨hcut, hlast⟩ := h.truncateFrom hbase (h.le_of_entryAt hold)
    exact ⟨hcut.append hlast.symm, (hreach _).ge⟩

/-- The entries of a request, numbered on from an index the log reaches. -/
theorem absorbEntries (h : nd.Indexed) {es : List LogEntry} (hes : Numbered i es)
    (hi : i ≤ nd.lastLogIndex) : (es.foldl Node.absorbEntry nd).Indexed := by
  induction es generalizing nd i with
  | nil => exact h
  | cons e es ih =>
    obtain ⟨he, hes⟩ := Numbered.cons_iff.1 hes
    obtain ⟨hnext, hreach⟩ := h.absorbEntry he hi
    exact ih hnext hes hreach

/-- The pieces of elections and of a leader. -/
theorem keeps (cfg : Config n σ δ) : Keeps cfg (fun _ => True) Indexed where
  turns h ht := by
    constructor <;>
      simp only [ht.log, ht.storage, ht.commitIndex, ht.lastApplied, ht.lastIncludedIndex]
    exacts [h.numbered, h.base_le, h.applied_le, h.commit_le, h.stored, h.base]
  saveMeta h := { h with }
  append h _ _ := h.append rfl
  commitTo h _ _ hlt he := h.commitTo cfg hlt.le (h.le_of_entryAt he)

theorem le_of_prevMatches {t : ℕ} (h : nd.prevMatches i t = true) : i ≤ nd.lastLogIndex := by
  by_contra hlt
  rw [prevMatches, if_pos (not_le.1 hlt)] at h
  cases h

end Indexed
end Node

/-! ## Steps and lives -/

/-- The entries of a request are numbered on from where it says they start. -/
def Input.Contiguous : Input n δ → Prop
  | .appendEntries r => Numbered r.prevLogIndex r.entries
  | _ => True

/-- Whole steps, and restarts between them.  A crash inside a step is another matter: one that
falls between `save_snapshot` and `compact_log` leaves entries on disk that memory no longer
has. -/
def LifeEvent.Contiguous : LifeEvent n δ → Prop
  | .step input => input.Contiguous
  | .crash => True
  | .crashIn _ _ => False

namespace Node.Indexed

variable {nd : Node n σ δ}

/-- **A step keeps the log in step with its counters and its copy.** -/
theorem handle (cfg : Config n σ δ) (h : nd.Indexed) (me : Fin n) {input : Input n δ}
    (hin : input.Contiguous) : (nd.handle cfg me input).1.Indexed := by
  have hb : nd.begin.Indexed := { h with }
  by_cases hfeed : input.Feeds
  · cases input with
    | appendEntries r =>
      refine (keeps cfg).appendEntries_of hb ?_ ?_
      · exact fun nd h hprev => h.absorbEntries hin (le_of_prevMatches hprev)
      intro nd i h hlt
      have hle := h.commit_le
      rw [← h.lastLogIndex] at hle
      exact h.commitTo cfg (le_min hlt.le hle) (min_le_right _ _)
    | installSnapshot r =>
      refine (keeps cfg).installSnapshot_of hb fun nd h hnew => ?_
      exact h.folded (h.base_le.trans hnew.le) rfl rfl rfl rfl rfl rfl
    | _ => exact hfeed.elim
  · refine (keeps cfg).handle_own hb (fun _ _ => trivial) me
      (input.holds_of_forall fun _ => trivial) (fun hf => ?_) hfeed
    cases input with
    | freezeWrites reason => exact { hb with }
    | resumeWrites => exact { hb with }
    | _ => exact hf.elim

theorem loadFromStorage (cfg : Config n σ δ) (me : Fin n) {st : EngineRaftStorage n δ}
    (h : Numbered st.base st.log) : (loadFromStorage cfg me st).Indexed := by
  obtain ⟨hlog, hbase, happlied, hst⟩ : (loadState cfg me st).log = st.log ∧
      (loadState cfg me st).lastIncludedIndex = st.base ∧
      (loadState cfg me st).lastApplied = st.base ∧ (loadState cfg me st).storage = st := by
    have hall := h.filter_gt le_rfl
    rw [Nat.sub_self, List.drop_zero] at hall
    unfold loadState EngineRaftStorage.loadSnapshot
    unfold EngineRaftStorage.base at hall ⊢
    rcases hs : st.snapshot with _ | s
    · exact ⟨rfl, rfl, rfl, rfl⟩
    · rw [hs] at hall
      exact ⟨hall, rfl, rfl, rfl⟩
  have hnum : Numbered (loadState cfg me st).lastIncludedIndex (loadState cfg me st).log := by
    rw [hbase, hlog]
    exact h
  have hlast := hnum.lastLogIndex_eq
  refine applyCommittedEntries cfg ⟨hnum, (hbase.trans happlied.symm).le, le_max_right _ _, ?_, ?_, ?_⟩
  · refine max_le ((min_le_right _ _).trans hlast.le) ?_
    rw [happlied, ← hbase]
    exact Nat.le_add_right _ _
  · show (loadState cfg me st).storage.log = (loadState cfg me st).log
    rw [hst, hlog]
  · show (loadState cfg me st).storage.base = (loadState cfg me st).lastIncludedIndex
    rw [hst, hbase]

theorem survive (h : nd.Indexed) {me : Fin n} {l : LifeEvent n δ} (hl : l.Contiguous)
    {nd' : Node n σ δ} (hs : nd.survive cfg me l = some nd') : nd'.Indexed := by
  cases l with
  | step input =>
    cases hs
    exact h.handle cfg me hl
  | crash =>
    cases hs
    refine loadFromStorage cfg me ?_
    rw [h.base, h.stored]
    exact h.numbered
  | crashIn input j => exact hl.elim

end Node.Indexed

/-- **The log and its counters stay in step**: after every step of a node's life, whoever it
hears from, the entry at place `i` has index `last_included_index + 1 + i`, the counters are in
order, and the stored log is the one in memory. -/
theorem log_indexing (cfg : Config n σ δ) (me : Fin n) (ls : List (LifeEvent n δ)) (nd : Node n σ δ)
    (hls : Transition.Along (Node.survive cfg me) (fun _ l => l.Contiguous)
      (Node.loadFromStorage cfg me .empty) ls)
    (hr : Node.life cfg me (Node.loadFromStorage cfg me .empty) ls = some nd) :
    (∀ i e, nd.log[i]? = some e → e.index = nd.lastIncludedIndex + 1 + i) ∧
      nd.lastIncludedIndex ≤ nd.lastApplied ∧ nd.lastApplied ≤ nd.commitIndex ∧
      nd.commitIndex ≤ nd.lastLogIndex ∧ nd.storage.log = nd.log := by
  have hempty : (Node.loadFromStorage cfg me .empty).Indexed :=
    Node.Indexed.loadFromStorage cfg me (Numbered.nil 0)
  have h := hls.invariant (fun nd l nd' hl h hs => Node.Indexed.survive h hl hs) hempty hr
  refine ⟨fun i e he => ?_, h.base_le, h.applied_le, ?_, h.stored⟩
  · have := h.numbered i e he
    omega
  · rw [h.lastLogIndex]
    exact h.commit_le

/-- Node 1 follows node 0, folds two entries away, loses one that was not committed to a later
leader, restarts, and takes up a snapshot and an entry behind it. -/
def rewritten : List (LifeEvent 3 (List Bytes)) :=
  [.step (.appendEntries ⟨1, 0, 0, 0, [⟨1, 1, noopCommand⟩, ⟨1, 2, []⟩, ⟨1, 3, []⟩], 2⟩),
    .step (.appendEntries ⟨2, 2, 2, 1, [⟨2, 3, noopCommand⟩], 2⟩), .crash,
    .step (.installSnapshot ⟨2, 2, ⟨5, 2, [], []⟩⟩),
    .step (.appendEntries ⟨2, 2, 5, 2, [⟨2, 6, []⟩], 5⟩)]

theorem log_indexing_rewritten : ∃ nd,
    Node.life (tapes 3 2) 1 (Node.loadFromStorage (tapes 3 2) 1 .empty) rewritten = some nd ∧
      (nd.lastIncludedIndex = 5 ∧ nd.log = [⟨2, 6, []⟩]) ∧ nd.storage.log = nd.log := by
  have hls : Transition.Along (Node.survive (tapes 3 2) 1) (fun _ l => l.Contiguous)
      (Node.loadFromStorage (tapes 3 2) 1 .empty) rewritten := by
    simp only [rewritten, Transition.Along, Node.survive, LifeEvent.Contiguous, Input.Contiguous]
    decide
  exact Transition.exists_run (p := fun nd => nd.lastIncludedIndex = 5 ∧ nd.log = [⟨2, 6, []⟩])
    (by decide +kernel) fun nd hr hnd => ⟨hnd, (log_indexing _ _ _ nd hls hr).2.2.2.2⟩

end OxideDB.Raft
