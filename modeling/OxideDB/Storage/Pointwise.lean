import OxideDB.Storage.Transfer

/-!
# A range read is the read of each key

`scan_versions` walks the versions of a range and then every lock of the keyspace; `get` looks up
the newest lock of one key and then its newest version.  Both judge a lock by the same rule, and a
key has one lock at most, so the two agree.

* `get_blocked`, `get_own`, `get_passed` — what a lock makes of a read of its key.
-/

namespace OxideDB.Storage.MVCCStateMachine

open List MVCCStorage Dict
open Raft (Bytes)
open MVCCStorage (lockOf)

variable {v : Bytes} {locks : List (Bytes × Lock)} {c : ℤ}
variable {m : MVCCStateMachine} {k lo hi : Bytes} {s : ℤ} {f : LockFields} {timestamp : Option ℤ}

/-! ## One key -/

theorem get_blocked (hm : Tidy m) (hlock : m.maps.lock k s = some f)
    (hblock : timestamp.all (s < ·) = true) : m.get k timestamp = .ok .locked := by
  have hown : timestamp ≠ some s := by
    rintro rfl
    simp at hblock
  simp only [get, hm.getNewestLock hlock, bind, Except.bind, lockOf, if_neg hown, if_pos hblock]
  rfl

theorem get_own (hm : Tidy m) (hlock : m.maps.lock k s = some f) :
    m.get k (some s) = .ok (.ok (some f.value)) := by
  simp only [get, hm.getNewestLock hlock, bind, Except.bind, lockOf, if_true]
  rfl

/-- A read that meets no lock, or one of a transaction that began after it. -/
theorem get_passed (hm : Tidy m) (hk : ValidKey k) (hpass : ∀ s f, m.maps.lock k s = some f →
      timestamp.all (s < ·) = false ∧ timestamp ≠ some s) :
    m.get k timestamp = m.readVersion k timestamp := by
  by_cases hfree : ∀ s, m.maps.lock k s = none
  · simp only [get, getNewestLock_free hk hfree, bind, Except.bind]
  obtain ⟨s, hs⟩ := not_forall.1 hfree
  obtain ⟨f, hlock⟩ := Option.ne_none_iff_exists'.1 hs
  obtain ⟨hblock, hown⟩ := hpass s f hlock
  simp only [get, hm.getNewestLock hlock, bind, Except.bind, lockOf, if_neg hown, hblock]
  rfl

/-! ## The locks of a range -/

/-- A lock in the way refuses the range. -/
theorem foldlM_scanLock_refused (rows : Dict Bytes (Bytes × ℤ)) {e : Bytes × Lock} (he : e ∈ locks)
    (hin : lo ≤ e.1 ∧ e.1 < hi) (hblock : timestamp.all (e.2.startTs < ·) = true) :
    ∃ msg key, locks.foldlM (scanLock lo hi timestamp) rows =
      .error (.refused .errLocked msg key) := by
  induction locks generalizing rows with
  | nil => cases he
  | cons first locks ih =>
    rw [foldlM_cons]
    by_cases hfirst : (lo ≤ first.1 ∧ first.1 < hi) ∧ timestamp.all (first.2.startTs < ·) = true
    · rw [scanLock, if_neg (not_not_intro hfirst.1), if_pos hfirst.2]
      exact ⟨_, _, rfl⟩
    -- the first lock lets the walk go on
    obtain ⟨next, hnext⟩ : ∃ next, scanLock lo hi timestamp rows first = .ok next := by
      rw [scanLock]
      split
      · exact ⟨_, rfl⟩
      · next hrange =>
        rw [if_neg fun hall => hfirst ⟨not_not.1 hrange, hall⟩]
        split <;> exact ⟨_, rfl⟩
    rw [hnext]
    refine ih next ((mem_cons.1 he).resolve_left ?_)
    rintro rfl
    exact hfirst ⟨hin, hblock⟩

/-- The walk over the locks found `rows'`: the reader's own intents over what was there. -/
structure Merged (lo hi : Bytes) (timestamp : Option ℤ) (locks : List (Bytes × Lock))
    (rows rows' : Dict Bytes (Bytes × ℤ)) : Prop where
  own {e : Bytes × Lock} (he : e ∈ locks) (hin : lo ≤ e.1 ∧ e.1 < hi)
    (hown : timestamp = some e.2.startTs) : rows'.get? e.1 = some (e.2.value, 0)
  rest {k : Bytes} (hno : ∀ e ∈ locks, e.1 = k → lo ≤ k ∧ k < hi → timestamp ≠ some e.2.startTs) :
    rows'.get? k = rows.get? k

/-- No lock of the range is in the way. -/
theorem foldlM_scanLock_passed (rows : Dict Bytes (Bytes × ℤ))
    (hsingle : locks.Pairwise fun e e' => e.1 ≠ e'.1)
    (hpass : ∀ e ∈ locks, lo ≤ e.1 ∧ e.1 < hi → timestamp.all (e.2.startTs < ·) = false) :
    ∃ rows', locks.foldlM (scanLock lo hi timestamp) rows = .ok rows' ∧
      Merged lo hi timestamp locks rows rows' := by
  induction locks generalizing rows with
  | nil =>
    refine ⟨rows, rfl, ?_, fun _ => rfl⟩
    intro e he
    cases he
  | cons first locks ih =>
    obtain ⟨hother, hsingle⟩ := pairwise_cons.1 hsingle
    have hpass' := fun e he => hpass e (mem_cons_of_mem _ he)
    rw [foldlM_cons]
    by_cases hfirst : (lo ≤ first.1 ∧ first.1 < hi) ∧ timestamp = some first.2.startTs
    · have hstep : scanLock lo hi timestamp rows first =
          .ok (rows.set first.1 (first.2.value, 0)) := by
        rw [scanLock, if_neg (not_not_intro hfirst.1), if_neg (by
          rw [hpass first mem_cons_self hfirst.1]
          exact Bool.false_ne_true), if_pos hfirst.2]
      obtain ⟨rows', hrows', hmerged⟩ := ih (rows.set first.1 (first.2.value, 0)) hsingle hpass'
      refine ⟨rows', by rw [hstep]; exact hrows', ?_, ?_⟩
      · intro e he hin hown
        rcases mem_cons.1 he with rfl | he
        · rw [hmerged.rest fun e' he' heq => absurd heq.symm (hother e' he'), get?_set_self]
        · exact hmerged.own he hin hown
      · intro k hno
        have hne : k ≠ first.1 := fun heq =>
          hno first mem_cons_self heq.symm (heq ▸ hfirst.1) hfirst.2
        rw [hmerged.rest fun e he => hno e (mem_cons_of_mem _ he), get?_set_of_ne _ _ hne]
    · have hstep : scanLock lo hi timestamp rows first = .ok rows := by
        rw [scanLock]
        split
        · rfl
        next hrange =>
        have hrange := not_not.1 hrange
        rw [hpass first mem_cons_self hrange, if_neg Bool.false_ne_true,
          if_neg fun hown => hfirst ⟨hrange, hown⟩]
      obtain ⟨rows', hrows', hmerged⟩ := ih rows hsingle hpass'
      refine ⟨rows', by rw [hstep]; exact hrows', ?_, fun hno =>
        hmerged.rest fun e he => hno e (mem_cons_of_mem _ he)⟩
      intro e he hin hown
      rcases mem_cons.1 he with rfl | he
      · exact absurd ⟨hin, hown⟩ hfirst
      · exact hmerged.own he hin hown

/-- The rows of a range read, when no lock is in the way. -/
theorem scanVersions_passed (hm : Tidy m) (hlo : ValidKey lo) (hhi : ValidKey hi)
    (hpass : ∀ k s f, m.maps.lock k s = some f → lo ≤ k ∧ k < hi →
      timestamp.all (s < ·) = false) :
    ∃ rows, m.scanVersions lo hi timestamp = .ok rows ∧ (rows.Pairwise fun e e' => e.1 < e'.1) ∧
      (∀ k s f, m.maps.lock k s = some f → lo ≤ k ∧ k < hi → timestamp = some s →
        ∀ v c, (k, v, c) ∈ rows ↔ v = f.value ∧ c = 0) ∧
      ∀ k, (∀ s f, m.maps.lock k s = some f → lo ≤ k ∧ k < hi → timestamp ≠ some s) →
        ∀ v c, (k, v, c) ∈ rows ↔ lo ≤ k ∧ k < hi ∧
          Newest (m.maps.visible k (timestamp.getD m.lastAppliedTimestamp)) (some (c, some v)) := by
  obtain ⟨versions, hversions, hsorted, hmem⟩ := scanVersions_valid m.storage hlo hhi
    (timestamp.getD m.lastAppliedTimestamp)
  obtain ⟨locks, hlocks, horder, hlock⟩ := iterLocks_valid m.storage
  have hsingle : locks.Pairwise fun e e' => e.1 ≠ e'.1 := by
    refine horder.imp_of_mem ?_
    rintro ⟨k, lock⟩ ⟨k', lock'⟩ he he' hlt rfl
    obtain ⟨s, f, hf, rfl⟩ := (hlock k lock).1 he
    obtain ⟨s', f', hf', rfl⟩ := (hlock k lock').1 he'
    rcases hlt with hlt | ⟨-, hlt⟩
    · exact lt_irrefl _ hlt
    · exact hlt.ne (hm.single hf hf')
  have hpass' : ∀ e ∈ locks, lo ≤ e.1 ∧ e.1 < hi →
      timestamp.all (e.2.startTs < ·) = false := by
    rintro ⟨k, lock⟩ he hin
    obtain ⟨s, f, hf, rfl⟩ := (hlock k lock).1 he
    exact hpass k s f hf hin
  obtain ⟨rows', hfold, hmerged⟩ := foldlM_scanLock_passed
    (ofList (versions.map fun row => (row.1, row.2))) hsingle hpass'
  have hrow : ∀ k v c, (k, v, c) ∈ rows'.sorted.entries.map (fun row => (row.1, row.2)) ↔
      rows'.get? k = some (v, c) := by
    intro k v c
    rw [map_id', mem_sorted, get?_eq_some]
  refine ⟨rows'.sorted.entries.map fun row => (row.1, row.2), ?_, ?_, ?_, ?_⟩
  · simp only [scanVersions, orRaise, hversions, hlocks, bind, Except.bind, hfold]
    rfl
  · rw [map_id']
    exact rows'.pairwise_sorted
  · intro k s f hf hin hown v c
    have hget := hmerged.own ((hlock k _).2 ⟨s, f, hf, rfl⟩) hin hown
    rw [hrow, show rows'.get? k = some (f.value, 0) from hget, Option.some.injEq, Prod.mk.injEq]
    exact and_congr eq_comm eq_comm
  · intro k hno v c
    have hget : rows'.get? k = _ := hmerged.rest (by
      rintro ⟨k', lock⟩ he rfl hin
      obtain ⟨s, f, hf, rfl⟩ := (hlock k' lock).1 he
      exact hno s f hf hin)
    have hkeys : ((versions.map fun row => (row.1, row.2)).map Prod.fst).Nodup := by
      rw [map_map]
      exact nodup_iff_pairwise_ne.2 (pairwise_map.2 (hsorted.imp ne_of_lt))
    rw [hrow, hget, get?_eq_some, entries_ofList hkeys, map_id']
    exact hmem k v c

/-! ## The two reads -/

theorem answerOf_eq_value {newest : Option (ℤ × Option Bytes)} :
    answerOf newest = .ok (some v) c ↔ newest = some (c, some v) := by
  rcases newest with _ | ⟨t, _ | w⟩
  · simp [answerOf, ReadResult.ok]
  · simp [answerOf, ReadResult.ok]
  · simp [answerOf, ReadResult.ok, and_comm]

theorem answerOf_ne_locked (newest : Option (ℤ × Option Bytes)) : answerOf newest ≠ .locked := by
  rcases newest with _ | ⟨t, _ | w⟩ <;> simp [answerOf, ReadResult.ok, ReadResult.locked]

/-- A key the storage does not take has no versions, and asking for it raises. -/
theorem not_get_of_invalid (hk : ¬ ValidKey k) (r : ReadResult) : m.get k timestamp ≠ .ok r := by
  intro h
  obtain ⟨_, hnewest, -⟩ := bind_ok h
  obtain ⟨key, hkey, -⟩ := bind_ok hnewest
  exact hk (Option.some.inj (checkUserKey_ok hkey) ▸ key.2)

theorem version_of_invalid (hk : ¬ ValidKey k) (c : ℤ) : m.maps.version k c = none := by
  rcases hcell : m.storage.cellAt .version k c with _ | cell
  · exact versionAt_eq_none.2 hcell
  · exact absurd (valid_of_cellAt hcell).1 hk

section

variable (hm : Tidy m) (ht : -1 ≤ timestamp.getD m.lastAppliedTimestamp)
include hm ht

/-- A read is refused as locked by a lock in its way, and by nothing else. -/
theorem get_locked_iff :
    m.get k timestamp = .ok .locked ↔
      ∃ s f, m.maps.lock k s = some f ∧ timestamp.all (s < ·) = true := by
  constructor
  · intro h
    by_contra hno
    have hk : ValidKey k := not_not.1 fun hk => not_get_of_invalid hk _ h
    by_cases hown : ∃ s f, m.maps.lock k s = some f ∧ timestamp = some s
    · obtain ⟨s, f, hlock, rfl⟩ := hown
      rw [get_own hm hlock] at h
      simp [ReadResult.ok, ReadResult.locked] at h
    · have hpass : ∀ s f, m.maps.lock k s = some f →
          timestamp.all (s < ·) = false ∧ timestamp ≠ some s := fun s f hlock =>
        ⟨Bool.eq_false_iff.2 fun hall => hno ⟨s, f, hlock, hall⟩, fun heq =>
          hown ⟨s, f, hlock, heq⟩⟩
      obtain ⟨newest, -, hread⟩ := readVersion_valid m hk ht
      rw [get_passed hm hk hpass, hread] at h
      exact answerOf_ne_locked newest (Except.ok.inj h)
  · rintro ⟨s, f, hlock, hblock⟩
    exact get_blocked hm hlock hblock

/-- A key that no lock is in the way of has a value exactly when a snapshot shows one. -/
theorem get_value_iff
    (hpass : ∀ s f, m.maps.lock k s = some f → timestamp.all (s < ·) = false ∧ timestamp ≠ some s) :
    m.get k timestamp = .ok (.ok (some v) c) ↔
      Newest (m.maps.visible k (timestamp.getD m.lastAppliedTimestamp)) (some (c, some v)) := by
  by_cases hk : ValidKey k
  · obtain ⟨newest, hnew, hread⟩ := readVersion_valid m hk ht
    rw [get_passed hm hk hpass, hread, Except.ok.injEq, answerOf_eq_value]
    constructor
    · rintro rfl
      exact hnew
    · exact fun h => Newest.unique hnew h
  · refine ⟨fun h => absurd h (not_get_of_invalid hk _), fun h => ?_⟩
    obtain - | ⟨hversion, -⟩ := h
    cases (version_of_invalid hk c).symm.trans (Maps.visible_eq_some.1 hversion).2

theorem scanVersions_pointwise (hlo : ValidKey lo) (hhi : ValidKey hi)
    (hno : ¬ ∃ k, lo ≤ k ∧ k < hi ∧ m.get k timestamp = .ok .locked) :
    ∃ rows, m.scanVersions lo hi timestamp = .ok rows ∧ (rows.Pairwise fun e e' => e.1 < e'.1) ∧
      ∀ k v c, (k, v, c) ∈ rows ↔
        lo ≤ k ∧ k < hi ∧ m.get k timestamp = .ok (.ok (some v) c) := by
  have hpass : ∀ k s f, m.maps.lock k s = some f → lo ≤ k ∧ k < hi →
      timestamp.all (s < ·) = false := fun k s f hlock hin => Bool.eq_false_iff.2 fun hall =>
    hno ⟨k, hin.1, hin.2, get_blocked hm hlock hall⟩
  obtain ⟨rows, hrows, hsorted, hown, hrest⟩ := scanVersions_passed hm hlo hhi hpass
  refine ⟨rows, hrows, hsorted, fun k v c => ?_⟩
  by_cases hmine : ∃ s f, m.maps.lock k s = some f ∧ (lo ≤ k ∧ k < hi) ∧ timestamp = some s
  · obtain ⟨s, f, hlock, hin, rfl⟩ := hmine
    rw [hown k s f hlock hin rfl, get_own hm hlock]
    simp [ReadResult.ok, hin, eq_comm]
  · have hmine : ∀ s f, m.maps.lock k s = some f → lo ≤ k ∧ k < hi → timestamp ≠ some s :=
      fun s f hlock hin heq => hmine ⟨s, f, hlock, hin, heq⟩
    rw [hrest k hmine, ← and_assoc, ← and_assoc]
    refine and_congr_right fun hin => (get_value_iff hm ht fun s f hlock => ?_).symm
    exact ⟨hpass k s f hlock hin, hmine s f hlock hin⟩

theorem scanVersions_refused (hlo : ValidKey lo) (hhi : ValidKey hi) (hk : lo ≤ k ∧ k < hi)
    (hlocked : m.get k timestamp = .ok .locked) :
    ∃ msg key, m.scanVersions lo hi timestamp = .error (.refused .errLocked msg key) := by
  obtain ⟨s, f, hlock, hblock⟩ := (get_locked_iff hm ht).1 hlocked
  obtain ⟨versions, hversions, -⟩ := scanVersions_valid m.storage hlo hhi
    (timestamp.getD m.lastAppliedTimestamp)
  obtain ⟨locks, hlocks, -, hmem⟩ := iterLocks_valid m.storage
  obtain ⟨msg, key, hfold⟩ := foldlM_scanLock_refused
    (ofList (versions.map fun row => (row.1, row.2)))
    ((hmem k _).2 ⟨s, f, hlock, rfl⟩) hk hblock
  refine ⟨msg, key, ?_⟩
  simp only [scanVersions, orRaise, hversions, hlocks, bind, Except.bind, hfold]

end

/-- **A range read is the read of each key**: it is refused as locked where the read of some key
of the range is, and otherwise has, in their order, the keys that have a value. -/
theorem scan_pointwise (log : History) {lo hi : Bytes} (hlo : ValidKey lo) (hhi : ValidKey hi)
    (timestamp : Option ℤ) (hts : ∀ t, timestamp = some t → ValidTs t) :
    ((∃ msg key, (replay log).scanVersions lo hi timestamp =
        .error (.refused .errLocked msg key)) ↔
      ∃ k, lo ≤ k ∧ k < hi ∧ (replay log).get k timestamp = .ok .locked) ∧
    ((¬ ∃ k, lo ≤ k ∧ k < hi ∧ (replay log).get k timestamp = .ok .locked) →
      ∃ rows, (replay log).scanVersions lo hi timestamp = .ok rows ∧
        (rows.Pairwise fun e e' => e.1 < e'.1) ∧ ∀ k v c, (k, v, c) ∈ rows ↔
          lo ≤ k ∧ k < hi ∧ (replay log).get k timestamp = .ok (.ok (some v) c)) := by
  have hm := tidy_replay log
  have ht : -1 ≤ timestamp.getD (replay log).lastAppliedTimestamp := by
    cases timestamp with
    | none =>
      have hlast := lastApplied_nonneg log
      rw [Option.getD_none]
      omega
    | some t =>
      have hvalid := (hts t rfl).1
      rw [Option.getD_some]
      omega
  refine ⟨⟨?_, ?_⟩, scanVersions_pointwise hm ht hlo hhi⟩
  · rintro ⟨msg, key, hrefused⟩
    by_contra hno
    obtain ⟨rows, hrows, -⟩ := scanVersions_pointwise hm ht hlo hhi hno
    cases hrefused.symm.trans hrows
  · rintro ⟨k, hk, hk', hlocked⟩
    exact scanVersions_refused hm ht hlo hhi ⟨hk, hk'⟩ hlocked

/-- Two keys committed, one of them locked again, and a third locked. -/
def intents : History :=
  [(0, .prewrite [97] [1] 1 [97]), (1, .commit [97] 1 2), (2, .prewrite [98] [2] 3 [98]),
    (3, .commit [98] 3 4), (4, .prewrite [97] [3] 5 [97]), (5, .prewrite [99] [4] 5 [97])]

theorem scan_pointwise_intents : ValidKey [] ∧ ValidKey [255] ∧
    (∀ t, some (5 : ℤ) = some t → ValidTs t) ∧
    (replay intents).scanVersions [] [255] (some 5) =
      .ok [([97], [3], 0), ([98], [2], 4), ([99], [4], 0)] ∧
    ∃ rows, (replay intents).scanVersions [] [255] (some 5) = .ok rows ∧
      (rows.Pairwise fun e e' => e.1 < e'.1) ∧ ∀ k v c, (k, v, c) ∈ rows ↔
        [] ≤ k ∧ k < [255] ∧ (replay intents).get k (some 5) = .ok (.ok (some v) c) := by
  have hts : ∀ t, some (5 : ℤ) = some t → ValidTs t := by
    rintro t heq
    cases heq
    decide
  have hrows : (replay intents).scanVersions [] [255] (some 5) =
      .ok [([97], [3], 0), ([98], [2], 4), ([99], [4], 0)] := by decide +kernel
  have hpointwise := @scan_pointwise intents [] [255] (by decide) (by decide) (some 5) hts
  refine ⟨by decide, by decide, hts, hrows, hpointwise.2 fun hlocked => ?_⟩
  obtain ⟨msg, key, hrefused⟩ := hpointwise.1.2 hlocked
  cases hrows.symm.trans hrefused

end OxideDB.Storage.MVCCStateMachine
