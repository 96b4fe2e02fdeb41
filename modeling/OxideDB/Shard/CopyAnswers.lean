import OxideDB.Shard.Copy
import OxideDB.Storage.Transfer

/-!
# What a copy answers

A copy carries one `SET` per row: the newest version of a key that is a value, and its write record
if that is the newest.  So a key answers in the target as it does in the source exactly if there is
nothing more to it that an answer could show: older values show in reads, a tombstone on top shows
in the conflicts of a `PREWRITE`, and a record that is not the row's shows as the newest one.

* `answerAlike_iff` — what the answers about a free key depend on.
* `Arrived.alike_iff`, `Blank.alike_iff` — a key whose row was copied, and one without a row.
-/

namespace OxideDB.Shard

open Raft (Bytes ApplyResult)
open Storage List MVCCStateMachine
open Storage.MVCCStateMachine (Agree Settled Recorded replay History CarriesRecord settled_replay
  recorded_replay Newest.unique orRaise_ok)

variable {read : List (Bytes × Bytes × ℤ)}
variable {source target target' m m' : MVCCStateMachine} {versions : Dict Bytes ℤ} {k v : Bytes}
  {t : ℤ} {a : RowAnswer} {rows : List ((Bytes × Bytes) × RowAnswer)}

/-! ## The answers about a key -/

/-- Two machines answer alike about a key: reads at every timestamp, `PREWRITE`s of every
transaction, and the write record. -/
structure AnswerAlike (m m' : MVCCStateMachine) (k : Bytes) : Prop where
  get (timestamp : ℤ) : m.get k (some timestamp) = m'.get k (some timestamp)
  prewrite (now : Time) (value : Bytes) (startTs : ℤ) (primaryKey : Bytes) :
    (m.apply now (.prewrite k value startTs primaryKey)).2.success =
      (m'.apply now (.prewrite k value startTs primaryKey)).2.success
  getWriteRecord : m.getWriteRecord k = m'.getWriteRecord k

/-- What a read of a free key answers. -/
theorem get_of_free (hk : ValidKey k) (hfree : ∀ s, m.maps.lock k s = none) {T : ℤ} (hT : -1 ≤ T)
    {n : Option (ℤ × Option Bytes)} (hn : Newest (m.maps.visible k T) n) :
    m.get k (some T) = .ok (answerOf n) := by
  obtain ⟨n', hn', hread⟩ := @readVersion_valid k (some T) m hk hT
  obtain rfl := Newest.unique hn' hn
  simp only [MVCCStateMachine.get, getNewestLock_free hk hfree, bind, Except.bind]
  exact hread

/-- Which `PREWRITE`s of a free key a machine lets through. -/
theorem prewrite_success_iff (hfree : ∀ s, m.maps.lock k s = none) (now : Time) (value : Bytes)
    (s : ℤ) (p : Bytes) : (m.apply now (.prewrite k value s p)).2.success = true ↔
      (ValidKey k ∧ ValidTs s) ∧ m.maps.Admits k s := by
  constructor
  · intro hsuccess
    have happlied := apply_applied now m (.prewrite k value s p)
    generalize m.apply now (.prewrite k value s p) = r at hsuccess happlied
    obtain ⟨m', r⟩ := r
    cases happlied with
    | refused hr => cases hr.symm.trans hsuccess
    | kept htype => rcases htype with ⟨htype, -⟩ | htype <;> cases htype
    | unlocked htype => rcases htype with ⟨htype, -⟩ | ⟨htype, -⟩ <;> cases htype
    | wrote htype | copied htype | halfCopied _ htype | deleted htype | committed htype =>
      cases htype
    | locked _ hkey _ hs _ hvalid _ hrecord hversion =>
      cases hkey
      cases hs
      exact ⟨hvalid, hfree, hrecord _ _, hversion _ _⟩
  · rintro ⟨hvalid, hadmits⟩
    obtain ⟨-, -, hok⟩ := @apply_prewrite m (.prewrite k value s p) k s value p now rfl rfl rfl rfl
      rfl hvalid hadmits
    rw [hok]
    rfl

/-- About a key that cannot be stored every machine answers the same. -/
theorem answerAlike_of_invalid (hk : ¬ ValidKey k) (hfree : ∀ s, m.maps.lock k s = none)
    (hfree' : ∀ s, m'.maps.lock k s = none) : AnswerAlike m m' k where
  get T := by
    rw [MVCCStateMachine.get, MVCCStateMachine.get, MVCCStorage.getNewestLock,
      MVCCStorage.getNewestLock, MVCCStorage.checkUserKey_invalid hk]
    rfl
  prewrite now value s p := by
    rw [Bool.eq_iff_iff, prewrite_success_iff hfree, prewrite_success_iff hfree']
    exact iff_of_false (fun h => hk h.1.1) fun h => hk h.1.1
  getWriteRecord := by
    rw [MVCCStateMachine.getWriteRecord, MVCCStateMachine.getWriteRecord,
      MVCCStorage.getLatestWrite, MVCCStorage.getLatestWrite, MVCCStorage.checkUserKey_invalid hk]
    rfl

/-- Two machines answer alike about a free key, exactly if they show the same at every timestamp,
admit the same transactions, and have the same newest write record. -/
theorem answerAlike_iff (hk : ValidKey k) (hfree : ∀ s, m.maps.lock k s = none)
    (hfree' : ∀ s, m'.maps.lock k s = none) :
    AnswerAlike m m' k ↔
      (∀ T n n', -1 ≤ T → Newest (m.maps.visible k T) n → Newest (m'.maps.visible k T) n' →
        answerOf n = answerOf n') ∧
      (∀ s, ValidTs s → (m.maps.Admits k s ↔ m'.maps.Admits k s)) ∧
      ∀ r r', Newest (m.maps.record k) r → Newest (m'.maps.record k) r' → r = r' := by
  obtain ⟨w, hw, hnew⟩ := MVCCStorage.getLatestWrite_valid m.storage hk
  obtain ⟨w', hw', hnew'⟩ := MVCCStorage.getLatestWrite_valid m'.storage hk
  constructor
  · intro h
    refine ⟨fun T n n' hT hn hn' => ?_, fun s hs => ?_, fun r r' hr hr' => ?_⟩
    · have heq := h.get T
      rw [get_of_free hk hfree hT hn, get_of_free hk hfree' hT hn'] at heq
      exact Except.ok.inj heq
    · have heq := h.prewrite 0 [] s []
      have hiff := prewrite_success_iff hfree 0 [] s []
      rw [heq, prewrite_success_iff hfree'] at hiff
      exact ⟨fun hm => (hiff.2 ⟨⟨hk, hs⟩, hm⟩).2, fun hm => (hiff.1 ⟨⟨hk, hs⟩, hm⟩).2⟩
    · obtain rfl : w = w' := Except.ok.inj (hw.symm.trans (h.getWriteRecord.trans hw'))
      rw [Newest.unique hr hnew, Newest.unique hr' hnew']
  · rintro ⟨hget, hadmits, hrecord⟩
    refine ⟨fun T => ?_, fun now value s p => ?_, ?_⟩
    · by_cases hT : -1 ≤ T
      · obtain ⟨n, hn, -⟩ := @readVersion_valid k (some T) m hk hT
        obtain ⟨n', hn', -⟩ := @readVersion_valid k (some T) m' hk hT
        rw [get_of_free hk hfree hT hn, get_of_free hk hfree' hT hn', hget T n n' hT hn hn']
      · obtain ⟨e, he⟩ := @MVCCStorage.getVersion_invalid k T fun h => hT h.2
        have hinvalid : ∀ m : MVCCStateMachine, m.readVersion k (some T) = .error e := fun m => by
          simp only [readVersion, Option.getD_some, he, bind, Except.bind]
        simp only [MVCCStateMachine.get, getNewestLock_free hk hfree,
          getNewestLock_free hk hfree', hinvalid, bind, Except.bind]
    · rw [Bool.eq_iff_iff, prewrite_success_iff hfree, prewrite_success_iff hfree']
      exact and_congr_right fun hvalid => hadmits s hvalid.2
    · have heq := hrecord _ _ hnew hnew'
      have hinj : Function.Injective fun r : WriteRecord => (r.commitTs, r.startTs) := by
        rintro ⟨s, c⟩ ⟨s', c'⟩ heq
        cases heq
        rfl
      rw [MVCCStateMachine.getWriteRecord, MVCCStateMachine.getWriteRecord, hw, hw',
        Option.map_injective hinj heq]

/-! ## What arrives -/

/-- All there is to a key can travel in one row: a value above timestamp 0 as the newest version,
under which there are tombstones only, with the newest write record if there is one.  (Without a
value, a tombstone at timestamp 0 shows in no answer.) -/
structure Carries (m : MVCCStateMachine) (k : Bytes) : Prop where
  value {t : ℤ} {w : Bytes} (h : m.maps.version k t = some (some w)) :
    0 < t ∧ ∀ t', t < t' → m.maps.version k t' = none
  tombstone {t : ℤ} (h : m.maps.version k t = some none) (ht : 0 < t) :
    ∃ t' w, t < t' ∧ m.maps.version k t' = some (some w)
  record {c s : ℤ} (h : Newest (m.maps.record k) (some (c, s))) :
    ∃ w, m.maps.version k c = some (some w)

/-- Nothing is stored at a key. -/
structure Blank (m : MVCCStateMachine) (k : Bytes) : Prop where
  version (t : ℤ) : m.maps.version k t = none
  record (c : ℤ) : m.maps.record k c = none
  lock (s : ℤ) : m.maps.lock k s = none

theorem blank_empty (k : Bytes) : Blank .empty k where
  version t := by simp [maps, empty]
  record c := by simp [maps, empty]
  lock s := by simp [maps, empty]

/-- The row of a key is what is stored at it. -/
structure Arrived (source target : MVCCStateMachine) (k v : Bytes) (t : ℤ) : Prop where
  version (c : ℤ) : target.maps.version k c = if c = t then some (some v) else none
  record {c s : ℤ} : target.maps.record k c = some s ↔
    c = t ∧ Newest (source.maps.record k) (some (t, s))
  lock (s : ℤ) : target.maps.lock k s = none

/-- A version that is read at its own timestamp. -/
theorem newest_visible_self {w : Option Bytes} (h : m.maps.version k t = some w) :
    Newest (m.maps.visible k t) (some (t, w)) :=
  .some (Maps.visible_eq_some.2 ⟨le_rfl, h⟩) fun _ ht => if_neg (not_le.2 ht)

section

variable (hrecorded : Recorded source) (hfree : ∀ s, source.maps.lock k s = none)
include hrecorded hfree

/-- A key whose row was copied. -/
theorem Arrived.alike_iff (h : Arrived source target k v t)
    (hnew : Newest (source.maps.version k) (some (t, some v))) (hpos : 0 < t) :
    AnswerAlike target source k ↔ Carries source k := by
  obtain - | ⟨hv, hmax⟩ := id hnew
  obtain ⟨hk, -⟩ := MVCCStorage.valid_of_versionAt hv
  have htarget : ∀ T, Newest (target.maps.visible k T) (if t ≤ T then some (t, some v) else none) := by
    intro T
    have hcases : ∀ c w, target.maps.visible k T c = some w → c = t ∧ c ≤ T := by
      intro c w hc
      obtain ⟨hle, hw⟩ := Maps.visible_eq_some.1 hc
      rw [h.version] at hw
      by_contra hne
      rw [if_neg fun heq => hne ⟨heq, hle⟩] at hw
      cases hw
    split
    · next hle =>
      refine .some (Maps.visible_eq_some.2 ⟨hle, by rw [h.version, if_pos rfl]⟩) fun c hc => ?_
      exact Option.eq_none_iff_forall_ne_some.2 fun w hw => hc.ne' (hcases c w hw).1
    · next hnot =>
      refine .none fun c => Option.eq_none_iff_forall_ne_some.2 fun w hw => ?_
      obtain ⟨rfl, hle⟩ := hcases c w hw
      exact hnot hle
  rw [answerAlike_iff hk h.lock hfree]
  constructor
  · rintro ⟨hget, -, hrec⟩
    refine ⟨fun {t' w} hw => ?_, fun {t'} htomb _ => ?_, fun {c s} hc => ?_⟩
    · rcases (Newest.le hnew hw).eq_or_lt with rfl | hlt
      · exact ⟨hpos, hmax⟩
      · -- the older value is read at its timestamp, and the target shows nothing there
        have h0 := (MVCCStorage.valid_of_versionAt hw).2.1
        have hshown := htarget t'
        rw [if_neg (not_le.2 hlt)] at hshown
        cases hget t' none _ (by omega) hshown (newest_visible_self hw)
    · refine ⟨t, v, lt_of_le_of_ne (Newest.le hnew htomb) fun heq => ?_, hv⟩
      subst heq
      cases hv.symm.trans htomb
    · obtain ⟨r, -, hr⟩ := MVCCStorage.getLatestWrite_valid target.storage hk
      have hr : Newest (target.maps.record k) _ := hr
      rw [hrec _ _ hr hc] at hr
      obtain - | ⟨hat, -⟩ := hr
      obtain ⟨rfl, -⟩ := h.record.1 hat
      exact ⟨v, hv⟩
  · intro hc
    refine ⟨fun T n n' _ hn hn' => ?_, fun s _ => ?_, fun r r' hr hr' => ?_⟩
    · rw [Newest.unique hn (htarget T)]
      split
      · next hle =>
        rw [Newest.unique hn' (.some (Maps.visible_eq_some.2 ⟨hle, hv⟩) fun c hlt => ?_)]
        rw [Maps.visible, hmax c hlt, ite_self]
      · next hnot =>
        rcases hn' with - | @⟨t', w, hw, -⟩
        · rfl
        obtain ⟨hle, hw⟩ := Maps.visible_eq_some.1 hw
        cases w with
        | none => rfl
        | some w => cases ((hc.value hw).2 t (by omega)).symm.trans hv
    · -- both admit what did not begin before the row
      have hsource : source.maps.Admits k s ↔ t ≤ s := by
        refine ⟨fun hm => hm.version hv, fun hle => ⟨hfree, fun {c s'} hr => ?_, fun hw => ?_⟩⟩
        · obtain ⟨w, hw⟩ := Option.ne_none_iff_exists'.1 (hrecorded k c s' hr)
          exact (Newest.le hnew hw).trans hle
        · exact (Newest.le hnew hw).trans hle
      rw [hsource]
      refine ⟨fun hm => hm.version ((h.version t).trans (if_pos rfl)), fun hle =>
        ⟨h.lock, fun hr => (h.record.1 hr).1.trans_le hle, fun {c w} hw => ?_⟩⟩
      rw [h.version] at hw
      by_contra hnot
      rw [if_neg fun heq => hnot (heq.trans_le hle)] at hw
      cases hw
    · rcases hr' with hall | @⟨c, s, hat, hmax'⟩
      · refine Newest.unique hr (.none fun c => Option.eq_none_iff_forall_ne_some.2 fun s hs => ?_)
        obtain - | ⟨hat, -⟩ := (h.record.1 hs).2
        cases (hall t).symm.trans hat
      · obtain ⟨w, hw⟩ := hc.record (.some hat hmax')
        obtain rfl : c = t := by
          by_contra hne
          have hlt := lt_of_le_of_ne (Newest.le hnew hw) hne
          cases ((hc.value hw).2 t hlt).symm.trans hv
        refine Newest.unique hr (.some (h.record.2 ⟨rfl, .some hat hmax'⟩) fun c' hc' => ?_)
        exact Option.eq_none_iff_forall_ne_some.2 fun s' hs' => hc'.ne' (h.record.1 hs').1

/-- A key that has no row. -/
theorem Blank.alike_iff (h : Blank target k)
    (hno : ∀ {t v}, Newest (source.maps.version k) (some (t, some v)) → t ≤ 0) :
    AnswerAlike target source k ↔ Carries source k := by
  by_cases hk : ValidKey k
  swap
  · -- nothing can be stored at the key
    have hversion : ∀ c, source.maps.version k c = none := fun c =>
      Option.eq_none_iff_forall_ne_some.2 fun w hw => hk (MVCCStorage.valid_of_versionAt hw).1
    refine iff_of_true (answerAlike_of_invalid hk h.lock hfree)
      ⟨fun hw => ?_, fun hw => ?_, fun hw => ?_⟩
    · cases (hversion _).symm.trans hw
    · cases (hversion _).symm.trans hw
    · obtain - | ⟨hat, -⟩ := hw
      exact absurd (hversion _) (hrecorded _ _ _ hat)
  have htarget : ∀ T, Newest (target.maps.visible k T) none := fun T => .none fun c => by
    rw [Maps.visible, h.version, ite_self]
  have hadmits : ∀ s, target.maps.Admits k s := by
    refine fun s => ⟨h.lock, fun {c _} hr => ?_, fun {c _} hw => ?_⟩
    · cases (h.record c).symm.trans hr
    · cases (h.version c).symm.trans hw
  rw [answerAlike_iff hk h.lock hfree]
  constructor
  · rintro ⟨hget, hsame, hrec⟩
    refine ⟨fun {t' w} hw => ?_, fun {t'} htomb ht => ?_, fun {c s} hc => ?_⟩
    · have h0 := (MVCCStorage.valid_of_versionAt hw).2.1
      cases hget t' none _ (by omega) (htarget t') (newest_visible_self hw)
    · have hle := ((hsame 0 (by decide)).1 (hadmits 0)).version htomb
      exact absurd ht (not_lt.2 hle)
    · cases hrec none _ (.none h.record) hc
  · intro hc
    have hvalue : ∀ {c w}, source.maps.version k c ≠ some (some w) := fun {c w} hw => by
      obtain ⟨hpos, hmax⟩ := hc.value hw
      exact absurd hpos (not_lt.2 (hno (.some hw hmax)))
    have hzero : ∀ {c w}, source.maps.version k c = some w → c ≤ 0 := fun {c w} hw => by
      cases w with
      | some w => exact absurd hw hvalue
      | none =>
        by_contra hnot
        obtain ⟨t', w, -, hw'⟩ := hc.tombstone hw (not_le.1 hnot)
        exact hvalue hw'
    refine ⟨fun T n n' _ hn hn' => ?_, fun s hs => iff_of_true (hadmits s) ?_, fun r r' hr hr' => ?_⟩
    · rw [Newest.unique hn (htarget T)]
      rcases hn' with - | @⟨t', w, hw, -⟩
      · rfl
      cases w with
      | none => rfl
      | some w => exact absurd (Maps.visible_eq_some.1 hw).2 hvalue
    · refine ⟨hfree, fun {c s'} hr => ?_, fun hw => (hzero hw).trans hs.1⟩
      obtain ⟨w, hw⟩ := Option.ne_none_iff_exists'.1 (hrecorded k c s' hr)
      exact (hzero hw).trans hs.1
    · rw [Newest.unique hr (.none h.record)]
      rcases hr' with - | @⟨c, s, hat, hmax⟩
      · rfl
      obtain ⟨w, hw⟩ := hc.record (.some hat hmax)
      exact absurd hw hvalue

end

/-! ## The copy -/

/-- A row goes where nothing is, or where it is already. -/
theorem arrived_of_moved (hstate : Blank target k ∨ Arrived source target k v t)
    (hmoved : Moved source target target' k v t) : Arrived source target' k v t where
  version c := by
    rw [hmoved.version]
    by_cases hc : c = t
    · rw [if_pos ⟨rfl, hc⟩, if_pos hc]
    rw [if_neg fun h => hc h.2, if_neg hc]
    rcases hstate with h | h
    · exact h.version c
    · rw [h.version, if_neg hc]
  record {c s} := by
    have hold : c ≠ t → target.maps.record k c = none := fun hc => by
      rcases hstate with h | h
      · exact h.record c
      · exact Option.eq_none_iff_forall_ne_some.2 fun s hs => hc (h.record.1 hs).1
    by_cases hc : c = t
    swap
    · rw [hmoved.record_of_ne fun h => hc h.2, hold hc]
      exact iff_of_false (by simp) fun h => hc h.1
    subst hc
    cases hmoved with
    | recorded hnew hmaps =>
      rw [hmaps, Maps.putRecord_record, if_pos ⟨rfl, rfl⟩]
      constructor
      · rintro ⟨⟩
        exact ⟨rfl, hnew⟩
      · rintro ⟨-, hnew'⟩
        cases Newest.unique hnew hnew'
        rfl
    | bare hno hmaps =>
      have hkeep : target'.maps.record k c = target.maps.record k c := by
        rw [hmaps]
        rfl
      rw [hkeep]
      rcases hstate with h | h
      · rw [h.record]
        exact iff_of_false (by simp) fun hs => hno s hs.2
      · exact h.record
  lock s := by
    rw [hmoved.lock]
    exact hstate.elim (fun h => h.lock s) fun h => h.lock s

theorem Moved.elsewhere {k' : Bytes} (hmoved : Moved source target target' k' v t) (hne : k ≠ k') :
    Agree target' target k where
  version := by
    funext c
    rw [hmoved.version, if_neg fun h => hne h.1]
  record := by
    funext c
    rw [hmoved.record_of_ne fun h => hne h.1]
  lock := by rw [hmoved.lock]

theorem Blank.of_agree (h : Blank target k) (hagree : Agree target' target k) : Blank target' k where
  version t := by rw [hagree.version, h.version]
  record c := by rw [hagree.record, h.record]
  lock s := by rw [hagree.lock, h.lock]

theorem Arrived.of_agree (h : Arrived source target k v t) (hagree : Agree target' target k) :
    Arrived source target' k v t where
  version c := by rw [hagree.version, h.version]
  record {c s} := by rw [hagree.record, h.record]
  lock s := by rw [hagree.lock, h.lock]

/-- How far a copy is with a key: nothing is there, or its row, which is above timestamp 0. -/
def Underway (source target : MVCCStateMachine) (k : Bytes) : Prop :=
  Blank target k ∨ ∃ t v, 0 < t ∧ Newest (source.maps.version k) (some (t, some v)) ∧
    Arrived source target k v t

/-- The rows of a copy are the newest versions of their keys. -/
def RowsOf (source : MVCCStateMachine) (versions : Dict Bytes ℤ)
    (rows : List ((Bytes × Bytes) × RowAnswer)) : Prop :=
  ∀ e ∈ rows, ∀ t, versions.get? e.1.1 = some t →
    Newest (source.maps.version e.1.1) (some (t, some e.1.2))

/-- One row of a copy: if it is above timestamp 0 its key is not blank afterwards, and no key
becomes blank. -/
theorem underway_copyRow {r : Option ApplyResult} (hversion : versions.get? k = some t)
    (hnew : Newest (source.maps.version k) (some (t, some v)))
    (hrow : copyRow source versions target (k, v) a = .ok (target', r))
    (happlies : r ≠ none → a.outcome.Applies) (hstate : ∀ k, Underway source target k) :
    (∀ k, Underway source target' k) ∧ (∀ k, ¬ Blank target k → ¬ Blank target' k) ∧
      (0 < t → ¬ Blank target' k) := by
  obtain - | ⟨hv, -⟩ := id hnew
  obtain ⟨hk, ht⟩ := MVCCStorage.valid_of_versionAt hv
  rcases copyRow_cases hversion hrow with ⟨rfl, -, read, hread, rfl⟩ |
    ⟨hskips, record, result, hrecord, hpropose, rfl⟩
  · refine ⟨hstate, fun _ h => h, fun hpos hblank => ?_⟩
    rcases version_of_get hread with hzero | ⟨w, hw⟩
    · exact hpos.ne' hzero
    · cases (hblank.version _).symm.trans hw
  have hmoved := propose_moveRow hk ht hrecord (happlies (Option.some_ne_none _)) hpropose
  have hhere : Blank target k ∨ 0 < t ∧ Arrived source target k v t := by
    refine (hstate k).imp_right ?_
    rintro ⟨t', v', hpos, hnew', h⟩
    cases Newest.unique hnew hnew'
    exact ⟨hpos, h⟩
  have hpos : 0 < t := by
    rcases hhere with hblank | h
    · -- a row at timestamp 0 is passed over: the read of a blank key carries that version
      refine lt_of_le_of_ne ht.1 fun hzero => hskips ?_
      simp only [copyRow, hversion] at hrow
      obtain ⟨read, hread, -⟩ := bind_ok hrow
      rcases version_of_get hread with hread' | ⟨w, hw⟩
      · exact ⟨read, hread, hread'.trans hzero⟩
      · cases (hblank.version _).symm.trans hw
    · exact h.1
  have harrived := arrived_of_moved (hhere.imp_right And.right) hmoved
  have hfull : ¬ Blank target' k := fun hblank => by
    cases (hblank.version t).symm.trans ((harrived.version t).trans (if_pos rfl))
  refine ⟨fun k' => ?_, fun k' hnot hblank => ?_, fun _ => hfull⟩
  · by_cases hne : k' = k
    · subst hne
      exact .inr ⟨t, v, hpos, hnew, harrived⟩
    · refine (hstate k').imp (fun h => h.of_agree (hmoved.elsewhere hne)) ?_
      rintro ⟨t', v', hpos', hnew', h⟩
      exact ⟨t', v', hpos', hnew', h.of_agree (hmoved.elsewhere hne)⟩
  · have hne : k' ≠ k := fun heq => hfull (heq ▸ hblank)
    have hagree := hmoved.elsewhere hne
    exact hnot (hblank.of_agree ⟨hagree.version.symm, hagree.record.symm, hagree.lock.symm⟩)

/-- The whole copy: every key is blank or has its row, and no key with a row above timestamp 0 is
blank. -/
theorem underway_copies (hcopy : Copies source versions rows target target')
    (hrows : RowsOf source versions rows) (hstate : ∀ k, Underway source target k) :
    (∀ k, Underway source target' k) ∧ (∀ k, ¬ Blank target k → ¬ Blank target' k) ∧
      ∀ e ∈ rows, ∀ t, versions.get? e.1.1 = some t → 0 < t → ¬ Blank target' e.1.1 := by
  induction hcopy with
  | nil => exact ⟨hstate, fun _ h => h, fun e he => absurd he not_mem_nil⟩
  | @cons target target₁ target' row a r rows hrow happlies _ ih =>
    have hrest : RowsOf source versions rows := fun e he => hrows e (mem_cons_of_mem _ he)
    rcases hversion : versions.get? row.1 with _ | t
    · cases (copyRow_of_gone hversion).symm.trans hrow
      obtain ⟨hall, hkeep, hdone⟩ := ih hrest hstate
      refine ⟨hall, hkeep, forall_mem_cons.2 ⟨fun t ht => ?_, hdone⟩⟩
      cases hversion.symm.trans ht
    · have hnew := hrows _ mem_cons_self t hversion
      obtain ⟨hstate₁, hkeep₁, hfull⟩ := underway_copyRow hversion hnew hrow happlies hstate
      obtain ⟨hall, hkeep, hdone⟩ := ih hrest hstate₁
      refine ⟨hall, fun k h => hkeep k (hkeep₁ k h), forall_mem_cons.2 ⟨fun t' ht hpos => ?_, hdone⟩⟩
      cases hversion.symm.trans ht
      exact hkeep _ (hfull hpos)

/-- The target of a copy of every row above a point. -/
theorem alike_of_rowsAbove {entry : Bytes × Bytes} {splitKey : Bytes}
    (hread : source.scanVersions entry.1 entry.2 none = .ok read) (hsettled : Settled source)
    (hrecorded : Recorded source)
    (hrows : ∀ k v, (k, v) ∈ rows.map Prod.fst ↔ splitKey ≤ k ∧ ∃ t, (k, v, t) ∈ read)
    (hcopy : Copies source (versionsOf read) rows .empty target) (hlo : entry.1 ≤ k)
    (hhi : k < entry.2) (hk : splitKey ≤ k) : AnswerAlike target source k ↔ Carries source k := by
  obtain ⟨hstart, hstop, hfree⟩ := unlocked_of_scanVersions hread
  obtain ⟨read', hread', -, hsorted, hmem⟩ :=
    scanVersions_unlocked hstart hstop hfree
  cases hread.symm.trans hread'
  have hunlocked : ∀ s, source.maps.lock k s = none := fun s =>
    Option.eq_none_iff_forall_ne_some.2 fun f hf => hfree k s f hf ⟨hlo, hhi⟩
  have hofRows : RowsOf source (versionsOf read) rows := by
    intro e he t ht
    obtain ⟨-, t', hrow⟩ := (hrows e.1.1 e.1.2).1 (mem_map_of_mem he)
    obtain ⟨v', hrow'⟩ := (get?_versionsOf hsorted).1 ht
    have hnew := ((hmem _ _ _).1 hrow).2.2
    cases Newest.unique hnew ((hmem _ _ _).1 hrow').2.2
    exact hsettled.newest hnew
  obtain ⟨hstate, -, hdone⟩ := underway_copies hcopy hofRows fun k => .inl (blank_empty k)
  rcases hstate k with hblank | ⟨t, v, hpos, hnew, harrived⟩
  · refine hblank.alike_iff hrecorded hunlocked fun {t v} hnew => ?_
    by_contra hnot
    obtain - | ⟨hv, hmax⟩ := hnew
    have hrow := (hmem k v t).2 ⟨hlo, hhi, .some (Maps.visible_eq_some.2 ⟨hsettled k t _ hv, hv⟩)
      fun c hc => by rw [Maps.visible, hmax c hc, ite_self]⟩
    obtain ⟨⟨⟨k', v'⟩, a⟩, he, heq⟩ := mem_map.1 ((hrows k v).2 ⟨hk, t, hrow⟩)
    cases heq
    exact hdone _ he t ((get?_versionsOf hsorted).2 ⟨v, hrow⟩) (not_le.1 hnot) hblank
  · exact harrived.alike_iff hrecorded hunlocked hnew hpos

/-- Either way of reading the whole range finds the rows of the range read. -/
theorem mem_committedRows {start stop : Bytes} {pending : List (Bytes × Bytes)}
    (hread : source.scanVersions start stop none = .ok read)
    (h : committedRows source start stop = .ok pending ∨
      source.scan start stop none = .ok pending) :
    (k, v) ∈ pending ↔ start ≤ k ∧ ∃ t, (k, v, t) ∈ read := by
  obtain ⟨hlo, hhi, hfree⟩ := unlocked_of_scanVersions hread
  obtain ⟨read', hread', hstored, -, hmem⟩ := scanVersions_unlocked hlo hhi hfree
  cases hread.symm.trans hread'
  have hpending : pending = read.map fun row => (row.1, row.2.1) := by
    rcases h with h | h
    · rw [committedRows, MVCCStorage.scan, hstored] at h
      exact (Except.ok.inj h).symm
    · rw [scan, hread] at h
      exact (Except.ok.inj h).symm
  rw [hpending, mem_map]
  constructor
  · rintro ⟨⟨k', v', t⟩, hrow, heq⟩
    cases heq
    exact ⟨((hmem _ _ _).1 hrow).1, t, hrow⟩
  · rintro ⟨-, t, hrow⟩
    exact ⟨_, hrow, rfl⟩

/-- **Copying preserves answers**, key by key: the group that a split or a move has copied a range
into answers for a key as the source does, exactly if all there is to the key can travel in its
row. -/
theorem copy_preserves_answers {log : History} (hlog : ∀ entry ∈ log, CarriesRecord entry.2)
    {start stop : Bytes} :
    (∀ splitKey rows target,
      (rowsAbove (replay log) (start, stop) splitKey = .ok (rows.map Prod.fst) ∨
        rowsAboveThrough (replay log) (start, stop) splitKey = .ok (rows.map Prod.fst)) →
      (∀ e ∈ rows, e.2.outcome.Applies) →
      copyWhatIsMissing (replay log) (start, stop) rows .empty = .ok target →
      ∀ k, start ≤ k → k < stop → splitKey ≤ k →
        (AnswerAlike target (replay log) k ↔ Carries (replay log) k)) ∧
    ∀ rows target,
      (committedRows (replay log) start stop = .ok (rows.map Prod.fst) ∨
        (replay log).scan start stop none = .ok (rows.map Prod.fst)) →
      (∀ e ∈ rows, e.2.outcome.Sincere) →
      copyRows (replay log) (start, stop) rows .empty = .ok (target, true) →
      ∀ k, start ≤ k → k < stop →
        (AnswerAlike target (replay log) k ↔ Carries (replay log) k) := by
  have hsettled := settled_replay hlog
  constructor
  · intro splitKey rows target hrows happlies hcopied k hlo hhi hk
    obtain ⟨read, hread, hloop⟩ := bind_ok hcopied
    exact alike_of_rowsAbove hread hsettled (recorded_replay log)
      (fun _ _ => mem_rowsAbove hread hrows) (copies_of_copyMissing (orRaise_ok hloop) happlies)
      hlo hhi hk
  · intro rows target hrows hsincere hcopied k hlo hhi
    unfold copyRows at hcopied
    split at hcopied
    · next read hread =>
      exact alike_of_rowsAbove hread hsettled (recorded_replay log)
        (fun _ _ => mem_committedRows hread hrows) (copies_of_copyUntilRefused hcopied hsincere)
        hlo hhi hlo
    · cases hcopied
    · cases hcopied

/-- `SET` at a timestamp, as an entry of the log. -/
def setAt (key value : Bytes) (timestamp : ℤ) : Time × Command :=
  (0, { type := .set, key := some key, value := some value, timestamp := some timestamp })

/-- A move of the one row of a shard. -/
theorem copy_preserves_answers_one :
    copyRows (replay [setAt [97] [120] 1]) ([], [255]) [(([97], [120]), ⟨none, .answered 0⟩)] .empty =
      .ok (oneRow [97], true) ∧ AnswerAlike (oneRow [97]) (replay [setAt [97] [120] 1]) [97] := by
  have hcopied : copyRows (replay [setAt [97] [120] 1]) ([], [255])
      [(([97], [120]), ⟨none, .answered 0⟩)] .empty = .ok (oneRow [97], true) := by
    decide +kernel
  have hrows : committedRows (replay [setAt [97] [120] 1]) [] [255] = .ok [([97], [120])] := by
    decide +kernel
  have hlog : ∀ entry ∈ [setAt [97] [120] 1], CarriesRecord entry.2 := by
    intro entry hentry
    rw [mem_singleton.1 hentry]
    intro _ s hs
    cases hs
  have heq : replay [setAt [97] [120] 1] = oneRow [97] := rfl
  have honly : ∀ {t w}, (replay [setAt [97] [120] 1]).maps.version [97] t = some w →
      t = 1 ∧ w = some [120] := fun hw => version_pos_oneRow (by decide) (heq ▸ hw)
  have hcarries : Carries (replay [setAt [97] [120] 1]) [97] := by
    refine ⟨fun {t w} hw => ?_, fun {t} hw _ => ?_, fun {c s} hc => ?_⟩
    · obtain ⟨rfl, -⟩ := honly hw
      refine ⟨one_pos, fun t' ht' => Option.eq_none_iff_forall_ne_some.2 fun w' hw' => ?_⟩
      exact ht'.ne' (honly hw').1
    · cases (honly hw).2
    · obtain - | ⟨hat, -⟩ := hc
      obtain ⟨w, hw⟩ := Option.ne_none_iff_exists'.1 (recorded_replay _ _ _ _ hat)
      obtain ⟨-, rfl⟩ := honly hw
      exact ⟨_, hw⟩
  refine ⟨hcopied, ((copy_preserves_answers hlog).2 [(([97], [120]), ⟨none, .answered 0⟩)] _
    (.inl hrows) ?_ hcopied [97] (by decide) (by decide)).2 hcarries⟩
  intro e he
  rw [mem_singleton.1 he]
  trivial

/-- **What a copy leaves behind**: a key written at 1 and at 2 arrives as one version, and a read at
1 does not find the other; a key that was deleted does not arrive, and a `PREWRITE` that began before
its deletion is let through. -/
theorem copy_forgets_history :
    (∃ target, copyRows (replay [setAt [97] [120] 1, setAt [97] [121] 2]) ([], [255])
        [(([97], [121]), ⟨none, .answered 0⟩)] .empty = .ok (target, true) ∧
      committedRows (replay [setAt [97] [120] 1, setAt [97] [121] 2]) [] [255] =
        .ok [([97], [121])] ∧
      (replay [setAt [97] [120] 1, setAt [97] [121] 2]).get [97] (some 1) =
        .ok (.ok (some [120]) 1) ∧
      target.get [97] (some 1) = .ok (.ok none)) ∧
    ∃ target log, log = [setAt [97] [120] 1,
        (0, ({ type := .delete, key := some [97], timestamp := some 3 } : Command))] ∧
      copyRows (replay log) ([], [255]) [] .empty = .ok (target, true) ∧
      committedRows (replay log) [] [255] = .ok [] ∧
      ((replay log).apply 0 (.prewrite [97] [122] 2 [97])).2.success = false ∧
      (target.apply 0 (.prewrite [97] [122] 2 [97])).2.success = true := by
  refine ⟨⟨(empty.apply 0 (setAt [97] [121] 2).2).1, by decide +kernel,
    by decide +kernel, by decide +kernel, by decide +kernel⟩, ⟨.empty, _, rfl, ?_⟩⟩
  decide +kernel

end OxideDB.Shard
