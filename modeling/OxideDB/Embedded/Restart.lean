import OxideDB.Embedded.Database
import OxideDB.Transition

/-!
# The embedded database across restarts

A process reads the clock once when it starts, and its timestamps go on from there; what is stored has
no say in it.  A version is therefore seen after a restart only if the clock has come up to it by then.
-/

namespace OxideDB.Embedded

open Raft (Bytes)
open Storage

/-- A database over a data directory, and what has been committed to it, the newest first. -/
structure Session where
  db : Database
  committed : List (Bytes × Option Bytes)

inductive Event where
  | set (key : Key) (value : Option Bytes) (now now' : ℕ)
  | delete (key : Key) (now now' : ℕ)
  /-- The process starts again, and its allocator reads the clock. -/
  | restart (now : ℕ)

namespace Session

/-- A process over an empty directory. -/
def start (now : ℕ) : Session := ⟨⟨.empty, ⟨now⟩, 0⟩, []⟩

def note (S : Session) (key : Key) (word : Option Bytes) : Bool × Database → Session
  | (done, db) => ⟨db, if done then key.toList.map (·, word) ++ S.committed else S.committed⟩

def step (S : Session) : Event → Option Session
  | .set key value now now' => (S.db.set key value now now').toOption.map (S.note key value)
  | .delete key now now' => (S.db.delete key now now').toOption.map (S.note key none)
  | .restart now => some ⟨⟨S.db.storage, ⟨now⟩, 0⟩, S.committed⟩

/-- What was last committed to a key. -/
def lastWord (S : Session) (k : Bytes) : Option Bytes :=
  (S.committed.find? fun e => e.1 = k).bind Prod.snd

/-- The clock a process starts with is not behind the timestamps that were given out. -/
def Forward (S : Session) : Event → Prop
  | .restart now => S.db.clock.lastTimestamp ≤ now
  | _ => True

instance (S : Session) : (e : Event) → Decidable (S.Forward e)
  | .restart _ => inferInstanceAs (Decidable (_ ≤ _))
  | .set .. | .delete .. => inferInstanceAs (Decidable True)

end Session

/-- The newest version of every key is the last that was committed, and no version is ahead of the
clock. -/
structure Kept (S : Session) : Prop where
  below : ∀ k c w, S.db.storage.maps.version k c = some w → c ≤ S.db.clock.lastTimestamp
  newest : ∀ k, ∃ newest, Newest (S.db.storage.maps.version k) newest ∧
    newest.bind Prod.snd = S.lastWord k

theorem TimestampAllocator.lt_allocate (clock : TimestampAllocator) (now : ℕ) :
    clock.lastTimestamp < (clock.allocate now).lastTimestamp := by
  rw [allocate]
  split
  · assumption
  · exact Nat.lt_succ_self _

/-- A call that writes one thing, above every timestamp so far. -/
theorem Kept.write {S : Session} (h : Kept S) (i : Item) {timestamp : ℕ} (n : ℕ)
    (hlt : S.db.clock.lastTimestamp < timestamp) :
    Kept (S.note i.key i.word ((writeAll timestamp [i] S.db.storage).1,
      ⟨(writeAll timestamp [i] S.db.storage).2, ⟨timestamp⟩, n⟩)) := by
  rcases hrun : i.run timestamp S.db.storage with e | st
  · have hw : writeAll timestamp [i] S.db.storage = (false, S.db.storage) := by
      simp only [writeAll, hrun]
    rw [hw]
    exact ⟨fun k c w hc => (h.below k c w hc).trans (by exact_mod_cast hlt.le), h.newest⟩
  have hw : writeAll timestamp [i] S.db.storage = (true, st) := by simp only [writeAll, hrun]
  obtain ⟨k, hk, -, hmaps⟩ := run_done hrun
  rw [hw, hk]
  show Kept ⟨⟨st, ⟨timestamp⟩, n⟩, (k, i.word) :: S.committed⟩
  have hbelow : ∀ k' c w, st.maps.version k' c = some w → c ≤ timestamp := by
    intro k' c w hc
    rw [hmaps, Maps.putVersion_version] at hc
    split at hc
    · next heq => exact heq.2.le
    · exact (h.below k' c w hc).trans (by exact_mod_cast hlt.le)
  refine ⟨hbelow, fun k' => ?_⟩
  by_cases hkey : k' = k
  · subst hkey
    refine ⟨some (timestamp, i.word), .some ?_ fun c hc => ?_, ?_⟩
    · rw [hmaps, Maps.putVersion_version, if_pos ⟨rfl, rfl⟩]
    · refine Option.eq_none_iff_forall_ne_some.2 fun w hw => ?_
      have := hbelow k' c w hw
      omega
    · simp [Session.lastWord]
  · obtain ⟨newest, hnew, heq⟩ := h.newest k'
    have hsame : st.maps.version k' = S.db.storage.maps.version k' := by
      funext c
      rw [hmaps, Maps.putVersion_version, if_neg fun h => hkey h.1]
    refine ⟨newest, hsame ▸ hnew, heq.trans ?_⟩
    simp [Session.lastWord, Ne.symm hkey]

theorem Kept.step {S S' : Session} {e : Event} (hforward : S.Forward e) (h : Kept S)
    (hs : S.step e = some S') : Kept S' := by
  have hlt : ∀ now now', S.db.clock.lastTimestamp <
      ((S.db.clock.allocate now).allocate now').lastTimestamp := fun now now' =>
    (S.db.clock.lt_allocate now).trans (TimestampAllocator.lt_allocate _ now')
  cases e with
  | set key value now now' =>
    cases hs
    exact h.write (.set key value) _ (hlt now now')
  | delete key now now' =>
    cases hs
    exact h.write (.delete key) _ (hlt now now')
  | restart now =>
    cases hs
    exact ⟨fun k c w hc => (h.below k c w hc).trans (by exact_mod_cast hforward), h.newest⟩

/-- **A durable database keeps its last word**: where the clock has come up to the timestamps given out
whenever a process starts, every key reads as what was last committed to it. -/
theorem last_word_kept (now : ℕ) (es : List Event) (S : Session)
    (hclock : Transition.Along Session.step Session.Forward (.start now) es)
    (hrun : Transition.run Session.step (.start now) es = some S) {k : Bytes} (hk : ValidKey k) :
    S.db.get (some k) none = .ok (S.lastWord k) := by
  have hinit : Kept (.start now) := by
    refine ⟨fun k c w h => ?_, fun k => ⟨none, .none fun c => MVCCStorage.versionAt_empty k c, rfl⟩⟩
    cases (MVCCStorage.versionAt_empty k c).symm.trans h
  have hkept := hclock.invariant (fun _ _ _ hP hI hs => hI.step hP hs) hinit hrun
  obtain ⟨newest, hnew, heq⟩ := hkept.newest k
  have hvisible : S.db.storage.maps.visible k S.db.clock.lastTimestamp =
      S.db.storage.maps.version k := by
    funext c
    rw [Maps.visible]
    split
    · rfl
    · next hgt =>
      rcases hw : S.db.storage.maps.version k c with _ | w
      · rfl
      · exact absurd (hkept.below k c w hw) hgt
  exact read_ok.2 ⟨⟨hk, by omega⟩, newest, hvisible ▸ hnew, heq.symm⟩

/-- Written, deleted and written again, with a restart after each. -/
def reopened : List Event :=
  [.set (some [97]) (some [1]) 10 10, .restart 13, .delete (some [97]) 13 13, .restart 20,
    .set (some [97]) (some [2]) 19 18, .restart 22]

theorem last_word_kept_reopened : ∃ S, Transition.run Session.step (.start 10) reopened = some S ∧
    Transition.Along Session.step Session.Forward (.start 10) reopened ∧ ValidKey [97] ∧
    S.db.get (some [97]) none = .ok (S.lastWord [97]) :=
  ⟨_, rfl, by decide +kernel, by decide, last_word_kept 10 reopened _ (by decide +kernel) rfl (by decide)⟩

/-- A clock that goes forward by one while two timestamps are given out: the value is there, and is not
seen after the restart. -/
theorem restart_hides_write : ∃ S, Transition.run Session.step (.start 10)
      [.set (some [97]) (some [1]) 10 10, .restart 11] = some S ∧
    S.lastWord [97] = some [1] ∧ S.db.get (some [97]) none = .ok none :=
  ⟨_, rfl, by decide +kernel, by decide +kernel⟩

end OxideDB.Embedded
