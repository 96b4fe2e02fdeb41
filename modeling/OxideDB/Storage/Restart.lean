import OxideDB.Storage.Agreement
import OxideDB.Storage.Effect

/-!
# Replaying over an engine that survived

A node that restarts over a durable engine finds the keyspace its log has made, forgets the last
applied timestamp, and applies the log again from the first entry.  The commands look at the state,
so the second pass need not do what the first did.  `Mirror` relates the two passes, entry by entry,
to the keyspace both are about.
-/

namespace OxideDB.Storage.MVCCStateMachine

open Raft (Bytes ApplyResult)
open MVCCStorage Option Maps

variable {log : History}

/-! ## Two passes over one log -/

variable {m m' r r' : MVCCStateMachine} {cmd : Command} {now now' : Time} {answer : ApplyResult}
  {k : Bytes} {s c t : ℤ} {M : Maps}

/-- The log applied to a machine. -/
def reapply (m : MVCCStateMachine) (log : History) : MVCCStateMachine :=
  log.foldl (fun m entry => (apply entry.1 m entry.2).1) m

/-- The machine of a node that came back: its engine is what it was. -/
def restarted (m : MVCCStateMachine) : MVCCStateMachine := { m with lastAppliedTimestamp := 0 }

/-- What an entry must find so that a second pass does no other thing: `m` is the machine it is
applied to first, and `M` the keyspace the first pass ends with. -/
structure Steady (M : Maps) (now : Time) (m : MVCCStateMachine) (cmd : Command) : Prop where
  /-- A `PREWRITE` finds its key free. -/
  prewrite (htype : cmd.type = .prewrite) {k : Bytes} (hkey : cmd.key = some k) (s : ℤ) :
    m.maps.lock k s = none
  /-- A `COMMIT` that finds its lock is above its start, where the key has no version, and not
  above what has been applied. -/
  commit (htype : cmd.type = .commit) {k : Bytes} {s c : ℤ} (hkey : cmd.key = some k)
    (hs : cmd.startTs = some s) (hc : cmd.commitTs = some c) (hlock : m.maps.lock k s ≠ none) :
    s < c ∧ m.maps.version k c = none ∧ c ≤ m.lastAppliedTimestamp
  /-- A `CLEAN_LOCK` names its transaction. -/
  cleanLock (htype : cmd.type = .cleanLock) : cmd.startTs ≠ none
  /-- A lock that a transaction has let go of, it does not have in the end. -/
  released (htype : cmd.type = .commit ∨ Releases cmd) (k : Bytes) (s : ℤ) (hkey : cmd.key = some k)
    (hs : cmd.startTs = some s) (hnone : (apply now m cmd).1.maps.lock k s = none) :
    M.lock k s = none

/-- Every entry of the log finds what it must. -/
def SteadyLog : MVCCStateMachine → History → Prop
  | _, [] => True
  | m, entry :: log => Steady (reapply m (entry :: log)).maps entry.1 m entry.2 ∧
      SteadyLog (apply entry.1 m entry.2).1 log

/-- The second pass beside the first: `m` is the machine of the first pass, `r` that of the second,
and `M` the keyspace the first pass ends with. -/
structure Mirror (M : Maps) (m r : MVCCStateMachine) : Prop where
  last : r.lastAppliedTimestamp = m.lastAppliedTimestamp
  version (k : Bytes) (t : ℤ) :
    r.maps.version k t = m.maps.version k t ∨ r.maps.version k t = M.version k t
  versions (k : Bytes) (t : ℤ) : r.maps.version k t = none ↔ M.version k t = none
  record (k : Bytes) (c : ℤ) :
    r.maps.record k c = m.maps.record k c ∨ r.maps.record k c = M.record k c
  records (k : Bytes) (c : ℤ) : r.maps.record k c = none ↔ M.record k c = none
  /-- A key that ends locked is locked all along. -/
  held {k : Bytes} {s : ℤ} {f : LockFields} (h : M.lock k s = some f) : r.maps.lock k = M.lock k
  /-- Another key is locked when it was, by a transaction that never commits. -/
  free {k : Bytes} {s : ℤ} {f : LockFields} (hfree : ∀ s, M.lock k s = none)
    (h : r.maps.lock k s = some f) :
    m.maps.lock k s ≠ none ∧ ∀ c s', M.record k c = some s' → c ≤ s

theorem mirror_restarted (m : MVCCStateMachine) : Mirror m.maps empty (restarted m) where
  last := rfl
  version _ _ := .inr rfl
  versions _ _ := Iff.rfl
  record _ _ := .inr rfl
  records _ _ := Iff.rfl
  held _ := rfl
  free hfree h := by cases (hfree _).symm.trans h

/-- At the end of the passes the keyspace is what it was. -/
theorem Mirror.maps_eq (h : Mirror m.maps m r) : r.maps = m.maps := by
  refine Maps.ext ?_ ?_ ?_
  · funext k t
    exact (h.version k t).elim id id
  · funext k c
    exact (h.record k c).elim id id
  funext k
  by_cases hheld : ∃ s f, m.maps.lock k s = some f
  · obtain ⟨s, f, hf⟩ := hheld
    exact h.held hf
  have hfree : ∀ s, m.maps.lock k s = none := fun s =>
    eq_none_iff_forall_ne_some.2 fun f hf => hheld ⟨s, f, hf⟩
  funext s
  rw [hfree s]
  exact eq_none_iff_forall_ne_some.2 fun f hf => (h.free hfree hf).1 (hfree s)

/-- Nothing but locks of the first pass has changed. -/
theorem Mirror.of_lock (h : Mirror M m r) (hlast : m'.lastAppliedTimestamp = m.lastAppliedTimestamp)
    (hversion : m'.maps.version = m.maps.version) (hrecord : m'.maps.record = m.maps.record)
    (hlock : ∀ k s f, (∀ s, M.lock k s = none) → r.maps.lock k s = some f →
      m'.maps.lock k s ≠ none) : Mirror M m' r where
  last := h.last.trans hlast.symm
  version k t := by
    rw [hversion]
    exact h.version k t
  versions := h.versions
  record k c := by
    rw [hrecord]
    exact h.record k c
  records := h.records
  held := h.held
  free hfree hf := ⟨hlock _ _ _ hfree hf, (h.free hfree hf).2⟩

/-- `SET` and `DELETE`: both passes write the same. -/
theorem Mirror.puts (h : Mirror M m r) {f : Maps → Maps} (hf : Puts f)
    (hm : m'.maps = f m.maps) (hr : r'.maps = f r.maps)
    (hlast : r'.lastAppliedTimestamp = m'.lastAppliedTimestamp) (hkeeps : Keeps m'.maps M) :
    Mirror M m' r' := by
  have hlock : ∀ N : Maps, (f N).lock = N.lock := by
    intro N
    cases hf <;> rfl
  -- at each place the same thing is written in both passes, or nothing in either
  have hversion : ∀ k t, (∃ w, ∀ N : Maps, (f N).version k t = some w) ∨
      ∀ N : Maps, (f N).version k t = N.version k t := by
    intro k t
    cases hf with
    | nothing => exact .inr fun _ => rfl
    | version k' t' w | row k' t' w _ =>
      by_cases hat : k = k' ∧ t = t'
      · exact .inl ⟨w, fun N => if_pos hat⟩
      · exact .inr fun N => if_neg hat
  have hrecord : ∀ k c, (∃ s, ∀ N : Maps, (f N).record k c = some s) ∨
      ∀ N : Maps, (f N).record k c = N.record k c := by
    intro k c
    cases hf with
    | row k' t' w s =>
      by_cases hat : k = k' ∧ c = t'
      · exact .inl ⟨s, fun N => if_pos hat⟩
      · exact .inr fun N => if_neg hat
    | _ => exact .inr fun _ => rfl
  refine ⟨hlast, fun k t => ?_, fun k t => ?_, fun k c => ?_, fun k c => ?_, fun hf => ?_,
    fun hfree hf => ?_⟩
  · rw [hm, hr]
    rcases hversion k t with ⟨w, hw⟩ | hsame
    · exact .inl ((hw _).trans (hw _).symm)
    · rw [hsame, hsame]
      exact h.version k t
  · rcases hversion k t with ⟨w, hw⟩ | hsame
    · have hthere : M.version k t ≠ none := hkeeps.version (by rw [hm, hw]; exact some_ne_none w)
      rw [hr, hw]
      exact iff_of_false (some_ne_none w) hthere
    · rw [hr, hsame]
      exact h.versions k t
  · rw [hm, hr]
    rcases hrecord k c with ⟨s, hs⟩ | hsame
    · exact .inl ((hs _).trans (hs _).symm)
    · rw [hsame, hsame]
      exact h.record k c
  · rcases hrecord k c with ⟨s, hs⟩ | hsame
    · have hthere : M.record k c ≠ none := hkeeps.record (by rw [hm, hs]; exact some_ne_none s)
      rw [hr, hs]
      exact iff_of_false (some_ne_none s) hthere
    · rw [hr, hsame]
      exact h.records k c
  · rw [hr, hlock]
    exact h.held hf
  · rw [hr, hlock] at hf
    rw [hm, hlock]
    exact h.free hfree hf

/-- `PREWRITE`: the second pass takes a lock only where the first did. -/
theorem Mirror.prewrite (h : Mirror M m r) (htype : cmd.type = .prewrite) (htidy : Tidy r)
    (hsteady : ∀ k, cmd.key = some k → ∀ s, m.maps.lock k s = none)
    (hm : m' = (apply now m cmd).1) (hr : r' = (apply now' r cmd).1) (hkeeps : Keeps m.maps M) :
    Mirror M m' r' := by
  have hfirst : Mirror M m' r := by
    have happ := apply_applied now m cmd
    rw [← hm] at happ
    generalize (apply now m cmd).2 = answer at happ
    cases happ with
    | refused | kept => exact h
    | locked _ _ _ _ _ _ _ _ _ hmaps hlast =>
      refine h.of_lock hlast (by rw [hmaps]; rfl) (by rw [hmaps]; rfl) fun k' s' f hfree hf => ?_
      rw [hmaps, setLock_lock]
      split
      · exact some_ne_none _
      · exact (h.free hfree hf).1
    | wrote h' | copied h' | halfCopied _ h' | deleted h' | committed h' => cases htype.symm.trans h'
    | unlocked h' => rcases h' with ⟨h', -⟩ | ⟨h', -⟩ <;> cases htype.symm.trans h'
  have happ := apply_applied now' r cmd
  rw [← hr] at happ
  generalize (apply now' r cmd).2 = answer at happ
  cases happ with
  | refused | kept => exact hfirst
  | @locked _ k v p s _ hkey hvalue hs hp hvalid hnewest hrecord hversion hmaps hlast =>
    have hunlocked := htidy.free hnewest
    have hfree : ∀ s, M.lock k s = none := by
      intro s'
      refine eq_none_iff_forall_ne_some.2 fun f hf => ?_
      rw [← h.held hf, hunlocked] at hf
      cases hf
    -- the key admitted the transaction in the first pass, where there was less of it
    have hadmits : m.maps.Admits k s := by
      refine ⟨hsteady k hkey, fun {c s'} hc => ?_, fun {t w} ht => ?_⟩
      · have hthere : r.maps.record k c ≠ none := fun hnone =>
          hkeeps.record (by rw [hc]; exact some_ne_none _) ((h.records k c).1 hnone)
        obtain ⟨s'', hs''⟩ := ne_none_iff_exists'.1 hthere
        exact hrecord c s'' hs''
      · have hthere : r.maps.version k t ≠ none := fun hnone =>
          hkeeps.version (by rw [ht]; exact some_ne_none _) ((h.versions k t).1 hnone)
        obtain ⟨w', hw'⟩ := ne_none_iff_exists'.1 hthere
        exact hversion t w' hw'
    obtain ⟨hmaps', -⟩ := apply_prewrite now htype hkey hvalue hs hp hvalid hadmits
    rw [← hm] at hmaps'
    refine ⟨hlast.trans hfirst.last, fun k' t => ?_, fun k' t => ?_, fun k' c => ?_, fun k' c => ?_,
      fun {k' s' f} hf => ?_, fun {k' s' f} hfree' hf => ?_⟩
    · rw [hmaps]
      exact hfirst.version k' t
    · rw [hmaps]
      exact hfirst.versions k' t
    · rw [hmaps]
      exact hfirst.record k' c
    · rw [hmaps]
      exact hfirst.records k' c
    · rw [← h.held hf, hmaps]
      funext s''
      refine if_neg fun heq => ?_
      rw [heq.1, hfree] at hf
      cases hf
    · rw [hmaps, setLock_lock] at hf
      split at hf
      · next heq =>
        obtain ⟨rfl, rfl⟩ := heq
        refine ⟨?_, fun c s'' hc => ?_⟩
        · rw [hmaps', setLock_lock, if_pos ⟨rfl, rfl⟩]
          exact some_ne_none _
        have hthere : r.maps.record k' c ≠ none := fun hnone => by
          rw [(h.records k' c).1 hnone] at hc
          cases hc
        obtain ⟨s₁, hs₁⟩ := ne_none_iff_exists'.1 hthere
        exact hrecord c s₁ hs₁
      · exact hfirst.free hfree' hf
  | wrote h' | copied h' | halfCopied _ h' | deleted h' | committed h' => cases htype.symm.trans h'
  | unlocked h' => rcases h' with ⟨h', -⟩ | ⟨h', -⟩ <;> cases htype.symm.trans h'

/-- After a `COMMIT` at a timestamp that can be written, the transaction has no lock on the key. -/
theorem lock_commit (htidy : Tidy m) (now : Time) (htype : cmd.type = .commit)
    (hkey : cmd.key = some k) (hs : cmd.startTs = some s) (hc : cmd.commitTs = some c)
    (hvalid : ValidTs c) : (apply now m cmd).1.maps.lock k s = none := by
  rcases hlock : m.maps.lock k s with _ | f
  · exact (apply_applied now m cmd).lock_none hlock fun h => by cases htype.symm.trans h
  · rw [(apply_commit now htype hkey hs hc hvalid hlock (htidy.status hlock)).1,
      setLock_lock, if_pos ⟨rfl, rfl⟩]

/-- `COMMIT`: the second pass refuses it. -/
theorem Mirror.commit (h : Mirror M m r) (htype : cmd.type = .commit) (htidy : Tidy m)
    (hrecorded : Recorded m) (hsteady : Steady M now m cmd) (hm : m' = (apply now m cmd).1)
    (hr : r' = (apply now' r cmd).1) (hkeeps : Keeps m'.maps M) : Mirror M m' r' := by
  have hrefused : r' = r := by
    have happ := apply_applied now' r cmd
    rw [← hr] at happ
    generalize (apply now' r cmd).2 = answer at happ
    cases happ with
    | refused | kept => rfl
    | @committed _ k s c f _ hkey hs hc hvalid hlock =>
      exfalso
      by_cases hheld : ∃ s f, M.lock k s = some f
      · -- the transaction has let go of the key, so it is not the one that holds it in the end
        obtain ⟨s₀, f₀, hf₀⟩ := hheld
        have hnone := hsteady.released (.inl htype) k s hkey hs
          (lock_commit htidy now htype hkey hs hc hvalid.2.2)
        rw [h.held hf₀, hnone] at hlock
        cases hlock
      · -- the first pass has committed it, which the lock of the second pass has not seen
        have hfree : ∀ s, M.lock k s = none := fun s =>
          eq_none_iff_forall_ne_some.2 fun f hf => hheld ⟨s, f, hf⟩
        obtain ⟨hfirst, hbelow⟩ := h.free hfree hlock
        obtain ⟨f', hf'⟩ := ne_none_iff_exists'.1 hfirst
        obtain ⟨hmaps, -⟩ :=
          apply_commit now htype hkey hs hc hvalid.2.2 hf' (htidy.status hf')
        have hthere : M.record k c ≠ none := hkeeps.record (by
          rw [hm, hmaps, setLock_record, putRecord_record, if_pos ⟨rfl, rfl⟩]
          exact some_ne_none _)
        obtain ⟨s', hs'⟩ := ne_none_iff_exists'.1 hthere
        exact absurd (hbelow c s' hs') (not_le.2 (hsteady.commit htype hkey hs hc hfirst).1)
    | wrote h' | copied h' | halfCopied _ h' | deleted h' | locked h' => cases htype.symm.trans h'
    | unlocked h' => rcases h' with ⟨h', -⟩ | ⟨h', -⟩ <;> cases htype.symm.trans h'
  rw [hrefused]
  have happ := apply_applied now m cmd
  rw [← hm] at happ
  generalize (apply now m cmd).2 = answer at happ
  cases happ with
  | refused | kept => exact h
  | @committed _ k s c f _ hkey hs hc hvalid hlock hstatus hmaps hlast =>
    obtain ⟨hsc, hnone, hle⟩ := hsteady.commit htype hkey hs hc (by rw [hlock]; exact some_ne_none f)
    have hversion : ∀ k' t', m'.maps.version k' t' =
        if k' = k ∧ t' = c then some (some f.value) else m.maps.version k' t' := by
      intro k' t'
      rw [hmaps]
      rfl
    have hrecord : ∀ k' c', m'.maps.record k' c' =
        if k' = k ∧ c' = c then some s else m.maps.record k' c' := by
      intro k' c'
      rw [hmaps]
      rfl
    have hnorecord : m.maps.record k c = none :=
      eq_none_iff_forall_ne_some.2 fun s' hs' => hrecorded k c s' hs' hnone
    refine ⟨?_, fun k' t' => ?_, h.versions, fun k' c' => ?_, h.records, h.held,
      fun {k' s' f'} hfree hf => ?_⟩
    · rw [hlast, max_eq_left hle]
      exact h.last
    · rw [hversion]
      split
      · next heq =>
        obtain ⟨rfl, rfl⟩ := heq
        refine .inr ((h.version k' t').resolve_left fun heq => ?_)
        rw [hnone, h.versions] at heq
        exact hkeeps.version (by rw [hversion, if_pos ⟨rfl, rfl⟩]; exact some_ne_none _) heq
      · exact h.version k' t'
    · rw [hrecord]
      split
      · next heq =>
        obtain ⟨rfl, rfl⟩ := heq
        refine .inr ((h.record k' c').resolve_left fun heq => ?_)
        rw [hnorecord, h.records] at heq
        exact hkeeps.record (by rw [hrecord, if_pos ⟨rfl, rfl⟩]; exact some_ne_none _) heq
      · exact h.record k' c'
    · obtain ⟨hfirst, hbelow⟩ := h.free hfree hf
      refine ⟨?_, hbelow⟩
      rw [hmaps, setLock_lock]
      split
      · next heq =>
        obtain ⟨rfl, rfl⟩ := heq
        have hthere : M.record k' c ≠ none := hkeeps.record (by
          rw [hrecord, if_pos ⟨rfl, rfl⟩]
          exact some_ne_none _)
        obtain ⟨s₁, hs₁⟩ := ne_none_iff_exists'.1 hthere
        exact absurd (hbelow c s₁ hs₁) (not_le.2 hsc)
      · exact hfirst
  | wrote h' | copied h' | halfCopied _ h' | deleted h' | locked h' => cases htype.symm.trans h'
  | unlocked h' => rcases h' with ⟨h', -⟩ | ⟨h', -⟩ <;> cases htype.symm.trans h'

/-- `ROLLBACK` and `CLEAN_LOCK`: both passes let the lock go. -/
theorem Mirror.release (h : Mirror M m r)
    (hm : m'.maps = m.maps.setLock k s none) (hmlast : m'.lastAppliedTimestamp = m.lastAppliedTimestamp)
    (hr : r'.maps = r.maps.setLock k s none) (hrlast : r'.lastAppliedTimestamp = r.lastAppliedTimestamp)
    (hgone : M.lock k s = none) : Mirror M m' r' := by
  refine ⟨by rw [hrlast, hmlast, h.last], fun k' t => ?_, fun k' t => ?_, fun k' c => ?_,
    fun k' c => ?_, fun {k' s' f} hf => ?_, fun {k' s' f} hfree hf => ?_⟩
  · rw [hr, hm]
    exact h.version k' t
  · rw [hr]
    exact h.versions k' t
  · rw [hr, hm]
    exact h.record k' c
  · rw [hr]
    exact h.records k' c
  · funext s₁
    rw [hr, setLock_lock]
    split
    · next heq => rw [heq.1, heq.2, hgone]
    · rw [h.held hf]
  · rw [hr, setLock_lock] at hf
    rw [hm, setLock_lock]
    split at hf
    · cases hf
    · next hne =>
      rw [if_neg hne]
      exact h.free hfree hf

/-- A command without a key, or of no transaction, lets nothing go. -/
theorem apply_release_none (now : Time) (m : MVCCStateMachine) (htype : Releases cmd)
    (h : cmd.key = none ∨ cmd.startTs = none) (hclean : cmd.type = .cleanLock → cmd.startTs ≠ none) :
    (apply now m cmd).1 = m := by
  have happ := apply_applied now m cmd
  generalize apply now m cmd = result at happ ⊢
  obtain ⟨m', answer⟩ := result
  cases happ with
  | refused | kept => rfl
  | unlocked hwhat hkey =>
    rcases h with h | h
    · cases h.symm.trans hkey
    · rcases hwhat with ⟨-, hs⟩ | ⟨hc, -⟩
      · cases h.symm.trans hs
      · exact absurd h (hclean hc)
  | wrote h' | copied h' | halfCopied _ h' | deleted h' | locked h' | committed h' =>
    rcases htype with htype | htype <;> cases htype.symm.trans h'

/-- **One entry, in both passes.** -/
theorem Mirror.step (h : Mirror M m r) (htidy : Tidy m) (htidy' : Tidy r) (hrecorded : Recorded m)
    (now now' : Time) (hsteady : Steady M now m cmd)
    (hkeeps : Keeps (apply now m cmd).1.maps M) : Mirror M (apply now m cmd).1 (apply now' r cmd).1 := by
  have hwrite : cmd.type = .set ∨ cmd.type = .delete →
      Mirror M (apply now m cmd).1 (apply now' r cmd).1 := by
    intro htype
    obtain ⟨f, last', hf, hdoes⟩ := does_write htype m.lastAppliedTimestamp
    obtain ⟨hm, hmlast⟩ := hdoes now m rfl
    obtain ⟨hr, hrlast⟩ := hdoes now' r h.last
    exact h.puts hf hm hr (hrlast.trans hmlast.symm) hkeeps
  have hrelease : Releases cmd → Mirror M (apply now m cmd).1 (apply now' r cmd).1 := by
    intro htype
    rcases hkey : cmd.key with _ | k
    · rw [apply_release_none now m htype (.inl hkey) hsteady.cleanLock,
        apply_release_none now' r htype (.inl hkey) hsteady.cleanLock]
      exact h
    rcases hs : cmd.startTs with _ | s
    · rw [apply_release_none now m htype (.inr hs) hsteady.cleanLock,
        apply_release_none now' r htype (.inr hs) hsteady.cleanLock]
      exact h
    obtain ⟨hm, hmlast⟩ := apply_release htidy now htype hkey hs
    obtain ⟨hr, hrlast⟩ := apply_release htidy' now' htype hkey hs
    refine h.release hm hmlast hr hrlast (hsteady.released (.inr htype) k s hkey hs ?_)
    rw [hm, setLock_lock, if_pos ⟨rfl, rfl⟩]
  cases htype : cmd.type with
  | set => exact hwrite (.inl htype)
  | delete => exact hwrite (.inr htype)
  | prewrite =>
    exact h.prewrite htype htidy' (fun k hkey s => hsteady.prewrite htype hkey s) rfl rfl
      ((apply_applied now m cmd).keeps.trans hkeeps)
  | commit => exact h.commit htype htidy hrecorded hsteady rfl rfl hkeeps
  | rollback => exact hrelease (.inl htype)
  | cleanLock => exact hrelease (.inr htype)
  | other name =>
    have hsame : ∀ now m, (apply now m cmd).1 = m := by
      intro now m
      rw [apply_eq, dispatch, htype]
      rfl
    rw [hsame, hsame]
    exact h

theorem keeps_reapply (m : MVCCStateMachine) (log : History) :
    Keeps m.maps (reapply m log).maps := by
  induction log generalizing m with
  | nil => exact .refl _
  | cons entry log ih => exact (apply_applied entry.1 m entry.2).keeps.trans (ih _)

/-- **Both passes, over the rest of the log.** -/
theorem mirror_reapply {log' : History} (hcmds : log'.map Prod.snd = log.map Prod.snd)
    (htidy : Tidy m) (htidy' : Tidy r) (hrecorded : Recorded m) (hsteady : SteadyLog m log)
    (h : Mirror (reapply m log).maps m r) :
    Mirror (reapply m log).maps (reapply m log) (reapply r log') := by
  induction log generalizing m r log' with
  | nil =>
    obtain rfl := List.map_eq_nil_iff.1 hcmds
    exact h
  | cons entry log ih =>
    obtain ⟨⟨now', cmd⟩, log', rfl, rfl, hrest⟩ := List.map_eq_cons_iff.1 hcmds
    obtain ⟨hstep, hlog⟩ := hsteady
    have hnext : Mirror (reapply m (entry :: log)).maps (apply entry.1 m entry.2).1
        (apply now' r entry.2).1 :=
      h.step htidy htidy' hrecorded _ _ hstep (keeps_reapply _ log)
    exact ih (m := (apply entry.1 m entry.2).1) (r := (apply now' r entry.2).1) hrest
      (htidy.apply _ _) (htidy'.apply _ _) (hrecorded.applied (apply_applied _ _ _)) hlog hnext

/-- **Replaying over a surviving engine** changes nothing, when every entry found what it must the
first time: the versions, the write records, the locks and the newest reads are what they were,
whatever the clock says. -/
theorem replay_over_engine {log log' : History} (hcmds : log'.map Prod.snd = log.map Prod.snd)
    (hsteady : SteadyLog empty log) :
    (reapply (restarted (replay log)) log').maps = (replay log).maps ∧
      ∀ k, (reapply (restarted (replay log)) log').get k none = (replay log).get k none := by
  have hmirror := mirror_reapply hcmds tidy_empty (r := restarted (replay log))
    ((tidy_replay log).of_sub fun _ _ _ h => h) recorded_empty hsteady (mirror_restarted _)
  have hmaps := hmirror.maps_eq
  refine ⟨hmaps, fun k => Agree.get_newest ⟨?_, ?_, ?_⟩ hmirror.last⟩
  · rw [hmaps]
    rfl
  · rw [hmaps]
    rfl
  · rw [hmaps]
    rfl

theorem lock_eq_none (h : m.getLockStatus k = .ok none) (s : ℤ) : m.maps.lock k s = none := by
  obtain ⟨k', hk', -⟩ := bind_ok h
  obtain ⟨newest, hnewest, hnew⟩ :=
    getNewestLock_valid m.storage (some.inj (checkUserKey_ok hk') ▸ k'.2)
  have heq := Except.ok.inj (h.symm.trans hnewest)
  cases hnew with
  | none hall => exact hall s
  | some => cases heq

/-- A log with a write, a transaction that commits below it, and one that is still at it. -/
def steadyExample : History :=
  [(0, { type := .set, key := some [97], value := some [120], timestamp := some 20 }),
    (0, .prewrite [98] [121] 10 [98]), (0, .commit [98] 10 15), (0, .prewrite [97] [122] 30 [97])]

theorem replay_over_engine_example :
    SteadyLog empty steadyExample ∧
      (reapply (restarted (replay steadyExample)) steadyExample).maps = (replay steadyExample).maps ∧
      ∀ k, (reapply (restarted (replay steadyExample)) steadyExample).get k none =
        (replay steadyExample).get k none := by
  have hsteady : SteadyLog empty steadyExample := by
    refine ⟨⟨nofun, nofun, nofun, fun h => absurd h (by decide)⟩,
      ⟨fun _ k hkey => ?_, nofun, nofun, fun h => absurd h (by decide)⟩,
      ⟨nofun, fun _ k s c hkey hs hc _ => ?_, nofun, fun _ k s hkey hs _ => ?_⟩,
      ⟨fun _ k hkey => ?_, nofun, nofun, fun h => absurd h (by decide)⟩, trivial⟩
    · cases hkey
      exact lock_eq_none (by decide +kernel)
    · cases hkey
      cases hs
      cases hc
      decide +kernel
    · cases hkey
      exact lock_eq_none (by decide +kernel) s
    · cases hkey
      exact lock_eq_none (by decide +kernel)
  exact ⟨hsteady, replay_over_engine rfl hsteady⟩

/-- **A committed write is not read after a restart**: the second pass refuses the `COMMIT`, and with
it the timestamp up to which a read of the newest version looks. -/
theorem replay_over_engine_unread :
    (replay [(0, .prewrite [97] [120] 1 [97]), (0, .commit [97] 1 2)]).get [97] none =
        .ok (.ok (some [120]) 2) ∧
      (reapply (restarted (replay [(0, .prewrite [97] [120] 1 [97]), (0, .commit [97] 1 2)]))
        [(0, .prewrite [97] [120] 1 [97]), (0, .commit [97] 1 2)]).get [97] none =
        .ok (.ok none) := by
  decide +kernel

end OxideDB.Storage.MVCCStateMachine
