import OxideDB.Client.Walk

/-!
# What an answer of `None` means

`SmartClient.get`: the level of consistency decides which member is asked first and which index the
read names, a lock in the way is waited for and the read is made once more, the walk goes on after a
refusal, and an error is followed by another attempt.  What the nodes answer is given in advance,
read by read, and so is what becomes of a lock.

A value that `get` returns is one that a node has answered with, exactly if the nodes that do not
answer refuse as `ERR_NOT_LEADER`, or, before their lock was waited for, as `ERR_LOCKED`.  The check after
the walk looks for `ERR_NOT_LEADER` alone: a read that timed out, or one that meets a second lock, has
no value either, and `None` is returned for it.
-/

namespace OxideDB.Routing

open Raft (Bytes ErrorCode)
open Program List

variable {settled : Bool} {named : Option ℕ}

/-! ## The client -/

/-- `Consistency`; a word that is none of the levels is quoted in the refusal. -/
inductive Consistency where
  | strong
  | follower
  | cached
  | unknown (word : String)
  deriving DecidableEq

/-- `ReadResult`, as `success` and `failure` build it. -/
inductive Reading where
  | success (value : Option Bytes) (readIndex : Option ℕ)
  | failure (code : ErrorCode) (leaderAddress : Option Address) (readIndex : Option ℕ)
  deriving DecidableEq

namespace Reading

def errorCode : Reading → Option ErrorCode
  | .success _ _ => none
  | .failure code _ _ => some code

def value : Reading → Option Bytes
  | .success value _ => value
  | .failure _ _ _ => none

def readIndex : Reading → Option ℕ
  | .success _ readIndex => readIndex
  | .failure _ _ readIndex => readIndex

end Reading

instance : Answer Reading where
  errorCode := Reading.errorCode
  leaderAddress
    | .success _ _ => none
    | .failure _ leaderAddress _ => leaderAddress

/-- An answer to a read: of which key, at which index, and whether a lock was waited for before it. -/
structure Heard where
  key : Bytes
  named : Option ℕ
  settled : Bool
  reading : Reading
  deriving DecidableEq

/-- What becomes of a lock, and which read of the table the resolver leaves in the cache it shares. -/
structure Settlement where
  outcome : Except Raised Bool
  table : Option ℕ := none

/-- The cache after it. -/
def Settlement.leave {X : Type} (settlement : Settlement) (s : ShardLeaders X) : ShardLeaders X :=
  match settlement.table.map fun k => (s.moments k).table with
  | some (.ok t) => { s with table := some t }
  | _ => s

/-- What a read meets: the answers of the nodes, the settlements of locks and the clock, each by the
number of the call. -/
structure Surroundings where
  reads : ℕ → Except Raised Reading
  locks : ℕ → Settlement
  clock : ℕ → ℤ

/-- What a read leaves: what was heard, and the `ReadIndexCache`. -/
structure Reads where
  calls : ℕ := 0
  heard : List Heard := []
  indices : ℤ → Option (ℕ × ℤ) := fun _ => none

/-- What a client is built with. -/
structure ClientSetup extends Setup where
  /-- `READ_INDEX_TTL`. -/
  ttl : ℤ
  repr : Bytes → String

variable (env : Surroundings)

/-- One more call. -/
def ticked (s : ShardLeaders Reads) : ShardLeaders Reads :=
  { s with outside := { s.outside with calls := s.outside.calls + 1 } }

/-- The number of the next call. -/
def tick : Method Reads ℕ := fun s => (.ok s.outside.calls, ticked s)

def hear (h : Heard) (s : ShardLeaders Reads) : ShardLeaders Reads :=
  { s with outside := { s.outside with heard := s.outside.heard ++ [h] } }

/-- `client.get`: the answer, once there is one, is heard. -/
def clientGet (key : Bytes) (named : Option ℕ) (settled : Bool) : Method Reads Reading := do
  let n ← tick
  match env.reads n with
  | .error r => raise r
  | .ok reading =>
    modify (hear ⟨key, named, settled, reading⟩)
    return reading

/-- `await_lock`. -/
def awaitLock : Method Reads Bool := do
  let n ← tick
  modify (env.locks n).leave
  match (env.locks n).outcome with
  | .ok gone => return gone
  | .error r => raise r

namespace SmartClient

variable (cfg : ClientSetup) (key : Bytes)

def cachedIndex (shard : ℤ) : Method Reads (Option ℕ) := do
  match ← get fun s => s.outside.indices shard with
  | none => return none
  | some (readIndex, keptAt) =>
    let n ← tick
    return if env.clock n - keptAt ≥ cfg.ttl then none else some readIndex

def remember (shard : ℤ) (readIndex : ℕ) : Method Reads Unit := do
  let n ← tick
  modify fun s =>
    { s with outside := { s.outside with
        indices := Function.update s.outside.indices shard (some (readIndex, env.clock n)) } }

/-- `_index_to_name`. -/
def indexToName (shard : ℤ) : Consistency → Method Reads (Option ℕ)
  | .cached => cachedIndex env cfg shard
  | _ => return none

/-- `_member_to_ask`. -/
def memberToAsk (shard : ℤ) : Consistency → Method Reads (Option NodeClient)
  | .strong => return none
  | _ => replicaForShard cfg.toSetup shard

/-- `_read`, of the node a handle is on. -/
def read (named : Option ℕ) (_ : NodeClient) : Method Reads (Option Reading) := do
  let answer ← clientGet env key named false
  if answer.errorCode = some .errLocked then
    let gone ← awaitLock env
    if gone then return some (← clientGet env key none true)
    else
      let shown := cfg.repr key
      raise (.other s!"Key {shown} outlived its lock TTL: the shard could not settle it")
  else return some answer

/-- The basis of an answer is kept by a read that has named none. -/
def keepIndex (shard : ℤ) : Option ℕ → Option ℕ → Method Reads Unit
  | none, some readIndex => remember env shard readIndex
  | _, _ => return ()

/-- The end of `_do_get`, with the answer of the walk. -/
def conclude (shard : ℤ) (named : Option ℕ) : Option Reading → Method Reads (Option Bytes)
  | none => raise (.other "No leader found")
  | some result =>
    if result.errorCode = some .errNotLeader then raise (.other "Not leader")
    else do
      keepIndex env shard named result.readIndex
      return result.value

/-- `_do_get`; `none` when the walk has not come to its end. -/
def doGet (fuel : ℕ) (consistency : Consistency) : Method Reads (Option (Option Bytes)) := do
  match ← shardForKey cfg.toSetup key with
  | none =>
    let shown := cfg.repr key
    raise (.other s!"No shard holds {shown}")
  | some shard =>
    let named ← indexToName env cfg shard consistency
    let first ← memberToAsk cfg shard consistency
    match ← askShard cfg.toSetup shard fuel (read env cfg key named) 2 first with
    | none => return none
    | some result => return some (← conclude env shard named result)

/-- The attempts of `_retry_with_backoff` that are left, and the last error. -/
def retryWithBackoff {B : Type} (func : Method Reads B) : ℕ → Raised → Method Reads B
  | 0, lastError => raise lastError
  | attempts + 1, _ => do
    match ← func.attempt with
    | .ok b => return b
    | .error e => retryWithBackoff func attempts e

/-- `_check_consistency`. -/
def checkConsistency : Consistency → Method Reads Unit
  | .unknown word => raise (.other s!"'{word}' is not a consistency: strong or follower or cached")
  | _ => return ()

/-- `get`, with `_retry_max_attempts` attempts. -/
def get (fuel : ℕ) (consistency : Consistency) : Method Reads (Option (Option Bytes)) := do
  checkConsistency consistency
  retryWithBackoff (doGet env cfg key fuel consistency) 3 (.other "")

end SmartClient

open SmartClient (doGet conclude indexToName memberToAsk retryWithBackoff)

/-! ## The answer of a walk -/

section Walks

variable {X A : Type} [Answer A] {cfg : Setup} {shard : ℤ} {question : NodeClient → Method X (Option A)}

/-- What an end leaves: `F` of an answer, and `I` where there is none, or only a refusal. -/
def Ended (I : ShardLeaders X → Prop) (F : A → ShardLeaders X → Prop) :
    Option A → ShardLeaders X → Prop
  | some a, s => if Answer.errorCode a = some .errNotLeader then I s else F a s
  | none, s => I s

/-- What a question has returned, or nothing when it has raised. -/
def answerOf (r : Except Raised (Option A)) : Option A := r.toOption.join

/-- An answer the walk goes on with is a refusal. -/
def Refusal (answer : Option A) : Prop := ∀ a, answer = some a → Answer.errorCode a = some .errNotLeader

variable {I : ShardLeaders X → Prop} {F : A → ShardLeaders X → Prop} {s : ShardLeaders X}

/-- A refusal is no answer. -/
theorem ended_refusal {a : A} (h : Answer.errorCode a = some .errNotLeader) :
    Ended I F (some a) s ↔ I s := by
  rw [Ended, if_pos h]

theorem ended_answer {a : A} (h : Answer.errorCode a ≠ some .errNotLeader) :
    Ended I F (some a) s ↔ F a s := by
  rw [Ended, if_neg h]

theorem Refusal.ended {answer : Option A} (h : Refusal answer) (hs : I s) : Ended I F answer s := by
  rcases answer with _ | a
  · exact hs
  · exact (ended_refusal (h a rfl)).2 hs

/-- The end of a question, as the loop looks at it. -/
def Judged (I : ShardLeaders X → Prop) (F : A → ShardLeaders X → Prop) (s : ShardLeaders X) :
    Verdict A → Prop
  | .answered a => Ended I F (some a) s
  | .refused answer _ _ => Refusal answer ∧ I s
  | .raises _ => I s

/-- The loop goes by what the reply answers. -/
theorem judged {r : Except Raised (Option A)} (h : Ended I F (answerOf r) s) :
    Judged I F s (verdict r) := by
  rcases r with (⟨code, hint⟩ | msg | msg) | _ | a
  · rw [verdict]
    split
    · exact ⟨nofun, h⟩
    · exact h
  · exact ⟨nofun, h⟩
  · exact h
  · exact ⟨nofun, h⟩
  · rw [verdict]
    split
    · rename_i hcode
      exact ⟨fun b hb => by cases hb; exact hcode, (ended_refusal hcode).1 h⟩
    · exact h

variable {R : ShardLeaders X → ShardLeaders X → Prop} [IsPreorder (ShardLeaders X) R]
  (hR : Moves cfg R) (hI : ∀ s s', R s s' → I s → I s') (hF : ∀ a s s', R s s' → F a s → F a s')

include hI hF in
omit [IsPreorder (ShardLeaders X) R] in
theorem Ended.mono {answer : Option A} {s s' : ShardLeaders X} (h : Ended I F answer s)
    (hs : R s s') : Ended I F answer s' := by
  rcases answer with _ | a
  · exact hI s s' hs h
  · by_cases hcode : Answer.errorCode a = some .errNotLeader
    · exact (ended_refusal hcode).2 (hI s s' hs ((ended_refusal hcode).1 h))
    · exact (ended_answer hcode).2 (hF a s s' hs ((ended_answer hcode).1 h))

variable (hq : ∀ c s, I s → (question c).Spec s fun r => Ended I F (answerOf r))
include hR hI hF hq

/-- A turn that is not the last leaves a refusal. -/
theorem turn_ended (first : Option NodeClient) {lastAnswer : Option A} (hs : I s)
    (hlast : Refusal lastAnswer) :
    (turn cfg shard question first lastAnswer).Spec s fun r s' =>
      match r with
      | .ok (.finished answer) => Ended I F answer s'
      | .ok (.refused answer _ _) => Refusal answer ∧ I s'
      | .error _ => I s' := by
  refine (Spec.of_within (hR.passes.firstOrLeader first) s).bind (fun client s₁ h => ?_)
    fun e s₁ h => hI s s₁ h hs
  have hs₁ := hI s s₁ h hs
  rcases client with _ | c
  · exact hlast.ended hs₁
  show (put cfg shard question c).Spec s₁ _
  rw [put, spec_modify_bind]
  have hasked := hq c _ (hI _ _ (hR.ask s₁ c.address) hs₁)
  rcases hr : question c (s₁.visit (.asked c.address)) with ⟨r, s₂⟩
  rw [Spec, hr] at hasked
  rw [spec_bind_ok (show (question c).attempt (s₁.visit (.asked c.address)) = (.ok r, s₂) by
    rw [attempt, hr])]
  have hjudged := judged hasked
  rcases hv : verdict r with a | ⟨answer, raised, hint⟩ | e
  · rw [hv] at hjudged
    have hended : Ended I F (some a) s₂ := hjudged
    exact hended.mono hI hF (hR.rearrange _ _ (.forgetShard s₂ shard))
  · rw [hv] at hjudged
    have hs₂ := hI _ _ (hR.visit s₂ (.refused hint (s₂.queued shard)) rfl) hjudged.2
    exact spec_modify_bind.2 ((Spec.of_within (hR.passes.refusedWith hint) _).bind
      (fun e s₃ h => ⟨hjudged.1, hI _ _ h hs₂⟩) fun e s₃ h => hI _ _ h hs₂)
  · rw [hv] at hjudged
    exact hjudged

/-- What holds of every answer to a question holds of the answer of the walk, and what holds as long
as there is none still holds where the walk has none. -/
theorem walk_ended (fuel : ℕ) (first : Option NodeClient) (readsLeft : ℕ) {lastAnswer : Option A}
    (hs : I s) (hlast : Refusal lastAnswer) :
    (walk cfg shard question fuel first readsLeft lastAnswer).Spec s fun r =>
      Ended I F (r.toOption.join).join := by
  induction fuel generalizing first readsLeft lastAnswer s with
  | zero => exact hs
  | succ fuel ih =>
    refine (turn_ended hR hI hF hq first hs hlast).bind (fun t s₁ ht => ?_) fun e s₁ h => h
    rcases t with answer | ⟨answer, raised, _ | _⟩
    · exact ht
    · rcases readsLeft with _ | readsLeft
      · rcases raised with _ | r
        · exact ht.1.ended ht.2
        · exact ht.2
      · exact (Spec.of_within hR.passes.refreshForShard s₁).bind
          (fun _ s₂ h => ih none readsLeft (hI _ _ h ht.2) ht.1) fun e s₂ h => hI _ _ h ht.2
    · exact ih none readsLeft ht.2 ht.1

end Walks

/-! ## What a read keeps -/

variable {env : Surroundings} {client : ClientSetup} {key : Bytes} {shard : ℤ}
  {s s₀ : ShardLeaders Reads}

theorem clientGet_ok {reading : Reading} (h : env.reads s.outside.calls = .ok reading) :
    clientGet env key named settled s = (.ok reading, hear ⟨key, named, settled, reading⟩ (ticked s)) := by
  simp only [clientGet, bind, tick, h]
  rfl

theorem clientGet_error {r : Raised} (h : env.reads s.outside.calls = .error r) :
    clientGet env key named settled s = (.error r, ticked s) := by
  simp only [clientGet, bind, tick, h]
  rfl

/-- `await_lock` in one step. -/
theorem awaitLock_eq (s : ShardLeaders Reads) :
    awaitLock env s =
      ((env.locks s.outside.calls).outcome, (env.locks s.outside.calls).leave (ticked s)) := by
  simp only [awaitLock, bind, tick, Program.modify]
  rcases (env.locks s.outside.calls).outcome with r | gone <;> rfl

/-- Settling a lock leaves at most another table. -/
theorem leave_cases {X : Type} (settlement : Settlement) (s : ShardLeaders X) :
    settlement.leave s = s ∨
      ∃ k t, (s.moments k).table = .ok t ∧ settlement.leave s = { s with table := some t } := by
  rw [Settlement.leave]
  rcases settlement.table with _ | k
  · exact .inl rfl
  rcases hk : (s.moments k).table with msg | t
  · rw [Option.map_some, hk]
    exact .inl rfl
  · rw [Option.map_some, hk]
    exact .inr ⟨k, t, hk, rfl⟩

/-- The steps a read makes outside the walk, but for hearing an answer, kept by `R`. -/
structure Outer (R : ShardLeaders Reads → ShardLeaders Reads → Prop) : Prop where
  tick (s : ShardLeaders Reads) : R s (ticked s)
  hold (s : ShardLeaders Reads) (k : ℕ) (t : Metadata.RoutingTable) :
    (s.moments k).table = .ok t → R s { s with table := some t }
  keep (indices : ℤ → Option (ℕ × ℤ)) (s : ShardLeaders Reads) :
    R s { s with outside := { s.outside with indices := indices } }

namespace Outer

variable {R : ShardLeaders Reads → ShardLeaders Reads → Prop} [IsPreorder (ShardLeaders Reads) R]
  (h : Outer R)
include h

theorem within_awaitLock : Within R (awaitLock env) := by
  intro s
  rw [awaitLock_eq]
  rcases leave_cases (env.locks s.outside.calls) (ticked s) with hl | ⟨k, t, hk, hl⟩
  · rw [hl]
    exact h.tick s
  · rw [hl]
    exact trans_of R (h.tick s) (h.hold _ k t hk)

theorem within_indexToName (consistency : Consistency) :
    Within R (indexToName env client shard consistency) := by
  rcases consistency with _ | _ | _ | word
  · exact .pure _
  · exact .pure _
  · refine (Within.get _).bind fun entry => ?_
    rcases entry with _ | ⟨readIndex, keptAt⟩
    · exact .pure _
    · exact Within.bind h.tick fun _ => .pure _
  · exact .pure _

theorem within_conclude (named : Option ℕ) (result : Option Reading) :
    Within R (conclude env shard named result) := by
  rcases result with _ | result
  · exact .raise _
  rw [conclude]
  split
  · exact .raise _
  refine Within.bind ?_ fun _ => .pure _
  rcases named with _ | n
  · rcases result.readIndex with _ | readIndex
    · exact .pure _
    · exact Within.bind h.tick fun _ => Within.modify fun s => h.keep _ s
  · exact .pure _

variable (hhear : ∀ heard s, R s (hear heard s))
include hhear

theorem within_clientGet (named : Option ℕ) (settled : Bool) :
    Within R (clientGet env key named settled) := by
  intro s
  rcases hr : env.reads s.outside.calls with r | reading
  · rw [clientGet_error hr]
    exact h.tick s
  · rw [clientGet_ok hr]
    exact trans_of R (h.tick s) (hhear _ _)

theorem within_read (named : Option ℕ) (c : NodeClient) :
    Within R (SmartClient.read env client key named c) := by
  refine (h.within_clientGet hhear named false).bind fun answer => ?_
  split
  · refine h.within_awaitLock.bind fun gone => ?_
    split
    · exact (h.within_clientGet hhear none true).bind fun _ => .pure _
    · exact .raise _
  · exact .pure _

variable (hmoves : Moves client.toSetup R)
include hmoves

omit h hhear in
theorem within_memberToAsk (shard : ℤ) (consistency : Consistency) :
    Within R (memberToAsk client shard consistency) := by
  rcases consistency with _ | _ | _ | word
  · exact .pure _
  · exact hmoves.passes.replicaForShard
  · exact hmoves.passes.replicaForShard
  · exact hmoves.passes.replicaForShard

theorem within_doGet (fuel : ℕ) (consistency : Consistency) :
    Within R (doGet env client key fuel consistency) := by
  refine Within.bind (hmoves.passes.shardForKey client.toSetup key) fun shard => ?_
  rcases shard with _ | shard
  · exact .raise _
  refine (h.within_indexToName consistency).bind fun named =>
    (within_memberToAsk hmoves shard consistency).bind fun first =>
      Within.bind (hmoves.passes.walk (h.within_read hhear named) fuel first 1 none) fun result => ?_
  rcases result with _ | result
  · exact .pure _
  · exact (h.within_conclude named result).bind fun _ => .pure _

end Outer

/-! ## What is heard -/

/-- A refusal that a read goes on from: the node does not lead, or has a lock that is waited for. -/
def Heard.Passing (h : Heard) : Prop :=
  h.reading.errorCode = some .errNotLeader ∨ h.reading.errorCode = some .errLocked ∧ h.settled = false

/-- Nothing has been heard. -/
def Silent (s s' : ShardLeaders Reads) : Prop := s'.outside.heard = s.outside.heard

instance : IsPreorder (ShardLeaders Reads) Silent where
  refl _ := rfl
  trans _ _ _ h h' := h'.trans h

theorem moves_silent (cfg : Setup) : Moves cfg Silent where
  next _ := rfl
  visit _ _ _ := rfl
  hold _ _ _ _ := rfl
  ask _ _ := rfl
  rearrange _ _ h := congrArg Reads.heard h.outside

theorem outer_silent : Outer Silent where
  tick _ := rfl
  hold _ _ _ _ := rfl
  keep _ _ := rfl

/-- Since `s₀` nothing but such refusals has been heard. -/
def Refusals (s₀ s : ShardLeaders Reads) : Prop :=
  ∃ l, s.outside.heard = s₀.outside.heard ++ l ∧ ∀ h ∈ l, h.Passing

/-- The answer was heard last, after nothing but refusals, and it is none. -/
def Told (s₀ : ShardLeaders Reads) (key : Bytes) (a : Reading) (s : ShardLeaders Reads) : Prop :=
  ∃ l h, s.outside.heard = s₀.outside.heard ++ (l ++ [h]) ∧ (∀ h ∈ l, h.Passing) ∧ ¬ h.Passing ∧
    h.key = key ∧ h.reading = a

variable {s s' : ShardLeaders Reads}

theorem Refusals.silent (h : Refusals s₀ s) (hs : Silent s s') : Refusals s₀ s' := by
  obtain ⟨l, hl, hpass⟩ := h
  exact ⟨l, hs.trans hl, hpass⟩

theorem Told.silent {a : Reading} (h : Told s₀ key a s) (hs : Silent s s') : Told s₀ key a s' := by
  obtain ⟨l, h, hl, hrest⟩ := h
  exact ⟨l, h, Eq.trans hs hl, hrest⟩

/-- The addresses that the nodes, and the resolver, name in a refusal. -/
structure Surroundings.Names (env : Surroundings) (names : Finset Address) : Prop where
  answer (n : ℕ) (code : ErrorCode) (a : Address) (i : Option ℕ) :
    env.reads n = .ok (.failure code (some a) i) → a ∈ names
  raised (n : ℕ) (code : ErrorCode) (a : Address) :
    env.reads n = .error (.scanRefused code (some a)) → a ∈ names
  lock (n : ℕ) (code : ErrorCode) (a : Address) :
    (env.locks n).outcome = .error (.scanRefused code (some a)) → a ∈ names

/-- An end of `_read` that names no other address. -/
def NamesIn (names : Finset Address) : Except Raised (Option Reading) → Prop
  | .ok (some reading) => ∀ a, Answer.leaderAddress reading = some a → a ∈ names
  | .ok none => True
  | .error e => ∀ code a, e = .scanRefused code (some a) → a ∈ names

/-- How `_read` ends: what it names the surroundings have named, and its answer was heard. -/
def ReadEnds (env : Surroundings) (key : Bytes) (s₀ : ShardLeaders Reads)
    (r : Except Raised (Option Reading)) (s : ShardLeaders Reads) : Prop :=
  (∀ names, env.Names names → NamesIn names r) ∧
    Ended (Refusals s₀) (Told s₀ key) (answerOf r) s

/-- A read of the node: one that is passed by is a refusal more, and any other the end of `_read`. -/
theorem clientGet_spec (named : Option ℕ) (settled : Bool) (hs : Refusals s₀ s) :
    (clientGet env key named settled).Spec s fun r s' =>
      (∀ names, env.Names names → NamesIn names (r.map some)) ∧
      match r with
      | .ok a => Refusals s₀ s' ∧ Heard.Passing ⟨key, named, settled, a⟩ ∨
        Told s₀ key a s' ∧ ¬ Heard.Passing ⟨key, named, settled, a⟩
      | .error _ => Refusals s₀ s' := by
  obtain ⟨l, hl, hpass⟩ := hs
  rcases hr : env.reads s.outside.calls with e | reading
  · rw [Spec, clientGet_error hr]
    exact ⟨fun names hn code a he => hn.raised _ code a (he ▸ hr), l, hl, hpass⟩
  · rw [Spec, clientGet_ok hr]
    have hl' : (hear ⟨key, named, settled, reading⟩ (ticked s)).outside.heard =
        s₀.outside.heard ++ (l ++ [⟨key, named, settled, reading⟩]) := by
      rw [← append_assoc, ← hl]
      rfl
    refine ⟨fun names hn a ha => ?_, ?_⟩
    · rcases reading with ⟨value, i⟩ | ⟨code, leader, i⟩
      · cases ha
      · cases ha
        exact hn.answer _ code a i hr
    · by_cases hp : Heard.Passing ⟨key, named, settled, reading⟩
      · refine .inl ⟨⟨_, hl', fun h hmem => ?_⟩, hp⟩
        rcases mem_append.1 hmem with hmem | hmem
        · exact hpass h hmem
        · rw [mem_singleton.1 hmem]
          exact hp
      · exact .inr ⟨⟨l, _, hl', hpass, hp, rfl, rfl⟩, hp⟩

/-- What `_read` hands on is no lock that was not waited for. -/
theorem ended_of_heard {a : Reading}
    (h : Refusals s₀ s ∧ Heard.Passing ⟨key, named, settled, a⟩ ∨
      Told s₀ key a s ∧ ¬ Heard.Passing ⟨key, named, settled, a⟩)
    (hlocked : a.errorCode = some .errLocked → settled = true) :
    Ended (Refusals s₀) (Told s₀ key) (some a) s := by
  by_cases hcode : a.errorCode = some .errNotLeader
  · exact (ended_refusal hcode).2 (h.elim And.left fun h => absurd (.inl hcode) h.2)
  · refine (ended_answer hcode).2 (h.elim (fun h => ?_) And.left)
    rcases h.2 with hp | ⟨hp, hsettled⟩
    · exact absurd hp hcode
    · exact absurd ((hlocked hp).symm.trans hsettled) nofun

/-- One read of one node. -/
theorem read_spec (named : Option ℕ) (c : NodeClient) (hs : Refusals s₀ s) :
    (SmartClient.read env client key named c).Spec s (ReadEnds env key s₀) := by
  refine (clientGet_spec named false hs).bind (fun reading s₁ h => ?_) fun e s₁ h => h
  by_cases hlocked : reading.errorCode = some .errLocked
  · rw [if_pos hlocked]
    have hs₁ : Refusals s₀ s₁ := h.2.elim And.left fun h => absurd (.inr ⟨hlocked, rfl⟩) h.2
    have hs₂ : Refusals s₀ (awaitLock env s₁).2 := hs₁.silent (outer_silent.within_awaitLock s₁)
    rw [awaitLock_eq] at hs₂
    rcases hl : (env.locks s₁.outside.calls).outcome with e | gone
    · rw [spec_bind, Spec, awaitLock_eq, hl]
      exact ⟨fun names hn code a he => hn.lock _ code a (he ▸ hl), hs₂⟩
    rw [spec_bind_ok (show awaitLock env s₁ = (.ok gone, _) by rw [awaitLock_eq, hl])]
    rcases gone with _ | _
    · refine ⟨fun names hn code a he => ?_, hs₂⟩
      cases he
    · exact (clientGet_spec none true hs₂).bind
        (fun a s₃ h => ⟨h.1, ended_of_heard h.2 fun _ => rfl⟩) fun e s₃ h => h
  · rw [if_neg hlocked]
    exact ⟨h.1, ended_of_heard h.2 fun hcode => absurd hcode hlocked⟩

/-- The end of a `get`: what is returned is the value of the one answer, heard last; without one,
nothing is. -/
def GetEnds (s₀ : ShardLeaders Reads) (key : Bytes) (r : Except Raised (Option (Option Bytes)))
    (s : ShardLeaders Reads) : Prop :=
  match r with
  | .ok (some v) => ∃ a, Told s₀ key a s ∧ a.value = v
  | _ => Refusals s₀ s

/-- What `_do_get` makes of the answer. -/
theorem conclude_spec (named : Option ℕ) {result : Option Reading}
    (h : Ended (Refusals s₀) (Told s₀ key) result s) :
    (conclude env shard named result).Spec s fun r => GetEnds s₀ key (r.map some) := by
  have hsilent : Within Silent (conclude env shard named result) :=
    outer_silent.within_conclude named result
  rcases result with _ | a
  · exact h
  by_cases hcode : a.errorCode = some .errNotLeader
  · rw [conclude, if_pos hcode]
    exact (ended_refusal hcode).1 h
  have htold := ((ended_answer hcode).1 h).silent (hsilent s)
  rw [conclude, if_neg hcode] at htold ⊢
  rcases named with _ | n
  · rcases hi : a.readIndex with _ | readIndex
    · rw [hi] at htold
      exact ⟨a, htold, rfl⟩
    · rw [hi] at htold
      exact ⟨a, htold, rfl⟩
  · exact ⟨a, htold, rfl⟩

/-- One attempt. -/
theorem doGet_spec (fuel : ℕ) (consistency : Consistency) (hs : Refusals s₀ s) :
    (doGet env client key fuel consistency).Spec s (GetEnds s₀ key) := by
  have hmoves := moves_silent client.toSetup
  refine (Spec.of_within (hmoves.passes.shardForKey client.toSetup key) s).bind
    (fun shard s₁ h₁ => ?_) fun e s₁ h₁ => hs.silent h₁
  have hs₁ := hs.silent h₁
  rcases shard with _ | shard
  · exact hs₁
  refine (Spec.of_within (outer_silent.within_indexToName consistency) s₁).bind (fun named s₂ h₂ => ?_)
    fun e s₂ h₂ => hs₁.silent h₂
  have hs₂ := hs₁.silent h₂
  refine (Spec.of_within (Outer.within_memberToAsk hmoves shard consistency) s₂).bind
    (fun first s₃ h₃ => ?_) fun e s₃ h₃ => hs₂.silent h₃
  have hwalk : (askShard client.toSetup shard fuel (SmartClient.read env client key named) 2
      first).Spec s₃ fun r => Ended (Refusals s₀) (Told s₀ key) (r.toOption.join).join :=
    walk_ended hmoves (fun _ _ h hs => hs.silent h) (fun _ _ _ h ha => ha.silent h)
      (fun c s hs => (read_spec named c hs).mono fun _ _ h => h.2) fuel first 1 (hs₂.silent h₃)
      fun a ha => by cases ha
  refine hwalk.bind (fun result s₄ h₄ => ?_) fun e s₄ h₄ => h₄
  rcases result with _ | result
  · exact h₄
  · exact (conclude_spec named h₄).bind (fun v s₅ h₅ => h₅) fun e s₅ h₅ => h₅

/-- By induction on the attempts: one that raises has heard refusals only. -/
theorem retry_spec {func : Method Reads (Option (Option Bytes))}
    (h : ∀ s, Refusals s₀ s → func.Spec s (GetEnds s₀ key)) (attempts : ℕ) (lastError : Raised)
    (hs : Refusals s₀ s) :
    (retryWithBackoff func attempts lastError).Spec s (GetEnds s₀ key) := by
  induction attempts generalizing s lastError with
  | zero => exact hs
  | succ attempts ih =>
    have hspec := h s hs
    rcases hf : func s with ⟨e | b, s₁⟩
    · rw [Spec, hf] at hspec
      rw [retryWithBackoff, spec_bind_ok (show func.attempt s = (.ok (.error e), s₁) by
        rw [attempt, hf])]
      exact ih e hspec
    · rw [Spec, hf] at hspec
      rw [retryWithBackoff, spec_bind_ok (show func.attempt s = (.ok (.ok b), s₁) by
        rw [attempt, hf])]
      exact hspec

theorem get_spec (fuel : ℕ) (consistency : Consistency) :
    (SmartClient.get env client key fuel consistency).Spec s (GetEnds s key) := by
  have hnone : Refusals s s := ⟨[], (append_nil _).symm, nofun⟩
  have hdo : ∀ s', Refusals s s' →
      (doGet env client key fuel consistency).Spec s' (GetEnds s key) :=
    fun s' hs => doGet_spec fuel consistency hs
  have hretry := retry_spec hdo 3 (.other "") hnone
  rcases consistency with _ | _ | _ | word
  · exact hretry
  · exact hretry
  · exact hretry
  · exact hnone

/-! ## The end of a read -/

section Well

variable {X : Type} {cfg : Setup} {s s' : ShardLeaders X} {names : Finset Address}

/-- What a client holds, about any shard, is of the known addresses and can be opened. -/
def Well (cfg : Setup) (names : Finset Address) (s : ShardLeaders X) : Prop :=
  ∀ shard, Known shard names s ∧ Opens cfg shard s

theorem Well.congr (h : Well cfg names s) (ht : s'.table = s.table) (hm : s'.moments = s.moments)
    (hh : s'.hints = s.hints) (hq : s'.queued = s.queued) : Well cfg names s' := fun shard =>
  ⟨(h shard).1.congr ht hm, fun a ha => (h shard).2.hint a (hh ▸ ha),
    fun a ha => (h shard).2.queue a (hq ▸ ha)⟩

theorem Well.rearranged (h : Well cfg names s) (hr : Rearranged cfg s s') : Well cfg names s' :=
  fun shard => ⟨(h shard).1.congr hr.table hr.moments,
    fun a ha => (hr.hint shard a ha).elim ((h shard).2.hint a) id,
    fun a ha => (hr.queue shard a ha).elim ((h shard).2.queue a) id⟩

/-- Another table is held. -/
theorem Well.hold (h : Well cfg names s) {k : ℕ} {t : Metadata.RoutingTable}
    (hk : (s.moments k).table = .ok t) : Well cfg names { s with table := some t } := fun shard => by
  refine ⟨⟨fun t' ht => ?_, (h shard).1.coming⟩, (h shard).2.hint, (h shard).2.queue⟩
  cases ht
  exact (h shard).1.coming k t hk

/-- A step after which the client still is. -/
def KeepsWell (cfg : Setup) (names : Finset Address) (s s' : ShardLeaders X) : Prop :=
  Well cfg names s → Well cfg names s'

instance : IsPreorder (ShardLeaders X) (KeepsWell cfg names) where
  refl _ := id
  trans _ _ _ h h' hs := h' (h hs)

theorem moves_keepsWell : Moves cfg (KeepsWell cfg names : ShardLeaders X → ShardLeaders X → Prop) where
  next _ h := h.congr rfl rfl rfl rfl
  visit _ _ _ h := h.congr rfl rfl rfl rfl
  hold _ _ _ hk h := h.hold hk
  ask _ _ h := h.congr rfl rfl rfl rfl
  rearrange _ _ hr h := h.rearranged hr

theorem outer_keepsWell : Outer (KeepsWell cfg names) where
  tick _ h := h.congr rfl rfl rfl rfl
  hold _ _ _ hk h := h.hold hk
  keep _ _ h := h.congr rfl rfl rfl rfl

end Well

theorem outer_aside : Outer Aside where
  tick _ := ⟨⟨rfl, rfl, rfl, rfl, .inl rfl, .of_eq rfl⟩, rfl⟩
  hold _ k t hk := ⟨⟨rfl, rfl, rfl, rfl, .inr ⟨k, t, hk, rfl⟩, .of_eq rfl⟩, rfl⟩
  keep _ _ := ⟨⟨rfl, rfl, rfl, rfl, .inl rfl, .of_eq rfl⟩, rfl⟩

theorem hear_aside (heard : Heard) (s : ShardLeaders Reads) : Aside s (hear heard s) :=
  ⟨⟨rfl, rfl, rfl, rfl, .inl rfl, .of_eq rfl⟩, rfl⟩

variable {names : Finset Address}

/-- The nodes that a reading names are among `names`. -/
theorem hintsIn_read (hnames : env.Names names) (named : Option ℕ) :
    HintsIn names (SmartClient.read env client key named) := by
  intro c s answer raised a hv
  have hr : NamesIn names (SmartClient.read env client key named c s).1 :=
    (read_spec named c ⟨[], (append_nil _).symm, nofun⟩).1 names hnames
  rcases hres : (SmartClient.read env client key named c s).1 with (⟨code, hint⟩ | msg | msg) | _ | b
  · rw [hres, verdict] at hv
    rw [hres] at hr
    split at hv
    · cases hv
      exact hr code a rfl
    · cases hv
  · rw [hres] at hv
    cases hv
  · rw [hres] at hv
    cases hv
  · rw [hres] at hv
    cases hv
  · rw [hres, verdict] at hv
    rw [hres] at hr
    split at hv
    · exact hr a (by injection hv)
    · cases hv

/-- An attempt ends, -/
theorem settles_doGet (hnames : env.Names names) (hs : Well client.toSetup names s)
    (consistency : Consistency) :
    Settles (fun fuel => doGet env client key fuel consistency) s := by
  refine Settles.after fun shard s₁ h₁ => ?_
  have hw₁ := moves_keepsWell.passes.shardForKey client.toSetup key s hs
  rw [h₁] at hw₁
  rcases shard with _ | shard
  · exact .of_run 0 (fun _ _ => rfl) nofun
  refine Settles.after fun named s₂ h₂ => ?_
  have hindex : Within (KeepsWell client.toSetup names)
      (indexToName env client shard consistency) :=
    outer_keepsWell.within_indexToName consistency
  have hw₂ := hindex s₁ hw₁
  rw [h₂] at hw₂
  refine Settles.after fun first s₃ h₃ => ?_
  have hw₃ := Outer.within_memberToAsk moves_keepsWell shard consistency s₂ hw₂
  rw [h₃] at hw₃
  refine (settles_askShard (outer_aside.within_read hear_aside named) (hintsIn_read hnames named)
    (hw₃ shard).1 (hw₃ shard).2 2 first).andThen fun result s' => ?_
  show ((conclude env shard named result >>= fun v => pure (some v)) s').1 ≠ _
  rcases hc : conclude env shard named result s' with ⟨e | v, s''⟩
  · rw [Program.bind_error hc]
    exact nofun
  · rw [Program.bind_ok hc]
    exact nofun

/-- and so do all of them. -/
theorem settles_retry {cfg : Setup} {B : Type} {func : ℕ → Method Reads (Option B)}
    (hkeeps : ∀ fuel, Within (KeepsWell cfg names) (func fuel))
    (h : ∀ s, Well cfg names s → Settles func s) (attempts : ℕ) (lastError : Raised)
    (hs : Well cfg names s) :
    Settles (fun fuel => retryWithBackoff (func fuel) attempts lastError) s := by
  induction attempts generalizing s lastError with
  | zero => exact .of_run 0 (fun _ _ => rfl) nofun
  | succ attempts ih =>
    obtain ⟨fuel, hne, hsame⟩ := h s hs
    have hw := hkeeps fuel s hs
    rcases hf : func fuel s with ⟨r, s₁⟩
    rw [hf] at hw hne
    have hattempt : ∀ fuel', fuel ≤ fuel' → (func fuel').attempt s = (.ok r, s₁) :=
      fun fuel' hle => by rw [attempt, hsame fuel' hle, hf]
    rcases r with e | b
    · exact .of_eq fuel (fun fuel' hle => Program.bind_ok (hattempt fuel' hle)) (ih e hw)
    · exact .of_run fuel (fun fuel' hle => Program.bind_ok (hattempt fuel' hle)) hne

/-- Answers that tell a client whether a key is there: a node answers, or refuses because it does not
lead, or, before a lock was waited for, because of that lock. -/
def Plain (l : List Heard) : Prop := ∀ h ∈ l, (∃ v i, h.reading = .success v i) ∨ h.Passing

/-- What `get` returns, a node has answered a read of the key with, exactly if every answer was plain:
then `None` is returned only if a node has answered with no value, and a read that no node has answered
raises.  And `get` comes to an end. -/
theorem none_means_absent (env : Surroundings) (client : ClientSetup) (key : Bytes)
    (consistency : Consistency) (s : ShardLeaders Reads) :
    (∀ names, env.Names names → Well client.toSetup names s →
      Settles (fun fuel => SmartClient.get env client key fuel consistency) s) ∧
    ∀ fuel, ∃ l, (SmartClient.get env client key fuel consistency s).2.outside.heard =
      s.outside.heard ++ l ∧ (Plain l ↔
        ∀ v, (SmartClient.get env client key fuel consistency s).1 = .ok (some v) →
          ∃ h ∈ l, h.key = key ∧ ∃ i, h.reading = .success v i) := by
  refine ⟨fun names hnames hs => ?_, fun fuel => ?_⟩
  · refine Settles.after fun _ s₁ h₁ => settles_retry (fun fuel => outer_keepsWell.within_doGet
      (fun _ _ h => h.congr rfl rfl rfl rfl) moves_keepsWell fuel consistency)
      (fun s hs => settles_doGet hnames hs consistency) 3 _ ?_
    rcases consistency with _ | _ | _ | word <;> cases h₁ <;> exact hs
  · have hends : (SmartClient.get env client key fuel consistency).Spec s (GetEnds s key) :=
      get_spec fuel consistency
    rw [Spec] at hends
    generalize SmartClient.get env client key fuel consistency s = last at hends ⊢
    rcases last with ⟨e | _ | v, s'⟩
    · obtain ⟨l, hl, hpass⟩ := hends
      exact ⟨l, hl, iff_of_true (fun h hmem => .inr (hpass h hmem)) fun v hv => by cases hv⟩
    · obtain ⟨l, hl, hpass⟩ := hends
      exact ⟨l, hl, iff_of_true (fun h hmem => .inr (hpass h hmem)) fun v hv => by cases hv⟩
    · obtain ⟨a, ⟨l, h, hl, hpass, hlast, hkey, rfl⟩, rfl⟩ := hends
      refine ⟨l ++ [h], hl, fun hplain v hv => ?_, fun hread => ?_⟩
      · cases hv
        have hmem : h ∈ l ++ [h] := mem_append_right _ (mem_singleton_self h)
        rcases hplain h hmem with ⟨v, i, hs⟩ | hs
        · exact ⟨h, hmem, hkey, i, by rw [hs]; rfl⟩
        · exact absurd hs hlast
      · -- the one answer is the last, so it is the one with the value
        obtain ⟨h', hmem, -, i, hs⟩ := hread _ rfl
        rcases mem_append.1 hmem with hmem | hmem
        · exact absurd (hpass h' hmem) (by simp [Heard.Passing, hs, Reading.errorCode])
        · rw [mem_singleton.1 hmem] at hs
          intro h'' hmem
          rcases mem_append.1 hmem with hmem | hmem
          · exact .inr (hpass h'' hmem)
          · rw [mem_singleton.1 hmem]
            exact .inl ⟨_, i, hs⟩

/-! ## A read that timed out -/

/-- One node, which answers the reads in turn. -/
def oneNode : Metadata.RoutingTable where
  version := 1
  shards := .ofList [(0, {
    shardId := 0, start := [], stop := [255], nodes := [1], addresses := .ofList [(1, "a")]
    leaderId := some 1 })]

def reader : ClientSetup := { remote with ttl := 100, repr := fun _ => "k" }

/-- The node's answers by the number of the call; where a lock is waited for, there is none. -/
def answering (answers : List (Option Reading)) : Surroundings where
  reads := fun n => (answers[n]?.join).elim (.error (.nodeUnreachable "a")) .ok
  locks := fun _ => { outcome := .ok true }
  clock := fun n => n

def atNode : ShardLeaders Reads where
  table := some oneNode
  moments := fun _ => {
    table := .ok oneNode
    getClient := fun _ _ address => address.map fun a => ⟨some a⟩ }
  outside := {}

/-- No node has answered, and `get` returns `None`: the read timed out, or a second lock was met. -/
theorem timeout_reads_as_absent :
    (SmartClient.get (answering [some (.failure .errTimeout none none)]) reader [7] 5 .strong
      atNode).1 = .ok (some none) ∧
    (SmartClient.get (answering [some (.failure .errTimeout none none)]) reader [7] 5 .strong
      atNode).2.outside.heard = [⟨[7], none, false, .failure .errTimeout none none⟩] ∧
    (SmartClient.get (answering [some (.failure .errLocked none (some 4)), none,
      some (.failure .errLocked none (some 5))]) reader [7] 5 .strong atNode).1 = .ok (some none) ∧
    (SmartClient.get (answering [some (.failure .errLocked none (some 4)), none,
      some (.failure .errLocked none (some 5))]) reader [7] 5 .strong atNode).2.outside.heard =
        [⟨[7], none, false, .failure .errLocked none (some 4)⟩,
          ⟨[7], none, true, .failure .errLocked none (some 5)⟩] := by
  decide +kernel

/-- A node that meets a lock, and has no value for the key once it was waited for. -/
def unlocking : Surroundings :=
  answering [some (.failure .errLocked none (some 4)), none, some (.success none (some 5))]

theorem none_means_absent_unlocked :
    Settles (fun fuel => SmartClient.get unlocking reader [7] fuel .follower) atNode ∧
    (SmartClient.get unlocking reader [7] 5 .follower atNode).1 = .ok (some none) ∧
    ∃ l, (SmartClient.get unlocking reader [7] 5 .follower atNode).2.outside.heard = l ∧
      Plain l ∧ ∃ h ∈ l, h.key = [7] ∧ ∃ i, h.reading = .success none i := by
  obtain ⟨hends, hreads⟩ := none_means_absent unlocking reader [7] .follower atNode
  have hreturns : (SmartClient.get unlocking reader [7] 5 .follower atNode).1 = .ok (some none) := by
    decide +kernel
  have hheard : (SmartClient.get unlocking reader [7] 5 .follower atNode).2.outside.heard =
      [⟨[7], none, false, .failure .errLocked none (some 4)⟩,
        ⟨[7], none, true, .success none (some 5)⟩] := by decide +kernel
  have hplain : Plain [⟨[7], none, false, .failure .errLocked none (some 4)⟩,
      ⟨[7], none, true, .success none (some 5)⟩] := by
    intro h hmem
    rcases mem_cons.1 hmem with rfl | hmem
    · exact .inr (.inr ⟨rfl, rfl⟩)
    · rw [mem_singleton.1 hmem]
      exact .inl ⟨none, some 5, rfl⟩
  have hlists : ∀ shard, Lists shard {"a"} oneNode := by
    intro shard p hp
    have hentries : oneNode.shards.entries = [(0, {
        shardId := 0, start := [], stop := [255], nodes := [1], addresses := .ofList [(1, "a")]
        leaderId := some 1 })] := by decide +kernel
    have hmem := Dict.get?_eq_some.1 hp
    rw [hentries, mem_singleton, Prod.mk.injEq] at hmem
    rw [hmem.2]
    decide +kernel
  refine ⟨hends {"a"} ⟨fun n code a i h => ?_, fun n code a h => ?_, fun n code a h => ?_⟩ fun shard =>
    ⟨⟨fun t ht => ?_, fun k t ht => ?_⟩, fun a ha => ?_, fun a ha => ?_⟩, hreturns, _, hheard, hplain, ?_⟩
  · rcases n with _ | _ | _ | n <;> cases h
  · rcases n with _ | _ | _ | n <;> cases h
  · cases h
  · cases ht
    exact hlists shard
  · cases ht
    exact hlists shard
  · cases ha
  · cases ha
  · obtain ⟨l, hl, hl'⟩ := hreads 5
    have hl₀ : l = [⟨[7], none, false, .failure .errLocked none (some 4)⟩,
      ⟨[7], none, true, .success none (some 5)⟩] := hl.symm.trans hheard
    rw [hl₀] at hl'
    exact hl'.1 hplain none hreturns

end OxideDB.Routing
