import OxideDB.Metadata.Routing
import OxideDB.Transition

/-!
# A move that is given up

The last step of a move is its proposal to the routing table, `_propose_move` of
`raft/recovery_runner.py`: up to three times the table is read for the set the shard is leaving,
and the move is proposed, by a client in the process, which asks up to three leaders, or by one
that walks the addresses of the metadata group.  An answer that is neither a success nor
`ERR_NOT_LEADER` is taken for a refusal, and the move is given up: the source takes rows again
and the target's group is closed.

A proposal that a node appends may be applied long after its proposer was told that nothing
came of it.  The run has the call's own steps, the entries it left open, applied at any time,
and the commands of everybody else.
-/

namespace OxideDB.Shard

open Raft (ErrorCode)
open Metadata Option MetadataStateMachine Dict
open Transition (run Along)

variable {args : MoveShard} {attempt : ℕ}

/-! ## How a proposal is answered -/

/-- The five things a client may act on. -/
inductive WireCode where
  | ok
  | notLeader
  | locked
  | timeout
  | refused
  deriving DecidableEq

/-- `is_not_leader`. -/
def isNotLeader (code : ℕ) : Bool :=
  code = ErrorCode.errNotLeader.toNat || code = ErrorCode.errLeadershipLost.toNat

/-- `_wire_code`, of `raft/client_servicer.py`. -/
def wireCode (code : ℕ) : WireCode :=
  if code = ErrorCode.success.toNat then .ok
  else if isNotLeader code then .notLeader
  else if code = ErrorCode.errLocked.toNat then .locked
  else if code = ErrorCode.errTimeout.toNat then .timeout
  else .refused

/-- `local_code`, of `groups.py`. -/
def localCode : WireCode → ErrorCode
  | .notLeader => .errNotLeader
  | .locked => .errLocked
  | .timeout => .errTimeout
  | _ => .errApplyError

/-- How a proposal to one node ends. -/
inductive Ending where
  /-- Nobody led, or the node did not: nothing was appended. -/
  | notLeader
  /-- The entry was applied, and the machine's answer came back. -/
  | answered
  /-- The entry was applied, and the answer of the machine was gone: a success without one. -/
  | unread
  /-- Another entry was committed at its index. -/
  | overwritten
  /-- `ERR_LEADERSHIP_LOST`: the entry is in some log. -/
  | leadershipLost
  /-- `ERR_TIMEOUT`: the entry is in some log. -/
  | timeout
  /-- No answer over the wire: the entry may be in some log. -/
  | unanswered
  deriving DecidableEq

variable {ending : Ending}

/-- What the proposer hears: no code for a success, and nothing at all without an answer. -/
def Ending.heard (machine : Result) : Ending → Option (Option ℕ)
  | .notLeader => some (some ErrorCode.errNotLeader.toNat)
  | .answered =>
    match machine with
    | .success => some none
    | .failure code _ => some (some code)
  | .unread => some none
  | .overwritten => some (some ErrorCode.errEntryOverwritten.toNat)
  | .leadershipLost => some (some ErrorCode.errLeadershipLost.toNat)
  | .timeout => some (some ErrorCode.errTimeout.toNat)
  | .unanswered => none

/-! ## The call -/

/-- `PROPOSE_ATTEMPTS`. -/
def proposeAttempts : ℕ := 3

/-- Where a client's call is: how often it has asked, or the refusal it would answer with. -/
inductive Client where
  | inProcess (tries : ℕ)
  | remote (answered : Option WireCode)
  deriving DecidableEq

/-- `ProposalOutcome`. -/
inductive ProposalOutcome where
  | ok
  | rejected
  | unreachable
  deriving DecidableEq

/-- Where `_propose_move` is. -/
inductive Phase where
  | reading (attempt : ℕ)
  | asking (attempt : ℕ) (fromNodes : List ℤ) (client : Client)
  | ended (outcome : ProposalOutcome)
  deriving DecidableEq

/-- The move: the shard, the set it goes to with its addresses, and which client proposes. -/
structure Move where
  shardId : ℤ
  targetNodes : List ℤ
  addresses : Dict ℤ String
  remote : Bool

/-- A call of the client that has not asked yet. -/
def Move.client (move : Move) : Client :=
  if move.remote then .remote none else .inProcess 0

/-- The call, the side that makes it, and the metadata group. -/
structure MoveCall where
  phase : Phase
  sourceFrozen : Bool := true
  sourceServed : Bool := true
  targetServed : Bool := true
  noted : Bool := true
  migrating : Bool := true
  table : MetadataStateMachine
  /-- Entries of this call that have not been applied and may still be. -/
  undecided : List MoveShard := []
  /-- A proposal of this call has been applied. -/
  landed : Bool := false

inductive MoveEvent (V : Type) where
  /-- `serving_nodes` raises. -/
  | readRaises
  | read
  /-- The client asks one more node. -/
  | ask (ending : Ending)
  /-- The walk of a remote client has no address left. -/
  | walkEnds
  /-- An entry of this call is applied after all. -/
  | land (i : ℕ)
  /-- A command of somebody else is applied. -/
  | other (payload : Payload V)

namespace MoveCall

section Step

variable {V : Type} (py : Python V) (move : Move)

/-- The call as `finish_move` begins to propose. -/
def start (table : MetadataStateMachine) : MoveCall := { phase := .reading 0, table }

/-- What `finish_move` does with the outcome: `_abort_move`, nothing, or `_commit_move`. -/
def finish (s : MoveCall) (outcome : ProposalOutcome) : MoveCall :=
  match outcome with
  | .rejected => { s with phase := .ended .rejected, migrating := false, noted := false
                          sourceFrozen := false, targetServed := false }
  | .unreachable => { s with phase := .ended .unreachable }
  | .ok => { s with phase := .ended .ok, migrating := false, noted := false, sourceServed := false }

/-- The next round of the loop of `_propose_move`. -/
def again (s : MoveCall) (attempt : ℕ) : MoveCall :=
  if attempt + 1 < proposeAttempts then { s with phase := .reading (attempt + 1) }
  else s.finish .unreachable

/-- What `_propose_move` makes of the client's answer; no code is a success. -/
def returned (s : MoveCall) (attempt : ℕ) : Option ℕ → MoveCall
  | none => s.finish .ok
  | some code => if code ≠ ErrorCode.errNotLeader.toNat then s.finish .rejected else s.again attempt

/-- What the client makes of what one node answered. -/
def heard (s : MoveCall) (attempt : ℕ) (fromNodes : List ℤ) :
    Client → Option (Option ℕ) → Option MoveCall
  -- `MetadataClient._propose`, which always has an answer
  | .inProcess _, none => none
  | .inProcess _, some none => some (s.returned attempt none)
  | .inProcess tries, some (some code) =>
    if isNotLeader code then
      if tries + 1 < proposeAttempts then
        some { s with phase := .asking attempt fromNodes (.inProcess (tries + 1)) }
      else some (s.returned attempt (some ErrorCode.errNotLeader.toNat))
    else some (s.returned attempt (some code))
  -- `_GroupClient._ask`
  | .remote _, none => some s
  | .remote _, some none => some (s.returned attempt none)
  | .remote answered, some (some code) =>
    if wireCode code = .ok then some (s.returned attempt none)
    else if answered = none ∨ answered = some .notLeader then
      some { s with phase := .asking attempt fromNodes (.remote (some (wireCode code))) }
    else some s

/-- What a proposal does in the metadata group.  An entry of the call that has not been applied
when a later one has been is in no log that can still be committed: terms do not go down along a
log, and the later entry is of a later term. -/
def proposed (s : MoveCall) (args : MoveShard) : Ending → MoveCall
  | .notLeader | .overwritten => s
  | .answered | .unread =>
    let (table, result) := s.table.applyMoveShard py args
    { s with table, undecided := [], landed := s.landed || result = .success }
  | .leadershipLost | .timeout | .unanswered => { s with undecided := args :: s.undecided }

def ask (s : MoveCall) (ending : Ending) : Option MoveCall :=
  match s.phase with
  | .asking attempt fromNodes client =>
    let args : MoveShard := { shardId := move.shardId, fromNodes, nodes := move.targetNodes
                              addresses := move.addresses }
    (s.proposed py args ending).heard attempt fromNodes client
      (ending.heard (s.table.applyMoveShard py args).2)
  | _ => none

/-- The table is read for the set the shard is leaving. -/
def read (s : MoveCall) : Option MoveCall :=
  match s.phase, s.table.shards.get? move.shardId with
  | .reading _, none => some (s.finish .rejected)
  | .reading attempt, some placement =>
    some { s with phase := .asking attempt placement.nodes move.client }
  | _, _ => none

def step (s : MoveCall) : MoveEvent V → Option MoveCall
  | .readRaises =>
    match s.phase with
    | .reading attempt => some (s.again attempt)
    | _ => none
  | .read => s.read move
  | .ask ending => s.ask py move ending
  | .walkEnds =>
    match s.phase with
    | .asking attempt _ (.remote answered) =>
      some (s.returned attempt (some (localCode (answered.getD .notLeader)).toNat))
    | _ => none
  | .land i =>
    (s.undecided[i]?).map fun args =>
      let (table, result) := s.table.applyMoveShard py args
      { s with table, undecided := s.undecided.eraseIdx i
               landed := s.landed || result = .success }
  | .other payload => some { s with table := (s.table.apply py payload).1 }

end Step
end MoveCall

/-! ## What the machine answers -/

section Machine

variable {V : Type} {py : Python V} {m : MetadataStateMachine} {args : MoveShard}

/-- The table has the shard on the nodes, at the addresses, and they are fit to serve one. -/
structure Serves (m : MetadataStateMachine) (shardId : ℤ) (nodes : List ℤ)
    (addresses : Dict ℤ String) : Prop where
  fit : ¬ (nodes = [] ∨ ¬ nodes.Nodup ∨
    nodes.any (fun nodeId => addresses.get? nodeId = none) = true)
  there : ∃ placement, m.shards.get? shardId = some placement ∧ placement.nodes = nodes ∧
    placement.addresses.sameAs addresses = true

theorem serves_of_success (h : (m.applyMoveShard py args).2 = .success) :
    Serves (m.applyMoveShard py args).1 args.shardId args.nodes args.addresses := by
  unfold applyMoveShard at h ⊢
  dsimp only at h ⊢
  split at h
  · cases h
  next placement hget =>
  split at h
  · cases h
  next hfit =>
  rw [if_neg hfit]
  split at h
  · next hnodes =>
    rw [if_pos hnodes]
    split at h
    · next hsame =>
      rw [if_pos hsame]
      exact ⟨hfit, placement, hget, hnodes, hsame⟩
    · cases h
  next hnodes =>
  rw [if_neg hnodes]
  split at h
  · cases h
  next hfrom =>
  rw [if_neg hfrom]
  split at h
  · cases h
  next hoverlap =>
  rw [if_neg hoverlap]
  exact ⟨hfit, _, get?_set_self _ _ _, rfl, sameAs_iff.2 fun _ => rfl⟩

theorem applyMoveShard_of_refused (h : (m.applyMoveShard py args).2 ≠ .success) :
    (m.applyMoveShard py args).1 = m :=
  (applyMoveShard_change py m (.error "") rfl args).refused_eq h

/-- **A move that landed is recognised**, whoever the proposer thinks the shard is leaving. -/
theorem applyMoveShard_again (h : Serves m args.shardId args.nodes args.addresses) :
    m.applyMoveShard py args = (m, .success) := by
  obtain ⟨placement, hget, hnodes, hsame⟩ := h.there
  unfold applyMoveShard
  dsimp only
  rw [hget]
  dsimp only
  rw [if_neg h.fit, if_pos hnodes, if_pos hsame]

/-- No command takes a shard out of the table. -/
theorem isSome_apply {payload : Payload V} {k : ℤ} (h : (m.shards.get? k).isSome) :
    ((m.apply py payload).1.shards.get? k).isSome := by
  have hchange : MetadataStateMachine.Change py m payload (m.apply py payload).1
      (m.apply py payload).2 := apply_change rfl
  generalize m.apply py payload = applied at hchange ⊢
  obtain ⟨m', r⟩ := applied
  cases hchange with
  | refused code msg => exact h
  | again hcmd => exact h
  | splitAgain args hargs left hleft hstop => exact h
  | initialised hempty =>
    rw [entries_eq_nil.1 hempty k] at h
    cases h
  | placed hcmd shardId placement placement' hget hid hstart hstop =>
    show ((m.shards.set shardId placement').get? k).isSome = true
    rw [get?_set]
    split
    · rfl
    · exact h
  | cut args hargs hnew placement hget hstart hstop =>
    rw [get?_set, get?_set]
    split
    · rfl
    split
    · rfl
    · exact h

end Machine

/-! ## Every run -/

namespace Phase

def running : Phase → Bool
  | .ended _ => false
  | _ => true

/-- The walk has met a refusal, and will answer with it unless a node takes the command. -/
def refused : Phase → Bool
  | .asking _ _ (.remote (some code)) => code ≠ .notLeader
  | _ => false

/-- The call is given up, or about to be. -/
def Refusing (phase : Phase) : Prop := phase.refused = true ∨ phase = .ended .rejected

end Phase

namespace MoveCall

section Runs

variable {V : Type} {py : Python V} {move : Move} {s s' : MoveCall}

/-- What holds between the call and the table. -/
structure Sound (move : Move) (s : MoveCall) : Prop where
  own {args : MoveShard} (h : args ∈ s.undecided) : args.shardId = move.shardId ∧
    args.nodes = move.targetNodes ∧ args.addresses = move.addresses
  named (h : s.undecided ≠ [] ∨ s.landed = true ∨ ∃ a f c, s.phase = .asking a f c) :
    (s.table.shards.get? move.shardId).isSome
  serves (h : s.landed = true) (hrunning : s.phase.running = true) :
    Serves s.table move.shardId move.targetNodes move.addresses
  /-- A refusal leaves nothing behind. -/
  clean (h : s.phase.Refusing) : s.undecided = [] ∧ s.landed = false

theorem sound_start (table : MetadataStateMachine) : Sound move (start table) where
  own h := nomatch h
  named h := by
    rcases h with h | h | ⟨_, _, _, h⟩
    · exact absurd rfl h
    · cases h
    · cases h
  serves h := nomatch h
  clean h := ⟨rfl, rfl⟩

/-- Whether a command leaves the shard on its nodes, at their addresses. -/
def Keeps (py : Python V) (move : Move) (m : MetadataStateMachine) (payload : Payload V) : Prop :=
  ((m.apply py payload).1.shards.get? move.shardId).map (fun p => (p.nodes, p.addresses)) =
    (m.shards.get? move.shardId).map fun p => (p.nodes, p.addresses)

instance (m : MetadataStateMachine) (payload : Payload V) : Decidable (Keeps py move m payload) :=
  inferInstanceAs (Decidable (_ = _))

/-- The ways a proposal may end: never in a timeout; overwritten only while nothing else of the
call is undecided or has landed; without an answer only before the walk has met a refusal.  And
once the move has landed nobody else moves the shard until the call has ended. -/
def Clear (py : Python V) (move : Move) (s : MoveCall) : MoveEvent V → Prop
  | .ask ending =>
    match ending with
    | .timeout => False
    | .overwritten => s.undecided = [] ∧ s.landed = false
    | .leadershipLost | .unanswered => s.phase.refused = false
    | _ => True
  | .other payload => s.landed = true → s.phase.running = true → Keeps py move s.table payload
  | _ => True

/-! ### One step -/

/-- The call's side of a step leaves the group as it was. -/
structure SameGroup (s s' : MoveCall) : Prop where
  table : s'.table = s.table
  undecided : s'.undecided = s.undecided
  landed : s'.landed = s.landed

theorem sameGroup_finish (s : MoveCall) (outcome : ProposalOutcome) : SameGroup s (s.finish outcome) := by
  cases outcome <;> exact ⟨rfl, rfl, rfl⟩

theorem phase_finish (s : MoveCall) (outcome : ProposalOutcome) :
    (s.finish outcome).phase = .ended outcome := by
  cases outcome <;> rfl

section

variable (s : MoveCall) (attempt : ℕ)

theorem sameGroup_again : SameGroup s (s.again attempt) := by
  unfold again
  split
  · exact ⟨rfl, rfl, rfl⟩
  · exact sameGroup_finish s _

theorem not_refusing_again : ¬ (s.again attempt).phase.Refusing := by
  unfold again
  split
  · rintro (h | h) <;> cases h
  · rw [phase_finish]
    rintro (h | h) <;> cases h

theorem sameGroup_returned (code : Option ℕ) : SameGroup s (s.returned attempt code) := by
  cases code with
  | none => exact sameGroup_finish s .ok
  | some code =>
    unfold returned
    dsimp only
    split
    · exact sameGroup_finish s _
    · exact sameGroup_again s attempt

end

/-- The call is only refused with a code that is not `ERR_NOT_LEADER`. -/
theorem refusing_returned {code : Option ℕ} (h : (s.returned attempt code).phase.Refusing) :
    ∃ c, code = some c ∧ c ≠ ErrorCode.errNotLeader.toNat := by
  cases code with
  | none =>
    rw [returned, phase_finish] at h
    rcases h with h | h <;> cases h
  | some code =>
    unfold returned at h
    dsimp only at h
    split at h
    · next hcode => exact ⟨code, rfl, hcode⟩
    · exact absurd h (not_refusing_again s attempt)

theorem not_refusing_returned_none (s : MoveCall) (attempt : ℕ) :
    ¬ (s.returned attempt none).phase.Refusing := by
  intro h
  obtain ⟨c, hc, -⟩ := refusing_returned h
  cases hc

theorem isNotLeader_of_wireCode {code : ℕ} (h : wireCode code ≠ .notLeader) (hok : wireCode code ≠ .ok) :
    isNotLeader code = false := by
  rcases hleader : isNotLeader code with _ | _
  · rfl
  rw [wireCode] at h hok
  split at hok
  · exact absurd rfl hok
  · next hne =>
    rw [if_neg hne, if_pos hleader] at h
    exact absurd rfl h

/-- What the client makes of an answer: the group is left alone, and the call is given up, or
about to be, only by a refusal it has met. -/
theorem heard_spec {fromNodes : List ℤ} {client : Client} {answer : Option (Option ℕ)}
    (hphase : s.phase = .asking attempt fromNodes client)
    (h : s.heard attempt fromNodes client answer = some s') : SameGroup s s' ∧
      (s'.phase.Refusing → (∃ code, answer = some (some code) ∧ isNotLeader code = false) ∨
        s.phase.refused = true ∧ answer ≠ some none) := by
  have hstay : answer ≠ some none → s.phase.Refusing →
      (∃ code, answer = some (some code) ∧ isNotLeader code = false) ∨
        s.phase.refused = true ∧ answer ≠ some none := by
    intro hne href
    refine .inr ⟨href.resolve_right ?_, hne⟩
    rw [hphase]
    nofun
  unfold heard at h
  split at h
  · cases h
  · cases h
    exact ⟨sameGroup_returned s attempt none, fun href => absurd href (not_refusing_returned_none s _)⟩
  · next tries code =>
    split at h
    · split at h
      · cases h
        refine ⟨⟨rfl, rfl, rfl⟩, fun href => ?_⟩
        rcases href with href | href <;> cases href
      · cases h
        refine ⟨sameGroup_returned s attempt _, fun href => ?_⟩
        obtain ⟨c, hc, hne⟩ := refusing_returned href
        exact absurd (some.inj hc).symm hne
    · next hcode =>
      cases h
      exact ⟨sameGroup_returned s attempt _,
        fun _ => .inl ⟨code, rfl, Bool.eq_false_iff.2 hcode⟩⟩
  · cases h
    exact ⟨⟨rfl, rfl, rfl⟩, hstay nofun⟩
  · cases h
    exact ⟨sameGroup_returned s attempt none, fun href => absurd href (not_refusing_returned_none s _)⟩
  · next answered code =>
    split at h
    · cases h
      exact ⟨sameGroup_returned s attempt none,
        fun href => absurd href (not_refusing_returned_none s _)⟩
    · next hok =>
      split at h
      · cases h
        refine ⟨⟨rfl, rfl, rfl⟩, fun href => .inl ⟨code, rfl, ?_⟩⟩
        rcases href with href | href
        · exact isNotLeader_of_wireCode (of_decide_eq_true href) hok
        · cases href
      · cases h
        exact ⟨⟨rfl, rfl, rfl⟩, hstay nofun⟩

/-- The call's side of a step keeps what holds, if it does not give the call up too early. -/
theorem Sound.of_sameGroup {s₁ : MoveCall} (hsame : SameGroup s₁ s')
    (hown : ∀ {args}, args ∈ s₁.undecided → args.shardId = move.shardId ∧
      args.nodes = move.targetNodes ∧ args.addresses = move.addresses)
    (hnamed : (s₁.table.shards.get? move.shardId).isSome)
    (hserves : s₁.landed = true → Serves s₁.table move.shardId move.targetNodes move.addresses)
    (hclean : s'.phase.Refusing → s₁.undecided = [] ∧ s₁.landed = false) : Sound move s' where
  own h := hown (hsame.undecided ▸ h)
  named _ := by rw [hsame.table]; exact hnamed
  serves h _ := by rw [hsame.table]; exact hserves (hsame.landed ▸ h)
  clean h := by rw [hsame.undecided, hsame.landed]; exact hclean h

/-- What the group does with a proposal of the call. -/
theorem proposed_spec (py : Python V) (h : Sound move s) (hrunning : s.phase.running = true)
    (hname : (s.table.shards.get? move.shardId).isSome)
    (hargs : args.shardId = move.shardId ∧ args.nodes = move.targetNodes ∧
      args.addresses = move.addresses) (ending : Ending) :
    (∀ {args'}, args' ∈ (s.proposed py args ending).undecided → args'.shardId = move.shardId ∧
      args'.nodes = move.targetNodes ∧ args'.addresses = move.addresses) ∧
    ((s.proposed py args ending).table.shards.get? move.shardId).isSome ∧
    ((s.proposed py args ending).landed = true →
      Serves (s.proposed py args ending).table move.shardId move.targetNodes move.addresses) := by
  have happly : ((s.table.applyMoveShard py args).1.shards.get? move.shardId).isSome ∧
      (s.landed = true ∨ (s.table.applyMoveShard py args).2 = .success →
        Serves (s.table.applyMoveShard py args).1 move.shardId move.targetNodes move.addresses) := by
    by_cases hok : (s.table.applyMoveShard py args).2 = .success
    · have hserves := serves_of_success hok
      rw [hargs.1, hargs.2.1, hargs.2.2] at hserves
      obtain ⟨placement, hget, -⟩ := hserves.there
      exact ⟨by rw [hget]; rfl, fun _ => hserves⟩
    · rw [applyMoveShard_of_refused hok]
      exact ⟨hname, fun hlanded => h.serves (hlanded.resolve_right hok) hrunning⟩
  have hkept : (s.landed = true → Serves s.table move.shardId move.targetNodes move.addresses) :=
    fun hlanded => h.serves hlanded hrunning
  have hcons : ∀ {args'}, args' ∈ args :: s.undecided → args'.shardId = move.shardId ∧
      args'.nodes = move.targetNodes ∧ args'.addresses = move.addresses := by
    intro args' hmem
    rcases List.mem_cons.1 hmem with rfl | hmem
    · exact hargs
    · exact h.own hmem
  have hdone : ∀ {b : Bool}, (s.landed || b) = true → s.landed = true ∨ b = true := fun hb =>
    Bool.or_eq_true_iff.1 hb
  cases ending with
  | notLeader => exact ⟨h.own, hname, hkept⟩
  | overwritten => exact ⟨h.own, hname, hkept⟩
  | answered =>
    exact ⟨nofun, happly.1, fun hlanded => happly.2 ((hdone hlanded).imp_right of_decide_eq_true)⟩
  | unread =>
    exact ⟨nofun, happly.1, fun hlanded => happly.2 ((hdone hlanded).imp_right of_decide_eq_true)⟩
  | leadershipLost => exact ⟨hcons, hname, hkept⟩
  | timeout => exact ⟨hcons, hname, hkept⟩
  | unanswered => exact ⟨hcons, hname, hkept⟩

/-- A refusal the client hears is a refusal of a move that has not landed, and settles what was
undecided. -/
theorem proposed_clean (h : Sound move s) (hrunning : s.phase.running = true)
    (hargs : args.shardId = move.shardId ∧ args.nodes = move.targetNodes ∧
      args.addresses = move.addresses) (hclear : Clear py move s (.ask ending))
    (hheard : (∃ code, ending.heard (s.table.applyMoveShard py args).2 = some (some code) ∧
        isNotLeader code = false) ∨
      s.phase.refused = true ∧ ending.heard (s.table.applyMoveShard py args).2 ≠ some none) :
    (s.proposed py args ending).undecided = [] ∧ (s.proposed py args ending).landed = false := by
  cases ending with
  | notLeader =>
    rcases hheard with ⟨code, hcode, hnot⟩ | ⟨href, -⟩
    · cases some.inj hcode
      cases hnot
    · exact h.clean (.inl href)
  | overwritten => exact hclear
  | answered =>
    refine ⟨rfl, ?_⟩
    have hfail : (s.table.applyMoveShard py args).2 ≠ .success := by
      intro hok
      rw [hok] at hheard
      rcases hheard with ⟨code, hcode, -⟩ | ⟨-, hne⟩
      · cases hcode
      · exact hne rfl
    have hlanded : s.landed = false := by
      by_contra hlanded
      have hserves := h.serves (Bool.not_eq_false _ ▸ hlanded) hrunning
      rw [← hargs.1, ← hargs.2.1, ← hargs.2.2] at hserves
      exact hfail (by rw [applyMoveShard_again hserves])
    show (s.landed || decide _) = false
    rw [hlanded, Bool.false_or]
    exact decide_eq_false hfail
  | unread =>
    rcases hheard with ⟨code, hcode, -⟩ | ⟨-, hne⟩
    · cases hcode
    · exact absurd rfl hne
  | leadershipLost =>
    rcases hheard with ⟨code, hcode, hnot⟩ | ⟨href, -⟩
    · cases some.inj hcode
      cases hnot
    · exact absurd href (Bool.eq_false_iff.1 hclear)
  | timeout => exact hclear.elim
  | unanswered =>
    rcases hheard with ⟨code, hcode, -⟩ | ⟨href, -⟩
    · cases hcode
    · exact absurd href (Bool.eq_false_iff.1 hclear)

theorem Sound.ask (h : Sound move s) (hclear : Clear py move s (.ask ending))
    (hs : s.ask py move ending = some s') : Sound move s' := by
  unfold MoveCall.ask at hs
  split at hs
  swap
  · cases hs
  next attempt fromNodes client hphase =>
  have hrunning : s.phase.running = true := by rw [hphase]; rfl
  have hname := h.named (.inr (.inr ⟨attempt, fromNodes, client, hphase⟩))
  dsimp only at hs
  set args : MoveShard := ⟨move.shardId, fromNodes, move.targetNodes, move.addresses⟩
  have hphase' : (s.proposed py args ending).phase = .asking attempt fromNodes client := by
    cases ending <;> exact hphase
  obtain ⟨hsame, href⟩ := heard_spec hphase' hs
  have hargs : args.shardId = move.shardId ∧ args.nodes = move.targetNodes ∧
      args.addresses = move.addresses := ⟨rfl, rfl, rfl⟩
  obtain ⟨hown, hnamed, hserves⟩ := proposed_spec py h hrunning hname hargs ending
  refine .of_sameGroup hsame hown hnamed hserves fun hgiven => ?_
  refine proposed_clean h hrunning hargs hclear ?_
  rw [hphase, ← hphase']
  exact href hgiven

theorem Sound.land (h : Sound move s) {i : ℕ} (hget : s.undecided[i]? = some args) :
    Sound move { s with
      table := (s.table.applyMoveShard py args).1
      undecided := s.undecided.eraseIdx i
      landed := s.landed || (s.table.applyMoveShard py args).2 = .success } := by
  have hmem : args ∈ s.undecided := List.mem_of_getElem? hget
  have hname := h.named (.inl (List.ne_nil_of_mem hmem))
  obtain ⟨hid, hnodes, haddresses⟩ := h.own hmem
  have hclean : ¬ s.phase.Refusing := fun href => by
    rw [(h.clean href).1] at hmem
    cases hmem
  by_cases hok : (s.table.applyMoveShard py args).2 = .success
  · have hserves := serves_of_success hok
    rw [hid, hnodes, haddresses] at hserves
    obtain ⟨placement, hplacement, -⟩ := hserves.there
    exact { own := fun hmem' => h.own (List.mem_of_mem_eraseIdx hmem')
            named := fun _ => by rw [hplacement]; rfl
            serves := fun _ _ => hserves
            clean := fun href => absurd href hclean }
  · rw [applyMoveShard_of_refused hok]
    refine { own := fun hmem' => h.own (List.mem_of_mem_eraseIdx hmem')
             named := fun _ => hname
             serves := fun hlanded hrunning => h.serves ?_ hrunning
             clean := fun href => absurd href hclean }
    exact (Bool.or_eq_true_iff.1 hlanded).resolve_right fun hdone => hok (of_decide_eq_true hdone)

theorem Sound.other (h : Sound move s) {payload : Payload V}
    (hclear : Clear py move s (.other payload)) :
    Sound move { s with table := (s.table.apply py payload).1 } where
  own := h.own
  named hopen := isSome_apply (h.named hopen)
  serves hlanded hrunning := by
    obtain ⟨hfit, placement, hget, hnodes, hsame⟩ := h.serves hlanded hrunning
    have hkeeps := hclear hlanded hrunning
    rw [Keeps, hget] at hkeeps
    obtain ⟨placement', hget', heq⟩ := map_eq_some_iff.1 hkeeps
    obtain ⟨hnodes', haddresses⟩ := Prod.mk.inj heq
    exact ⟨hfit, placement', hget', hnodes'.trans hnodes, haddresses ▸ hsame⟩
  clean := h.clean

/-- **What every step keeps.** -/
theorem sound_step {e : MoveEvent V} (hclear : Clear py move s e) (h : Sound move s)
    (hs : s.step py move e = some s') : Sound move s' := by
  cases e with
  | readRaises =>
    unfold step at hs
    dsimp only at hs
    split at hs
    swap
    · cases hs
    next attempt hphase =>
    cases hs
    have hsame := sameGroup_again s attempt
    refine { own := fun hmem => h.own (hsame.undecided ▸ hmem), named := fun hopen => ?_
             serves := fun hlanded _ => ?_
             clean := fun href => absurd href (not_refusing_again s attempt) }
    · rw [hsame.table]
      rw [hsame.undecided, hsame.landed] at hopen
      rcases hopen with hopen | hopen | ⟨a, f, c, hopen⟩
      · exact h.named (.inl hopen)
      · exact h.named (.inr (.inl hopen))
      unfold again at hopen
      split at hopen
      · cases hopen
      · rw [phase_finish] at hopen
        cases hopen
    · rw [hsame.table]
      exact h.serves (hsame.landed ▸ hlanded) (by rw [hphase]; rfl)
  | read =>
    have hs' : s.read move = some s' := hs
    unfold MoveCall.read at hs'
    split at hs'
    · next attempt hphase hget =>
      cases hs'
      have hnone : s.undecided = [] ∧ s.landed = false := by
        by_contra hopen
        have := h.named (by
          rcases hl : s.landed with _ | _
          · exact .inl fun hnil => hopen ⟨hnil, hl⟩
          · exact .inr (.inl rfl))
        rw [hget] at this
        cases this
      have hsame := sameGroup_finish s .rejected
      refine { own := fun hmem => h.own (hsame.undecided ▸ hmem), named := fun hopen => ?_
               serves := fun hlanded _ => ?_, clean := fun _ => hnone }
      · rcases hopen with hopen | hopen | ⟨a, f, c, hopen⟩
        · exact absurd hnone.1 hopen
        · rw [hsame.landed, hnone.2] at hopen
          cases hopen
        · cases hopen
      · rw [hsame.landed, hnone.2] at hlanded
        cases hlanded
    · next attempt placement hphase hget =>
      cases hs'
      refine { own := h.own, named := fun _ => by rw [hget]; rfl
               serves := fun hlanded _ => h.serves hlanded (by rw [hphase]; rfl)
               clean := fun href => ?_ }
      unfold Move.client at href
      rcases href with href | href
      · split at href <;> cases href
      · cases href
    · cases hs'
  | ask ending => exact h.ask hclear hs
  | walkEnds =>
    unfold step at hs
    dsimp only at hs
    split at hs
    swap
    · cases hs
    next attempt fromNodes answered hphase =>
    cases hs
    have hrunning : s.phase.running = true := by rw [hphase]; rfl
    refine .of_sameGroup (sameGroup_returned s attempt _) h.own
      (h.named (.inr (.inr ⟨_, _, _, hphase⟩))) (fun hlanded => h.serves hlanded hrunning)
      fun href => h.clean (.inl ?_)
    -- the walk ends in a refusal only if it has met one
    obtain ⟨c, hc, hne⟩ := refusing_returned href
    cases hc
    rw [hphase]
    rcases answered with _ | code
    · exact absurd rfl hne
    · refine decide_eq_true fun hcode => hne ?_
      rw [hcode]
      rfl
  | land i =>
    obtain ⟨args, hget, rfl⟩ := map_eq_some_iff.1 hs
    exact h.land hget
  | other payload =>
    cases hs
    exact h.other hclear

/-- **A move that is given up never lands**: in every run whose proposals end as `Clear` says, from
any table, once `finish_move` has given the move up no proposal of the call has been applied,
whatever is applied afterwards. -/
theorem aborted_move_never_lands (py : Python V) (move : Move) (table : MetadataStateMachine)
    {events : List (MoveEvent V)}
    (hclear : Along (step py move) (Clear py move) (start table) events)
    (hrun : run (step py move) (start table) events = some s)
    (haborted : s.phase = .ended .rejected) : s.landed = false :=
  ((hclear.invariant (fun _ _ _ hP hI hs => sound_step hP hI hs) (sound_start table) hrun).clean
    (.inr haborted)).2

end Runs

section Examples

open MetadataStateMachine (plain command twoRanges)

/-- A table that has shard 0 on the nodes 1, 2 and 3. -/
def onThree : MetadataStateMachine :=
  ((MetadataStateMachine.init.applyInitRoutes twoRanges).1.applySetShardNodes
    ⟨0, [1, 2, 3], .empty⟩).1

/-- Shard 0 goes to the nodes 4, 5 and 6. -/
def toFour : Move :=
  { shardId := 0, targetNodes := [4, 5, 6], addresses := .ofList [(4, "a"), (5, "b"), (6, "c")]
    remote := false }

/-- Somebody else puts the shard on node 7. -/
def elsewhere : Payload MetadataStateMachine.Value :=
  command .setShardNodes [("shard_id", .int 0), ("nodes", .list [.int 7]), ("addresses", .list [])]

/-- The call loses a leadership, asks again after the shard has been put elsewhere, and is
refused; what the first proposal left behind is not applied. -/
theorem aborted_move_never_lands_refused : ∃ s,
    run (step plain toFour) (start onThree)
      [.read, .ask .leadershipLost, .other elsewhere, .ask .answered, .other elsewhere] = some s ∧
    s.phase = .ended .rejected ∧ s.targetServed = false ∧ s.landed = false := by
  refine Transition.exists_run (p := fun s => s.phase = .ended .rejected ∧ s.targetServed = false)
    (by decide +kernel) fun s hrun ⟨haborted, hclosed⟩ => ⟨haborted, hclosed,
      aborted_move_never_lands plain toFour onThree ?_ hrun haborted⟩
  exact ⟨trivial, rfl, nofun, trivial, nofun, trivial⟩

/-- **A move that was given up lands**: its proposal times out, which is taken for a refusal, and is
applied afterwards.  The table names a group that has been closed. -/
theorem aborted_move_lands : ∃ s,
    run (step plain toFour) (start onThree) [.read, .ask .timeout, .land 0] = some s ∧
    s.phase = .ended .rejected ∧ s.sourceFrozen = false ∧ s.noted = false ∧
    s.targetServed = false ∧ s.landed = true ∧
    (s.table.shards.get? 0).map (·.nodes) = some [4, 5, 6] :=
  Transition.exists_of_any (by decide +kernel)

end Examples
end MoveCall
end OxideDB.Shard
