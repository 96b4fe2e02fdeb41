import OxideDB.Msgpack
import OxideDB.Raft.Freshness
import OxideDB.Storage.Effect

/-!
# The group of a shard

A shard is served by a Raft group over its MVCC machine.  What the log carries is bytes; how they
are read is the commands' coding, and here it is any coding under which a no-op is no command.
-/

namespace OxideDB

namespace Storage.MVCCStateMachine

open Raft (Bytes)

variable {m m' : MVCCStateMachine}

/-- `m'` is what `m` comes to, by commands. -/
def Later : MVCCStateMachine → MVCCStateMachine → Prop :=
  Relation.ReflTransGen fun m m' => ∃ now cmd answer, Applied now m cmd m' answer

/-- What every command keeps, a later machine has kept. -/
theorem Later.keeps {I : MVCCStateMachine → Prop} (h : Later m m')
    (hstep : ∀ {now : Time} {m m' : MVCCStateMachine} {cmd : Command} {answer : Raft.ApplyResult},
      I m → Applied now m cmd m' answer → I m') (hI : I m) : I m' := by
  induction h with
  | refl => exact hI
  | tail _ hs ih =>
    obtain ⟨now, cmd, answer, happlied⟩ := hs
    exact hstep ih happlied

end Storage.MVCCStateMachine

namespace Shard

open Raft (Bytes Config LogEntry RaftCluster ProposeCall ApplyResult noopCommand)
open Storage
open Storage.MVCCStateMachine (Applied Later apply_applied)

/-- How a shard's group is set up. -/
abbrev Settings (n : ℕ) := Config n MVCCStateMachine MVCCStateMachine

/-- The group of a shard. -/
abbrev Group (n : ℕ) := RaftCluster n MVCCStateMachine MVCCStateMachine

/-- How the commands of a shard are read, and the clock reading each is applied at. -/
structure Coding where
  unpack : Bytes → Except String Command
  clock : Bytes → Time
  /-- A no-op is empty, and what is empty cannot be read. -/
  unpack_noop : ∃ e, unpack noopCommand = .error e

namespace Coding

variable (C : Coding) {m m' : MVCCStateMachine} {e : LogEntry} {cmd : Command}

/-- `MVCCStateMachine.apply`, of bytes. -/
def apply (m : MVCCStateMachine) (bytes : Bytes) : MVCCStateMachine × ApplyResult :=
  match C.unpack bytes with
  | .ok cmd => m.apply (C.clock bytes) cmd
  | .error e => (m, .failure .errApplyError s!"Apply error: {e}")

/-- The machine of a shard. -/
def machine : Raft.StateMachine MVCCStateMachine MVCCStateMachine where
  init := .empty
  apply := C.apply
  snapshot := some
  restore := id

theorem machine_lawful : C.machine.Lawful := fun _ _ h => (Option.some.inj h).symm

/-- `writes_new_data`: a command that cannot be read counts as one that does. -/
def writesNewData (bytes : Bytes) : Bool :=
  match C.unpack bytes with
  | .ok cmd => cmd.type = .set || cmd.type = .delete || cmd.type = .prewrite
  | .error _ => true

/-- The group that reads its commands so. -/
def config {n : ℕ} (interval : Fin n → ℕ) (window : ℕ) :
    Settings n :=
  ⟨C.machine, interval, window, C.writesNewData⟩

theorem applyEntry_of_unpack (m : MVCCStateMachine) (hcmd : C.unpack e.command = .ok cmd) :
    C.machine.applyEntry m e = m.apply (C.clock e.command) cmd := by
  have hne : e.command ≠ noopCommand := by
    intro hnoop
    obtain ⟨err, herr⟩ := C.unpack_noop
    rw [hnoop, herr] at hcmd
    cases hcmd
  rw [Raft.StateMachine.applyEntry, if_neg hne]
  show C.apply m e.command = _
  rw [apply, hcmd]

theorem later_applyEntry (m : MVCCStateMachine) (e : LogEntry) :
    Later m (C.machine.applyEntry m e).1 := by
  rcases hcmd : C.unpack e.command with err | cmd
  · have hsame : (C.machine.applyEntry m e).1 = m := by
      unfold Raft.StateMachine.applyEntry
      split
      · rfl
      · show (C.apply m e.command).1 = m
        rw [apply, hcmd]
    rw [hsame]
    exact .refl
  · rw [C.applyEntry_of_unpack m hcmd]
    exact .single ⟨_, cmd, _, apply_applied _ m cmd⟩

/-- Histories of one another's: the machine with the longer one is later. -/
theorem later_of_prefix {es es' : List LogEntry} (h : C.machine.Reached m es)
    (h' : C.machine.Reached m' es') (hpre : es <+: es') : Later m m' :=
  h.of_prefix C.machine_lawful (fun m₁ e hm => hm.trans (C.later_applyEntry m₁ e)) h' hpre .refl

end Coding

variable {n : ℕ} {C : Coding} {interval : Fin n → ℕ} {window : ℕ}
  {g : Group n} {p : Fin n}

/-- **What was acknowledged is behind the leader's machine**: the command was applied with success
somewhere on its history, and the machine is later. -/
theorem acknowledged (hp : Raft.Reigning g p) {es : List (Raft.Event n)}
    (hw : RaftCluster.Along (Raft.Proposal.Watchful (C.config interval window))
      (C.config interval window) (RaftCluster.init (C.config interval window)) es)
    (hrun : RaftCluster.run (C.config interval window)
      (RaftCluster.init (C.config interval window)) es = some g)
    {call : ProposeCall n} (hcall : call ∈ g.calls) {entry : Option LogEntry} {r : ApplyResult}
    (hst : call.status = .returned entry r) (hok : r.success = true) {cmd : Command}
    (hcmd : C.unpack call.command = .ok cmd) :
    ∃ now m₀ m₁ answer, Applied now m₀ cmd m₁ answer ∧ answer.success = true ∧
      Later m₁ (g.nodes p).machine.state ∧
      ∃ before e, e.command = call.command ∧ C.machine.Reached m₀ before ∧
        before ++ [e] <+: (g.nodes p).machine.history := by
  obtain ⟨e, before, m₀, hcommand, hreach, hpre, hsucc⟩ :=
    hp.acknowledged hw hrun hcall hst hok
  have hread : C.unpack e.command = .ok cmd := hcommand ▸ hcmd
  obtain ⟨a, -, -, hr⟩ :=
    (Raft.Rel.init (C.config interval window)).run (hw.imp fun _ _ h => h.1) hrun
  have hstate : C.machine.Reached (g.nodes p).machine.state (g.nodes p).machine.history :=
    (hr.nodes p).steady.reached
  have happlied := apply_applied (C.clock e.command) m₀ cmd
  have hnext : C.machine.Reached (m₀.apply (C.clock e.command) cmd).1 (before ++ [e]) := by
    rw [← C.applyEntry_of_unpack m₀ hread]
    exact .apply e hreach
  have hanswer : (m₀.apply (C.clock e.command) cmd).2.success = true := by
    rw [← C.applyEntry_of_unpack m₀ hread]
    exact hsucc
  exact ⟨_, m₀, _, _, happlied, hanswer, C.later_of_prefix hnext hstate hpre,
    before, e, hcommand, hreach, hpre⟩

/-! ## A coding to run groups with -/

open Msgpack

/-- `CommandType`. -/
def typeName : CommandType → String
  | .set => "SET"
  | .delete => "DELETE"
  | .prewrite => "PREWRITE"
  | .commit => "COMMIT"
  | .rollback => "ROLLBACK"
  | .cleanLock => "CLEAN_LOCK"
  | .other name => name

/-- `serialize_command`. -/
def serializeCommand (cmd : Command) : Bytes :=
  packb [("type", some (.bin (utf8 (typeName cmd.type)))),
    ("key", cmd.key.map .bin), ("value", cmd.value.map .bin), ("timestamp", cmd.timestamp.map .int),
    ("start_ts", cmd.startTs.map .int), ("commit_ts", cmd.commitTs.map .int),
    ("primary_key", cmd.primaryKey.map .bin)]

/-- msgpack, for commands that are small, and a clock that stands. -/
def packed : Coding where
  unpack bytes :=
    match unpackb bytes with
    | none => .error "Unpack failed"
    | some fields =>
      let bytes name := (get fields name).bind Value.bin?
      let int name := (get fields name).bind Value.int?
      .ok {
        type := ([.set, .delete, .prewrite, .commit, .rollback, .cleanLock].find? fun t =>
          bytes "type" = some (utf8 (typeName t))).getD (.other (toString (bytes "type")))
        key := bytes "key", value := bytes "value", timestamp := int "timestamp"
        startTs := int "start_ts", commitTs := int "commit_ts", primaryKey := bytes "primary_key" }
  clock _ := 0
  unpack_noop := ⟨_, rfl⟩

/-- A row for the key `[5]`. -/
def setFive : Bytes :=
  serializeCommand { type := .set, key := some [5], value := some [7], timestamp := some 1 }

end Shard
end OxideDB
