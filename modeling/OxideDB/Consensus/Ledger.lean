import OxideDB.Consensus.Quorum
import Mathlib.Data.List.Infix
import Mathlib.Logic.Function.Basic
import Mathlib.Logic.Relation

/-!
# A replicated log, abstractly

A protocol pattern rather than a program: nodes that vote in numbered terms, and a
leader of each term whose log the others copy.  Logs are whole lists, nothing is
ever compacted, and messages do not appear: a step says what a node may do given
what has already happened, and the history it relies on — every ballot, every
election, every acknowledgement — is kept in the state.
-/

namespace Consensus

open List

variable {N E : Type*}

/-! ## Logs -/

/-- The term of the last entry, zero for the empty log. -/
def lastTerm (τ : E → ℕ) (l : List E) : ℕ :=
  match l.getLast? with
  | some e => τ e
  | none => 0

/-- `l` is at least as up to date as `l'`. -/
def UpToDate (τ : E → ℕ) (l l' : List E) : Prop :=
  lastTerm τ l' < lastTerm τ l ∨ (lastTerm τ l = lastTerm τ l' ∧ l'.length ≤ l.length)

/-- What accepting the prefix `m` of a leader's log may leave of `old`: the log as
it was, or a prefix of `m` that keeps everything the two agreed on.  The second is
possible only when `m` was not in the log already. -/
def Merge (old m new : List E) : Prop :=
  new = old ∨ (new <+: m ∧ ¬ m <+: old ∧ ∀ x, x <+: old → x <+: m → x <+: new)

theorem Merge.refl (old m : List E) : Merge old m old := .inl rfl

/-- Two prefixes of one list are comparable. -/
theorem prefix_total {x y l : List E} (hx : x <+: l) (hy : y <+: l) : x <+: y ∨ y <+: x :=
  prefix_or_prefix_of_prefix hx hy

/-- Cutting `m` off before the first place where it leaves the log. -/
theorem Merge.take {old m : List E} {i : ℕ} (h : ¬ m.take (i + 1) <+: old) :
    Merge old m (m.take i) := by
  refine .inr ⟨m.take_prefix i, fun hm => h ((m.take_prefix _).trans hm), fun x hx hxm => ?_⟩
  have hlen : x.length ≤ i := by
    by_contra hlt
    refine h (List.IsPrefix.trans ?_ hx)
    rw [prefix_iff_eq_take.1 hxm]
    exact take_prefix_take_left (by omega)
  rw [prefix_iff_eq_take.1 hxm]
  exact take_prefix_take_left hlen

/-- **Accepting keeps what it must.**  A prefix of the log that the leader's log has
too survives the leader's message. -/
theorem Merge.keeps {old m new r c : List E} (h : Merge old m new) (hm : m <+: r)
    (hold : c <+: old) (hr : c <+: r) : c <+: new := by
  rcases h with rfl | ⟨-, hnot, hkeep⟩
  · exact hold
  · rcases prefix_total hr hm with hcm | hmc
    · exact hkeep c hold hcm
    · exact absurd (hmc.trans hold) hnot

/-! ## The state -/

/-- How a term was won: by whom, on whose votes, and with what log. -/
structure Election (N E : Type*) where
  leader : N
  electors : Finset N
  log : List E

/-- The state of the protocol. -/
structure Ledger (N E : Type*) where
  /-- The newest term a node has taken part in. -/
  term : N → ℕ
  log : N → List E
  /-- The log a node stood for election with, in each term it stood in. -/
  cand : N → ℕ → Option (List E)
  /-- Whom a node voted for in a term, and its log at that moment. -/
  ballot : N → ℕ → Option (N × List E)
  won : ℕ → Option (Election N E)
  /-- The log of the leader of a term; empty until the term is won. -/
  reign : ℕ → List E
  /-- How much of the leader's log a node has acknowledged in a term. -/
  ack : N → ℕ → ℕ
  /-- How much of a term's log its leader has committed. -/
  commit : ℕ → ℕ

namespace Ledger

/-- The state before anything has happened. -/
def init : Ledger N E where
  term := fun _ => 0
  log := fun _ => []
  cand := fun _ _ => none
  ballot := fun _ _ => none
  won := fun _ => none
  reign := fun _ => []
  ack := fun _ _ => 0
  commit := fun _ => 0

variable [DecidableEq N]

/-- A node moves to a term. -/
def enter (a : Ledger N E) (p : N) (T : ℕ) : Ledger N E :=
  { a with term := Function.update a.term p T }

/-- A node casts its ballot. -/
def cast (a : Ledger N E) (p c : N) (T : ℕ) : Ledger N E :=
  { a with
    term := Function.update a.term p T
    ballot := Function.update a.ballot p
      (Function.update (a.ballot p) T (some (c, a.log p))) }

/-- A node names itself a candidate. -/
def nominate (a : Ledger N E) (p : N) (T : ℕ) : Ledger N E :=
  { a with
    term := Function.update a.term p T
    cand := Function.update a.cand p (Function.update (a.cand p) T (some (a.log p))) }

/-- A node stands for election, with its own ballot. -/
def stand (a : Ledger N E) (p : N) (T : ℕ) : Ledger N E := (a.nominate p T).cast p p T

/-- A candidate wins its term. -/
def crown (a : Ledger N E) (T : ℕ) (el : Election N E) : Ledger N E :=
  { a with
    won := Function.update a.won T (some el)
    reign := Function.update a.reign T el.log }

/-- A leader appends to its log. -/
def extend (a : Ledger N E) (c : N) (T : ℕ) (e : E) : Ledger N E :=
  { a with
    reign := Function.update a.reign T (a.reign T ++ [e])
    log := Function.update a.log c (a.reign T ++ [e]) }

/-- A node takes over a log in a term. -/
def adopt (a : Ledger N E) (p : N) (T : ℕ) (l : List E) : Ledger N E :=
  { a with
    term := Function.update a.term p T
    log := Function.update a.log p l }

/-- A node acknowledges the first `k` entries of a term's log. -/
def acknowledge (a : Ledger N E) (p : N) (T k : ℕ) : Ledger N E :=
  { a with
    term := Function.update a.term p T
    ack := Function.update a.ack p (Function.update (a.ack p) T (max (a.ack p T) k)) }

/-- The leader of a term commits the first `k` entries of its log. -/
def commitTo (a : Ledger N E) (T k : ℕ) : Ledger N E :=
  { a with commit := Function.update a.commit T (max (a.commit T) k) }

end Ledger

/-! ## The steps -/

variable [Fintype N]

/-- The first `k` entries of the log of term `T` are acknowledged by a majority, and
the last of them was made in that term. -/
structure Committed (τ : E → ℕ) (a : Ledger N E) (T k : ℕ) : Prop where
  quorum : ∃ Q : Finset N, Majority Q ∧ ∀ v ∈ Q, k ≤ a.ack v T
  entry : ∃ e, (a.reign T)[k - 1]? = some e ∧ τ e = T
  pos : 0 < k

variable [DecidableEq N]

/-- What may happen next.  `τ` is the term of an entry. -/
inductive Step (τ : E → ℕ) (a : Ledger N E) : Ledger N E → Prop
  | observe (p : N) (T : ℕ) : a.term p ≤ T → Step τ a (a.enter p T)
  | stand (p : N) (T : ℕ) : a.term p < T → Step τ a (a.stand p T)
  | vote (p c : N) (T : ℕ) (l : List E) : a.term p ≤ T → a.ballot p T = none →
      a.cand c T = some l → UpToDate τ l (a.log p) → Step τ a (a.cast p c T)
  | win (T : ℕ) (el : Election N E) : a.won T = none → a.cand el.leader T = some el.log →
      Majority el.electors → (∀ v ∈ el.electors, ∃ l, a.ballot v T = some (el.leader, l)) →
      Step τ a (a.crown T el)
  | extend (T : ℕ) (el : Election N E) (e : E) : a.won T = some el → a.term el.leader = T →
      a.log el.leader = a.reign T → τ e = T → Step τ a (a.extend el.leader T e)
  | accept (p : N) (T : ℕ) (m l : List E) : a.term p ≤ T → m <+: a.reign T →
      Merge (a.log p) m l → Step τ a (a.adopt p T l)
  | ack (p : N) (T k : ℕ) : a.term p ≤ T → k ≤ (a.reign T).length →
      (a.reign T).take k <+: a.log p → Step τ a (a.acknowledge p T k)
  | commit (T k : ℕ) : Committed τ a T k → Step τ a (a.commitTo T k)

/-! ## What no step takes back -/

/-- Terms only rise, and history is only added to. -/
structure Ledger.Grows (a b : Ledger N E) : Prop where
  term : ∀ p, a.term p ≤ b.term p
  cand : ∀ p T l, a.cand p T = some l → b.cand p T = some l
  ballot : ∀ p T x, a.ballot p T = some x → b.ballot p T = some x
  won : ∀ T el, a.won T = some el → b.won T = some el
  reign : ∀ T, a.reign T <+: b.reign T
  ack : ∀ p T, a.ack p T ≤ b.ack p T
  commit : ∀ T, a.commit T ≤ b.commit T

omit [Fintype N] [DecidableEq N] in
theorem Ledger.Grows.refl (a : Ledger N E) : a.Grows a :=
  ⟨fun _ => le_rfl, fun _ _ _ h => h, fun _ _ _ h => h, fun _ _ h => h,
    fun _ => prefix_rfl, fun _ _ => le_rfl, fun _ => le_rfl⟩

omit [Fintype N] [DecidableEq N] in
theorem Ledger.Grows.trans {a b c : Ledger N E} (h : a.Grows b) (h' : b.Grows c) :
    a.Grows c where
  term p := le_trans (h.term p) (h'.term p)
  cand p T l hl := h'.cand p T l (h.cand p T l hl)
  ballot p T x hx := h'.ballot p T x (h.ballot p T x hx)
  won T el hw := h'.won T el (h.won T el hw)
  reign T := (h.reign T).trans (h'.reign T)
  ack p T := le_trans (h.ack p T) (h'.ack p T)
  commit T := le_trans (h.commit T) (h'.commit T)

/-- Any number of steps. -/
abbrev Steps (τ : E → ℕ) : Ledger N E → Ledger N E → Prop := Relation.ReflTransGen (Step τ)

end Consensus
