import Mathlib.Data.Finset.Card

/-!
# The walk over a group's addresses

`_GroupClient` of `client/remote_group_client.py`: the groups that are not a shard are reached
through seed addresses.  The walk asks one address at a time, goes on with the leader a refusal names,
and with the next seed where nobody answers.  An address may wait several times over in what is
pending; it is called once.
-/

namespace OxideDB.GroupClient

open List

abbrev Address := String

/-- `groups_pb2.ErrorCode`. -/
inductive ErrorCode where
  | ok
  | notLeader
  | locked
  | refused
  | timeout
  deriving DecidableEq

/-- What every response of a group carries, whatever it answers besides. -/
structure Response (α : Type) where
  errorCode : ErrorCode
  leaderAddress : Option Address := none
  payload : α
  deriving DecidableEq

/-- The variables of the loop; `asked` in the order of the calls. -/
structure Walk (α : Type) where
  answered : Option (Response α) := none
  unanswered : List Address := []
  asked : List Address := []
  deriving DecidableEq

/-- How a walk ends: what it returns, or the text of the `NodeUnreachable` it raises. -/
structure Ending (α : Type) where
  result : Except String (Response α)
  walk : Walk α
  /-- The address the client prefers from now on. -/
  preferred : Option Address
  deriving DecidableEq

def addOnce (ordered : List Address) (a : Address) : List Address :=
  if a ∈ ordered then ordered else ordered ++ [a]

/-- `_candidates`: the address that answered last, then the seeds, each once. -/
def candidates (preferred : Option Address) (seeds : List Address) : List Address :=
  ((preferred.filter (· ≠ "")).toList ++ seeds).foldl addOnce []

section Ask

variable {α : Type} (call : Address → Option (Response α)) (preferred : Option Address)
  (seeds : List Address)

/-- A refusal is kept unless one that outranks it is. -/
def Walk.keep (w : Walk α) (r : Response α) : Walk α :=
  match w.answered with
  | none => { w with answered := some r }
  | some r' => if r'.errorCode = .notLeader then { w with answered := some r } else w

/-- Where a refusal sends the walk next. -/
def hint (w : Walk α) (r : Response α) : List Address :=
  if r.errorCode = .notLeader then r.leaderAddress.toList.filter fun h => h ≠ "" ∧ h ∉ w.asked
  else []

/-- The end of the loop. -/
def finish (w : Walk α) : Except String (Response α) :=
  match w.answered with
  | some r => .ok r
  | none => .error ("no address answered: " ++
      ", ".intercalate (if w.unanswered.isEmpty then seeds else w.unanswered))

/-- The loop of `_ask`, over the addresses that are pending. -/
def walk : ℕ → List Address → Walk α → Option (Ending α)
  | 0, _, _ => none
  | _ + 1, [], w => some ⟨finish seeds w, w, preferred⟩
  | fuel + 1, a :: pending, w =>
    if a ∈ w.asked then walk fuel pending w
    else
      let w := { w with asked := w.asked ++ [a] }
      match call a with
      | none => walk fuel pending { w with unanswered := w.unanswered ++ [a] }
      | some r =>
        if r.errorCode = .ok then some ⟨.ok r, w, some a⟩
        else walk fuel (hint w r ++ pending) (w.keep r)

/-- `_ask`. -/
def ask (fuel : ℕ) : Option (Ending α) :=
  walk call preferred seeds fuel (candidates preferred seeds) {}

end Ask

variable {α : Type} {call : Address → Option (Response α)} {seeds pending : List Address}
  {w : Walk α} {a : Address}

theorem Walk.keep_asked (w : Walk α) (r : Response α) : (w.keep r).asked = w.asked := by
  rw [Walk.keep]
  split
  · rfl
  · split <;> rfl

/-- What holds whenever the loop comes round: nobody who was called has said OK, every seed was called
or is pending, and the refusal that is kept is the best of those that came. -/
structure Sound (call : Address → Option (Response α)) (seeds pending : List Address) (w : Walk α) :
    Prop where
  once : w.asked.Nodup
  seeds : ∀ a ∈ seeds, a ∈ w.asked ∨ a ∈ pending
  refused : ∀ a ∈ w.asked, ∀ r, call a = some r → r.errorCode ≠ .ok
  silent : w.answered = none → ∀ a ∈ w.asked, call a = none
  kept : ∀ r, w.answered = some r → ∃ a ∈ w.asked, call a = some r
  best : ∀ r, w.answered = some r → r.errorCode = .notLeader →
    ∀ a ∈ w.asked, ∀ r', call a = some r' → r'.errorCode = .notLeader

/-- What a walk has done when it ends. -/
structure Complete (call : Address → Option (Response α)) (seeds : List Address) (e : Ending α) :
    Prop where
  once : e.walk.asked.Nodup
  seeds : (∀ a ∈ e.walk.asked, ∀ r, call a = some r → r.errorCode ≠ .ok) →
    ∀ a ∈ seeds, a ∈ e.walk.asked
  answer : ∀ r, e.result = .ok r → ∃ a ∈ e.walk.asked, call a = some r
  ok : (∃ a ∈ e.walk.asked, ∃ r, call a = some r ∧ r.errorCode = .ok) →
    ∃ r, e.result = .ok r ∧ r.errorCode = .ok
  refusal : (∃ a ∈ e.walk.asked, ∃ r, call a = some r ∧ r.errorCode ≠ .notLeader) →
    ∃ r, e.result = .ok r ∧ r.errorCode ≠ .notLeader
  unreachable : (∃ msg, e.result = .error msg) ↔ ∀ a ∈ e.walk.asked, call a = none

/-- Every seed is a candidate. -/
theorem mem_candidates (preferred : Option Address) (h : a ∈ seeds) :
    a ∈ candidates preferred seeds := by
  have hfold : ∀ l ordered : List Address, a ∈ ordered ∨ a ∈ l → a ∈ l.foldl addOnce ordered := by
    intro l
    induction l with
    | nil => simp
    | cons b l ih =>
      intro ordered hor
      refine ih _ ?_
      rw [addOnce]
      split <;> grind
  exact hfold _ _ (.inr (mem_append_right _ h))

theorem length_candidates (preferred : Option Address) (seeds : List Address) :
    (candidates preferred seeds).length ≤ seeds.length + 1 := by
  have hfold : ∀ l ordered : List Address,
      (l.foldl addOnce ordered).length ≤ ordered.length + l.length := by
    intro l
    induction l with
    | nil => simp
    | cons b l ih =>
      intro ordered
      refine (ih _).trans ?_
      rw [addOnce]
      split <;> grind
  refine (hfold _ []).trans ?_
  rcases preferred.filter (· ≠ "") with _ | p <;> simp

/-- The address is called, and nobody is there. -/
theorem Sound.silence (h : Sound call seeds (a :: pending) w) (ha : a ∉ w.asked)
    (hcall : call a = none) (unanswered : List Address) :
    Sound call seeds pending { w with asked := w.asked ++ [a], unanswered := unanswered } := by
  obtain ⟨honce, hseeds, hrefused, hsilent, hkept, hbest⟩ := h
  constructor <;> simp only [nodup_append, mem_append, mem_singleton] <;> grind

/-- An address refuses. -/
theorem Sound.refusal (h : Sound call seeds (a :: pending) w) (ha : a ∉ w.asked) {r : Response α}
    (hcall : call a = some r) (hr : r.errorCode ≠ .ok) (more : List Address) :
    Sound call seeds (more ++ pending) ({ w with asked := w.asked ++ [a] }.keep r) := by
  obtain ⟨honce, hseeds, hrefused, hsilent, hkept, hbest⟩ := h
  rcases hw : w.answered with _ | r'
  · simp only [Walk.keep]
    constructor <;> simp only [nodup_append, mem_append, mem_singleton] <;> grind
  by_cases hcode : r'.errorCode = .notLeader
  · simp only [Walk.keep, if_pos hcode]
    constructor <;> simp only [nodup_append, mem_append, mem_singleton] <;> grind
  · simp only [Walk.keep, if_neg hcode]
    constructor <;> simp only [nodup_append, mem_append, mem_singleton] <;> grind

/-- Nobody is left to be asked. -/
theorem Sound.complete (h : Sound call seeds [] w) (preferred : Option Address) :
    Complete call seeds ⟨finish seeds w, w, preferred⟩ := by
  obtain ⟨honce, hseeds, hrefused, hsilent, hkept, hbest⟩ := h
  rcases hw : w.answered with _ | r <;> simp only [finish, hw]
  · constructor <;> grind
  · constructor <;> grind

/-- An address answers. -/
theorem Sound.found (h : Sound call seeds (a :: pending) w) (ha : a ∉ w.asked) {r : Response α}
    (hcall : call a = some r) (hr : r.errorCode = .ok) :
    Complete call seeds ⟨.ok r, { w with asked := w.asked ++ [a] }, some a⟩ := by
  obtain ⟨honce, hseeds, hrefused, hsilent, hkept, hbest⟩ := h
  constructor <;> simp only [nodup_append, mem_append, mem_singleton] <;> grind

variable {names : Finset Address}

/-- A walk that has places left for what is pending and for every answer that can still come, ends. -/
theorem walk_ends (hnames : ∀ a ∉ names, call a = none) (preferred : Option Address) (fuel : ℕ)
    (h : Sound call seeds pending w)
    (hfuel : pending.length + (names \ w.asked.toFinset).card < fuel) :
    ∃ e, walk call preferred seeds fuel pending w = some e ∧ Complete call seeds e := by
  induction fuel generalizing pending w with
  | zero => omega
  | succ fuel ih =>
    rcases pending with _ | ⟨a, pending⟩
    · exact ⟨_, rfl, h.complete preferred⟩
    rw [walk]
    rw [length_cons] at hfuel
    by_cases ha : a ∈ w.asked
    · rw [if_pos ha]
      refine ih ⟨h.once, fun b hb => ?_, h.refused, h.silent, h.kept, h.best⟩ (by omega)
      have := h.seeds b hb
      grind
    · rw [if_neg ha]
      have hsub : names \ (w.asked ++ [a]).toFinset ⊆ names \ w.asked.toFinset :=
        Finset.sdiff_subset_sdiff (Finset.Subset.refl _) (by simp)
      rcases hcall : call a with _ | r
      · exact ih (h.silence ha hcall _) (by have := Finset.card_le_card hsub; simp only; omega)
      by_cases hr : r.errorCode = .ok
      · simp only [if_pos hr]
        exact ⟨_, rfl, h.found ha hcall hr⟩
      simp only [if_neg hr]
      refine ih (h.refusal ha hcall hr _) ?_
      -- an answer takes its address off the names, which pays for the hint
      have hmem : a ∈ names \ w.asked.toFinset := by
        rw [Finset.mem_sdiff, mem_toFinset]
        refine ⟨by_contra fun hno => ?_, ha⟩
        rw [hnames a hno] at hcall
        cases hcall
      have hless : (names \ (w.asked ++ [a]).toFinset).card < (names \ w.asked.toFinset).card :=
        Finset.card_lt_card ⟨hsub, fun hback => by simpa using hback hmem⟩
      have hhint : (hint { w with asked := w.asked ++ [a] } r).length ≤ 1 := by
        rw [hint]
        split
        · refine (length_filter_le _ _).trans ?_
          rcases r.leaderAddress with _ | b <;> simp
        · simp
      rw [length_append, Walk.keep_asked]
      simp only
      omega

/-- **The walk over a group is complete and bounded**: whatever the addresses that answer say, it ends,
calls no address twice and every seed unless one of them says OK, and returns the best answer it was
given. -/
theorem group_walk_complete (call : Address → Option (Response α)) (names : Finset Address)
    (hnames : ∀ a ∉ names, call a = none) (preferred : Option Address) (seeds : List Address)
    (fuel : ℕ) (hfuel : seeds.length + names.card + 1 < fuel) :
    ∃ e, ask call preferred seeds fuel = some e ∧ Complete call seeds e := by
  refine walk_ends hnames preferred fuel ?_ ?_
  · constructor
    case seeds => exact fun a ha => .inr (mem_candidates preferred ha)
    all_goals simp
  · have := length_candidates preferred seeds
    simp
    omega

/-- Two members that name each other, and a third that refuses. -/
def circle (a : Address) : Option (Response Unit) :=
  if a = "a" then some ⟨.notLeader, some "b", ()⟩
  else if a = "b" then some ⟨.notLeader, some "a", ()⟩
  else if a = "c" then some ⟨.refused, none, ()⟩
  else none

theorem group_walk_complete_circle : (∀ a ∉ ({"a", "b", "c"} : Finset Address), circle a = none) ∧
    ∃ e, ask circle (some "b") ["a", "d", "c", "a"] 9 = some e ∧
      Complete circle ["a", "d", "c", "a"] e := by
  have hnames : ∀ a ∉ ({"a", "b", "c"} : Finset Address), circle a = none := by
    intro a ha
    simp only [Finset.mem_insert, Finset.mem_singleton, not_or] at ha
    rw [circle, if_neg ha.1, if_neg ha.2.1, if_neg ha.2.2]
  exact ⟨hnames, group_walk_complete circle _ hnames _ _ 9 (by decide)⟩

end OxideDB.GroupClient
