import OxideDB.Raft.Pieces

/-!
# Terms survive a crash

What a node has on disk about elections is a term and a vote, and it only ever moves
forward: to a later term, or from no vote to a vote in the same one.  A vote is on disk
before it is answered.  The term of an accepted replication request is on disk too if the
request brought it; if the node had the term already, it is on disk only if whoever
brought it saved it, and an answer that raises the term does not.
-/

namespace OxideDB.Raft.Terms

open Option Node

variable {T : ℕ}
variable {n : ℕ} {σ δ : Type} {cfg : Config n σ δ} {nd nd' nd'' : Node n σ δ} {me : Fin n}

/-! ## The order of terms and votes -/

/-- A later term, or the same with a vote that is not another one. -/
def Succeeds (m m' : ℕ × Option (Fin n)) : Prop :=
  m.1 < m'.1 ∨ (m.1 = m'.1 ∧ (m.2 = none ∨ m.2 = m'.2))

namespace Succeeds

variable {m m' m'' : ℕ × Option (Fin n)}

theorem refl (m : ℕ × Option (Fin n)) : Succeeds m m := .inr ⟨rfl, .inr rfl⟩

theorem trans (h : Succeeds m m') (h' : Succeeds m' m'') : Succeeds m m'' := by
  rcases h with hlt | ⟨heq, hv⟩
  · refine .inl ?_
    rcases h' with hlt' | ⟨heq', -⟩ <;> omega
  rcases h' with hlt' | ⟨heq', hv'⟩
  · exact .inl (heq ▸ hlt')
  refine .inr ⟨heq.trans heq', ?_⟩
  rcases hv with hv | hv
  · exact .inl hv
  · rw [hv]; exact hv'

theorem le (h : Succeeds m m') : m.1 ≤ m'.1 := by
  rcases h with hlt | ⟨heq, -⟩ <;> omega

end Succeeds

/-- The term and the vote a node has in memory. -/
def ballot (nd : Node n σ δ) : ℕ × Option (Fin n) := (nd.currentTerm, nd.votedFor)

/-! ## One step -/

/-- `nd` has come to `nd'` in the middle of a step: what is on disk has moved along the
order, as it had at every write, and memory is not behind it. -/
structure Advances (nd nd' : Node n σ δ) : Prop where
  disk : Succeeds nd.storage.loadMeta nd'.storage.loadMeta
  memory : Succeeds nd'.storage.loadMeta (ballot nd')
  checkpoints : ∀ cp ∈ nd'.checkpoints, Succeeds nd.storage.loadMeta cp.storage.loadMeta

namespace Advances

theorem begin (h : Succeeds nd.storage.loadMeta (ballot nd)) : Advances nd nd.begin where
  disk := .refl _
  memory := h
  checkpoints cp hcp := by rw [List.mem_singleton.1 hcp]; exact .refl _

theorem quiet (h : Advances nd nd') (hq : nd'.Quiet nd'') : Advances nd nd'' where
  disk := by rw [hq.disk]; exact h.disk
  memory := by
    rw [hq.disk, ballot, hq.currentTerm, hq.votedFor]
    exact h.memory
  checkpoints cp hcp := by
    rcases hq.checkpoints cp hcp with hcp | ⟨hm, -⟩
    · exact h.checkpoints cp hcp
    · rw [hm]; exact h.disk

/-- Memory moves on, and the disk stays behind. -/
theorem learns (h : Advances nd nd') (hst : nd''.storage = nd'.storage)
    (hc : nd''.checkpoints = nd'.checkpoints) (hb : Succeeds (ballot nd') (ballot nd'')) :
    Advances nd nd'' where
  disk := hst ▸ h.disk
  memory := hst ▸ h.memory.trans hb
  checkpoints cp hcp := h.checkpoints cp (hc ▸ hcp)

/-- `save_meta`. -/
theorem saveMeta (h : Advances nd nd') : Advances nd nd'.saveMeta where
  disk := h.disk.trans h.memory
  memory := .refl _
  checkpoints cp hcp := by
    rcases List.mem_append.1 hcp with hcp | hcp
    · exact h.checkpoints cp hcp
    · rw [List.mem_singleton.1 hcp]
      exact h.disk.trans h.memory

/-- The pieces of a step move along the order. -/
theorem keeps (cfg : Config n σ δ) (nd : Node n σ δ) :
    Node.KeepsAll cfg (fun _ => True) (Advances nd) where
  turns h ht := h.learns ht.storage ht.checkpoints ht.ballot
  saveMeta h := h.saveMeta
  append h _ _ := h.quiet (.append _ _)
  commitTo h _ _ _ _ := h.quiet (.commitTo cfg _ _)
  absorbEntry h e _ := h.quiet (.absorbEntry _ e)
  follow h i := h.quiet (.commitTo cfg _ i)
  replaceState h s _ _ := h.quiet (.replaceState cfg _ s)

end Advances

/-- **Every step moves the saved term and vote forward**, and so does every write in it. -/
theorem handle_advances (cfg : Config n σ δ) (me : Fin n)
    (h : Succeeds nd.storage.loadMeta (ballot nd)) (input : Input n δ) :
    Advances nd (nd.handle cfg me input).1 := by
  have hb := Advances.begin h
  refine (Advances.keeps cfg nd).handle hb (fun _ _ => trivial) me
    (input.holds_of_forall fun _ => trivial) fun hf => ?_
  cases input with
  | freezeWrites reason => exact hb.learns rfl rfl (.refl _)
  | resumeWrites => exact hb.learns rfl rfl (.refl _)
  | _ => exact hf.elim

/-! ## Answers -/

/-- What a node lets itself in for. -/
inductive Answer (n : ℕ) where
  /-- Success, to a replication request of this term. -/
  | accepted (term : ℕ)
  /-- A vote in this term, its own included. -/
  | granted (term : ℕ) (candidate : Fin n)

def Answer.term : Answer n → ℕ
  | .accepted T => T
  | .granted T _ => T

/-- The answer of a step, if it binds the node. -/
def answer (cfg : Config n σ δ) (me : Fin n) (nd : Node n σ δ) : Input n δ → Option (Answer n)
  | .appendEntries r =>
    if (nd.begin.appendEntries cfg r).2.success then some (.accepted r.term) else none
  | .installSnapshot r =>
    if (nd.begin.installSnapshot cfg r).2.success then some (.accepted r.term) else none
  | .requestVote r =>
    if (nd.begin.requestVote r).2.voteGranted then some (.granted r.term r.candidateId) else none
  | .startElection =>
    let stood := nd.begin.startElection cfg me
    if nd.currentTerm < stood.currentTerm then some (.granted stood.currentTerm me) else none
  | _ => none

/-- A request in the term the node is in finds that term on disk. -/
def Saved (nd : Node n σ δ) : Input n δ → Prop
  | .appendEntries r => r.term = nd.currentTerm → nd.storage.currentTerm = nd.currentTerm
  | .installSnapshot r => r.term = nd.currentTerm → nd.storage.currentTerm = nd.currentTerm
  | _ => True

/-- The disk remembers the answer. -/
def Remembers (m : ℕ × Option (Fin n)) : Answer n → Prop
  | .accepted T => T ≤ m.1
  | .granted T c => Succeeds (T, some c) m

variable {x : Answer n}
variable {m : ℕ × Option (Fin n)}

theorem Remembers.mono {m' : ℕ × Option (Fin n)} (hm : Succeeds m m') (h : Remembers m x) :
    Remembers m' x := by
  cases x with
  | accepted T => exact le_trans h hm.le
  | granted T c => exact Succeeds.trans h hm

theorem Remembers.term_le (h : Remembers m x) : x.term ≤ m.1 := by
  cases x with
  | accepted T => exact h
  | granted T c => exact Succeeds.le h

/-- What is on disk after a request of a term that is not old. -/
theorem follows_term (hf : nd.Follows T nd') :
    nd'.storage.currentTerm = if nd.currentTerm < T then T else nd.storage.currentTerm := by
  have := congrArg Prod.fst hf.disk
  rw [apply_ite Prod.fst] at this
  exact this

variable {input : Input n δ}

theorem answer_cases (h : answer cfg me nd input = some x) :
    (∃ r, input = .appendEntries r ∧ (nd.begin.appendEntries cfg r).2.success = true ∧
      x = .accepted r.term) ∨
    (∃ r, input = .installSnapshot r ∧ (nd.begin.installSnapshot cfg r).2.success = true ∧
      x = .accepted r.term) ∨
    (∃ r, input = .requestVote r ∧ (nd.begin.requestVote r).2.voteGranted = true ∧
      x = .granted r.term r.candidateId) ∨
    (input = .startElection ∧ nd.currentTerm < (nd.begin.startElection cfg me).currentTerm ∧
      x = .granted (nd.begin.startElection cfg me).currentTerm me) := by
  cases input with
  | appendEntries r =>
    simp only [answer, ite_none_right_eq_some, some.injEq] at h
    exact .inl ⟨r, rfl, h.1, h.2.symm⟩
  | installSnapshot r =>
    simp only [answer, ite_none_right_eq_some, some.injEq] at h
    exact .inr (.inl ⟨r, rfl, h.1, h.2.symm⟩)
  | requestVote r =>
    simp only [answer, ite_none_right_eq_some, some.injEq] at h
    exact .inr (.inr (.inl ⟨r, rfl, h.1, h.2.symm⟩))
  | startElection =>
    simp only [answer, ite_none_right_eq_some, some.injEq] at h
    exact .inr (.inr (.inr ⟨rfl, h.1, h.2.symm⟩))
  | _ => cases h

theorem accepted_term (h : answer cfg me nd input = some (.accepted T)) :
    (nd.handle cfg me input).1.currentTerm = T ∧
      (Saved nd input → (nd.handle cfg me input).1.storage.currentTerm = T) := by
  have follow : ∀ {nd' : Node n σ δ}, nd.begin.currentTerm ≤ T → nd.begin.Follows T nd' →
      (T = nd.currentTerm → nd.storage.currentTerm = nd.currentTerm) →
      nd'.storage.currentTerm = T := by
    intro nd' hge hf hsaved
    rw [follows_term hf]
    split
    · rfl
    · rename_i hlt
      have heq : T = nd.currentTerm := le_antisymm (not_lt.1 hlt) hge
      exact (hsaved heq).trans heq.symm
  rcases answer_cases h with ⟨r, rfl, hok, hT⟩ | ⟨r, rfl, hok, hT⟩ | ⟨r, -, -, hT⟩ | ⟨-, -, hT⟩
  · obtain rfl : T = r.term := Answer.accepted.inj hT
    rcases Nat.lt_or_ge r.term nd.begin.currentTerm with hlt | hge
    · rw [nd.begin.appendEntries_stale r hlt] at hok; cases hok
    · have hf : nd.begin.Follows r.term (nd.begin.appendEntries cfg r).1 :=
        nd.begin.appendEntries_follows r hge
      exact ⟨hf.currentTerm, follow hge hf⟩
  · obtain rfl : T = r.term := Answer.accepted.inj hT
    rcases Nat.lt_or_ge r.term nd.begin.currentTerm with hlt | hge
    · rw [nd.begin.installSnapshot_stale r hlt] at hok; cases hok
    · have hf : nd.begin.Follows r.term (nd.begin.installSnapshot cfg r).1 :=
        nd.begin.installSnapshot_follows r hge
      exact ⟨hf.currentTerm, follow hge hf⟩
  · cases hT
  · cases hT

/-- Counting votes touches neither the term nor what is on disk about it. -/
theorem checkVoteCount_meta (cfg : Config n σ δ) (nd : Node n σ δ) (me : Fin n) :
    (nd.checkVoteCount cfg me).currentTerm = nd.currentTerm ∧
      (nd.checkVoteCount cfg me).storage.loadMeta = nd.storage.loadMeta := by
  unfold checkVoteCount
  split
  · exact ⟨rfl, rfl⟩
  split
  · exact ⟨(Node.Quiet.appendNoopEntry _).currentTerm, (Node.Quiet.appendNoopEntry _).disk⟩
  · exact ⟨rfl, rfl⟩

theorem granted_saved {c : Fin n} (h : answer cfg me nd input = some (.granted T c)) :
    (nd.handle cfg me input).1.storage.loadMeta = (T, some c) := by
  rcases answer_cases h with ⟨r, -, -, hT⟩ | ⟨r, -, -, hT⟩ | ⟨r, rfl, hok, hT⟩ | ⟨rfl, hlt, hT⟩
  · cases hT
  · cases hT
  · obtain ⟨rfl, rfl⟩ := Answer.granted.inj hT
    rcases nd.begin.requestVote_cases r with heq | ⟨hterm, -, -, heq⟩
    · rw [heq] at hok; cases hok
    simp only [handle]
    rw [heq]
    show ((nd.begin.raiseTerm r.term).currentTerm, some r.candidateId) = _
    rw [hterm]
  · obtain ⟨rfl, rfl⟩ := Answer.granted.inj hT
    simp only [handle]
    unfold startElection at hlt ⊢
    split at hlt
    · exact absurd hlt (lt_irrefl _)
    rename_i hsd
    split at hlt
    · exact absurd hlt (lt_irrefl _)
    rename_i hlead
    rw [if_neg hsd, if_neg hlead, (checkVoteCount_meta cfg _ c).1, (checkVoteCount_meta cfg _ c).2]
    rfl

/-- The step that gives an answer has it on disk. -/
theorem answer_remembered (hs : Saved nd input) (h : answer cfg me nd input = some x) :
    Remembers (nd.handle cfg me input).1.storage.loadMeta x := by
  cases x with
  | accepted T => exact ((accepted_term h).2 hs).ge
  | granted T c =>
    show Succeeds _ _
    rw [granted_saved h]
    exact .refl _

/-! ## A life -/

/-- A node that has come back has in memory what is on disk. -/
theorem load_behind (cfg : Config n σ δ) (me : Fin n) (st : EngineRaftStorage n δ) :
    Succeeds (loadFromStorage cfg me st).storage.loadMeta
      (ballot (loadFromStorage cfg me st)) := by
  obtain ⟨-, ht, hv, hd, -⟩ := loadFromStorage_quiet cfg me st
  rw [hd, ballot, ht, hv]
  exact .refl _

/-- What the disk remembers, it goes on remembering. -/
theorem remembers_life {es : List (LifeEvent n δ)} (hm : Succeeds m nd.storage.loadMeta)
    (hb : Succeeds nd.storage.loadMeta (ballot nd)) (hr : nd.life cfg me es = some nd') :
    Succeeds m nd'.storage.loadMeta ∧ Succeeds nd'.storage.loadMeta (ballot nd') := by
  refine Transition.run_invariant
    (I := fun nd => Succeeds m nd.storage.loadMeta ∧ Succeeds nd.storage.loadMeta (ballot nd))
    ?_ ⟨hm, hb⟩ hr
  rintro nd₁ e nd₂ ⟨hm₁, hb₁⟩ hs
  refine survive_invariant
    (I := fun nd => Succeeds m nd.storage.loadMeta ∧ Succeeds nd.storage.loadMeta (ballot nd))
    (D := fun st => Succeeds m st.loadMeta) hm₁ (fun input _ => ?_) (fun st hst => ?_) hs
  · have hadv := handle_advances cfg me hb₁ input
    exact ⟨⟨hm₁.trans hadv.disk, hadv.memory⟩, fun cp hcp => hm₁.trans (hadv.checkpoints cp hcp)⟩
  · obtain ⟨-, -, -, hd, -⟩ := loadFromStorage_quiet cfg me st
    exact ⟨by rw [hd]; exact hst, load_behind cfg me st⟩

/-- **Terms survive a crash.**  A node that has answered in a term, to a request whose term
was saved, accepts no request of an earlier term ever after, and in no term does it vote
for two candidates: whatever it is asked, and wherever it crashes, before and in between. -/
theorem terms_survive_crash (cfg : Config n σ δ) (me : Fin n) (es₁ es₂ : List (LifeEvent n δ))
    (nd₁ nd₂ : Node n σ δ) (input₁ input₂ : Input n δ)
    (h₁ : Node.life cfg me (Node.loadFromStorage cfg me .empty) es₁ = some nd₁)
    (hsaved : Saved nd₁ input₁)
    (h₂ : Node.life cfg me (nd₁.handle cfg me input₁).1 es₂ = some nd₂)
    (x y : Answer n) (hx : answer cfg me nd₁ input₁ = some x)
    (hy : answer cfg me nd₂ input₂ = some y) :
    (∀ T, y = .accepted T → x.term ≤ T) ∧
      ∀ T c d, x = .granted T c → y = .granted T d → c = d := by
  obtain ⟨-, hb₁⟩ := remembers_life (.refl _) (load_behind cfg me .empty) h₁
  have hadv₁ := handle_advances cfg me hb₁ input₁
  obtain ⟨hm₂, hb₂⟩ := remembers_life (.refl _) hadv₁.memory h₂
  have hadv₂ := handle_advances cfg me hb₂ input₂
  have hmem := ((answer_remembered hsaved hx).mono hm₂).mono hadv₂.disk
  refine ⟨fun T hT => ?_, fun T c d hc hd => ?_⟩
  · subst hT
    have hle := le_trans hmem.term_le hadv₂.memory.le
    rw [ballot, (accepted_term hy).1] at hle
    exact hle
  · subst hc hd
    have hmem : Succeeds _ _ := hmem
    rw [granted_saved hy] at hmem
    rcases hmem with hlt | ⟨-, hnone | hsame⟩
    · exact absurd hlt (lt_irrefl _)
    · cases hnone
    · exact some.inj hsame

/-- Node 0 stands in term 1, and hears of term 5 in the answer. -/
def learnt : List (LifeEvent 3 (List Bytes)) :=
  [.step .startElection, .step (.requestVoteReply 1 ⟨5, false⟩)]

/-- It accepts a request of term 5, crashes, and then accepts one of term 3. -/
theorem learnt_term_forgotten :
    ∃ nd₁ nd₂, Node.life (tapes 3 0) 0 (Node.loadFromStorage (tapes 3 0) 0 .empty) learnt =
        some nd₁ ∧
      Node.life (tapes 3 0) 0
        (nd₁.handle (tapes 3 0) 0 (.appendEntries ⟨5, 1, 0, 0, [], 0⟩)).1 [.crash] = some nd₂ ∧
      answer (tapes 3 0) 0 nd₁ (.appendEntries ⟨5, 1, 0, 0, [], 0⟩) = some (.accepted 5) ∧
      answer (tapes 3 0) 0 nd₂ (.appendEntries ⟨3, 2, 0, 0, [], 0⟩) = some (.accepted 3) :=
  ⟨_, _, rfl, rfl, rfl, rfl⟩

/-- The same requests, but the first one brings term 5 itself. -/
theorem terms_survive_crash_brought :
    ∃ nd₁ nd₂, Node.life (tapes 3 0) 0 (Node.loadFromStorage (tapes 3 0) 0 .empty)
        [.step .startElection] = some nd₁ ∧
      Node.life (tapes 3 0) 0
        (nd₁.handle (tapes 3 0) 0 (.appendEntries ⟨5, 1, 0, 0, [], 0⟩)).1 [.crash] = some nd₂ ∧
      answer (tapes 3 0) 0 nd₁ (.appendEntries ⟨5, 1, 0, 0, [], 0⟩) = some (.accepted 5) ∧
      answer (tapes 3 0) 0 nd₂ (.appendEntries ⟨6, 2, 0, 0, [], 0⟩) = some (.accepted 6) ∧
      Answer.term (n := 3) (.accepted 5) ≤ 6 :=
  ⟨_, _, rfl, rfl, rfl, rfl, (terms_survive_crash (tapes 3 0) 0 [.step .startElection] [.crash] _ _
    (.appendEntries ⟨5, 1, 0, 0, [], 0⟩) (.appendEntries ⟨6, 2, 0, 0, [], 0⟩) rfl nofun rfl
    (.accepted 5) (.accepted 6) rfl rfl).1 6 rfl⟩

end OxideDB.Raft.Terms
