import ChronicleDB.Raft.Outcomes

/-!
# What a step can do to term, vote and role

Every input but a completion moves the vote of a core in one of six ways.  A
leader's message of the current term clears `votedFor` in memory only; such a core
does not vote again in this term, because it has heard from the leader or is no
voter.
-/

namespace ChronicleDB.Raft

open Foundation

def PendingItem.isGrant (p : PendingItem) : Bool :=
  match p.kind with
  | .voteGrant _ => true
  | _ => false

namespace Core

/-- The core grants no vote in its present term. -/
def Blocked (c : Core) : Prop :=
  c.role = .follower ∧ (c.heardFromLeader = true ∨ c.activeConfig.isVoter c.cfg.id = false)

def NoNewGrant (c c' : Core) : Prop := ∀ p ∈ c'.pending, p.isGrant = true → p ∈ c.pending

def Stores (c' : Core) (out : Output) : Prop :=
  ∃ pr, out.persistRequest = some pr ∧ pr.hardState = some c'.hardState

inductive VoteMove (c : Core) : Input → Core → Output → Prop where
  | stay {input c' out}
      (term : c'.currentTerm = c.currentTerm) (vote : c'.votedFor = c.votedFor)
      (role : c'.role = c.role ∧ c'.votesReceived = c.votesReceived ∨ c'.role = .follower)
      (blocked : c.Blocked → c'.Blocked)
      (hs : ∀ pr, out.persistRequest = some pr → pr.hardState = none)
      (grants : NoNewGrant c c') : VoteMove c input c' out
  | clear {input c' out}
      (term : c'.currentTerm = c.currentTerm) (role : c.role ≠ .follower)
      (vote : c'.votedFor = noVote) (blocked : c'.Blocked)
      (hs : ∀ pr, out.persistRequest = some pr → pr.hardState = none)
      (grants : NoNewGrant c c') : VoteMove c input c' out
  | adopt {msg c' out}
      (higher : c.currentTerm < msg.term) (term : c'.currentTerm = msg.term)
      (vote : c'.votedFor = noVote) (role : c'.role = .follower) (hs : c'.Stores out)
      (grants : NoNewGrant c c') : VoteMove c (.message msg) c' out
  | campaign {c' out}
      (notLeader : c.role ≠ .leader) (voter : c.activeConfig.isVoter c.cfg.id = true)
      (term : c'.currentTerm = c.currentTerm + 1) (vote : c'.votedFor = c.cfg.id)
      (role : c'.role = .candidate ∧ c'.votesReceived = [c.cfg.id] ∨
        c'.role = .leader ∧ c.activeConfig.majority ≤ 1)
      (hs : c'.Stores out) (grants : NoNewGrant c c') : VoteMove c .electionTimeout c' out
  | count {msg c' out}
      (body : msg.body = .requestVoteResponse true) (msgTerm : msg.term = c.currentTerm)
      (candidate : c.role = .candidate)
      (term : c'.currentTerm = c.currentTerm) (vote : c'.votedFor = c.votedFor)
      (role : c'.role = .candidate ∧ c'.votesReceived = c.votesWith msg.sender ∨
        c'.role = .leader ∧ c.activeConfig.majority ≤ (c.votesWith msg.sender).length)
      (hs : out.persistRequest = none) (grants : NoNewGrant c c') :
      VoteMove c (.message msg) c' out
  | cast {msg lastIndex lastTerm c' out}
      (body : msg.body = .requestVoteRequest lastIndex lastTerm)
      (heard : c.heardFromLeader = false) (voter : c.activeConfig.isVoter c.cfg.id = true)
      (free : c.currentTerm < msg.term ∧ c'.role = .follower ∨ msg.term = c.currentTerm ∧
        c'.role = c.role ∧ (c.votedFor = noVote ∨ c.votedFor = msg.sender))
      (votes : c'.role = c.role → c'.votesReceived = c.votesReceived ∨ c'.role = .follower)
      (upToDate : c.isLogUpToDate lastIndex lastTerm = true)
      (term : c'.currentTerm = msg.term) (vote : c'.votedFor = msg.sender) (hs : c'.Stores out)
      (pending : c'.pending = c.pending ++ [⟨c'.persistSeq, msg.term, .voteGrant msg.sender⟩]) :
      VoteMove c (.message msg) c' out

/-! ## All outcomes -/

variable {c c' : Core} {msg : Message}

theorem noNewGrant_of_pending (h : c'.pending = c.pending) : NoNewGrant c c' :=
  fun p hp _ => by rwa [h] at hp

theorem noNewGrant_of_append {old items : List PendingItem} (hc' : c'.pending = old ++ items)
    (hold : old ⊆ c.pending) (hitems : ∀ p ∈ items, p.isGrant = false) : NoNewGrant c c' := by
  intro p hp hgrant
  rw [hc'] at hp
  rcases List.mem_append.mp hp with hp | hp
  · exact hold hp
  · rw [hitems p hp] at hgrant
    cases hgrant

theorem isGrant_of_mem_awaited {last commit : Nat} {p : PendingItem}
    (h : p ∈ c.awaited msg last commit) : p.isGrant = false := by
  rcases List.mem_append.mp h with hp | hp
  · split at hp
    · rw [List.mem_singleton.mp hp]
      rfl
    · cases hp
  · rw [List.mem_singleton.mp hp]
    rfl

/-- A core that has recognised the sender of `msg` as leader, and stores a new term. -/
theorem voteMove_of_recognized {out : Output} (hterm : c.currentTerm ≤ msg.term)
    (term : c'.currentTerm = msg.term) (role : c'.role = .follower)
    (vote : c'.votedFor = (c.recognized msg).votedFor) (heard : c'.heardFromLeader = true)
    (hs : msg.term > c.currentTerm → c'.Stores out)
    (nohs : ¬ msg.term > c.currentTerm → ∀ pr, out.persistRequest = some pr → pr.hardState = none)
    (grants : NoNewGrant c c') : VoteMove c (.message msg) c' out := by
  by_cases hhigher : msg.term > c.currentTerm
  · simp only [recognized, hhigher, true_or, if_true] at vote
    exact .adopt hhigher term vote role (hs hhigher) grants
  · by_cases hrole : c.role = .follower
    · simp only [recognized, hhigher, hrole, ne_eq, not_true, or_self, if_false] at vote
      exact .stay (by omega) vote (.inr role) (fun _ => ⟨role, .inl heard⟩) (nohs hhigher) grants
    · simp only [recognized, hrole, ne_eq, not_false_eq_true, or_true, if_true] at vote
      exact .clear (by omega) hrole vote ⟨role, .inl heard⟩ (nohs hhigher) grants

theorem TermStored.voteMove {out : Output} {seq : Nat} {pr : Option PersistRequest}
    (h : c.TermStored msg seq pr) (hpr : out.persistRequest = pr) (hterm : c.currentTerm ≤ msg.term)
    (state : c'.hardState = (c.recognized msg).hardState) (role : c'.role = .follower)
    (heard : c'.heardFromLeader = true) (grants : NoNewGrant c c') :
    VoteMove c (.message msg) c' out := by
  have term : c'.currentTerm = msg.term := congrArg HardState.currentTerm state
  have vote : c'.votedFor = (c.recognized msg).votedFor := congrArg HardState.votedFor state
  cases h with
  | raised higher =>
    exact voteMove_of_recognized hterm term role vote heard
      (fun _ => ⟨_, hpr, congrArg some state.symm⟩) (fun hnot => absurd higher hnot) grants
  | same equal =>
    exact voteMove_of_recognized hterm term role vote heard (fun hlt => absurd equal hlt.ne')
      (by simp [hpr]) grants

theorem Outcome.voteMove {input : Input} {out : Output} (h : c.Outcome input c' out) :
    VoteMove c input c' out := by
  cases h with
  | ignore stores =>
    exact .stay rfl rfl (.inl ⟨rfl, rfl⟩) id (by simp [stores]) (noNewGrant_of_pending rfl)
  | wake voter =>
    exact .stay rfl rfl (.inl ⟨rfl, rfl⟩) (fun h => ⟨h.1, .inr voter⟩) (by simp)
      (noNewGrant_of_pending rfl)
  | campaign notLeader voter =>
    exact .campaign notLeader voter rfl rfl (.inl ⟨rfl, rfl⟩) ⟨_, rfl, rfl⟩
      (noNewGrant_of_pending rfl)
  | campaignWon notLeader voter won =>
    exact .campaign notLeader voter rfl rfl (.inr ⟨rfl, won⟩) ⟨_, rfl, rfl⟩
      (noNewGrant_of_pending rfl)
  | count body msgTerm candidate =>
    exact .count body msgTerm candidate rfl rfl (.inl ⟨candidate, rfl⟩) rfl
      (noNewGrant_of_pending rfl)
  | countWon body msgTerm candidate won =>
    exact .count body msgTerm candidate rfl rfl (.inr ⟨rfl, won⟩) rfl (noNewGrant_of_pending rfl)
  | adopt higher stores =>
    exact .adopt higher rfl rfl rfl ⟨_, stores, rfl⟩ (noNewGrant_of_pending rfl)
  | cast body heard voter free upToDate =>
    refine .cast body heard voter (free.imp_right fun h => ⟨h.1, h.2.1, h.2.2.2⟩) (fun hrole => ?_)
      upToDate rfl rfl ⟨_, rfl, rfl⟩ rfl
    exact free.symm.imp (fun h => h.2.2.1) fun h => h.2
  | replicate _ stores =>
    exact .stay rfl rfl (.inl ⟨rfl, rfl⟩) id (by simp [stores]) (noNewGrant_of_pending rfl)
  | append leads core =>
    subst core
    refine .stay rfl rfl (.inl ⟨rfl, rfl⟩) (fun hb => ?_) (by simp)
      (noNewGrant_of_append rfl (List.Subset.refl _) (by simp [PendingItem.isGrant]))
    rw [Blocked, leads] at hb
    exact absurd hb.1 (by simp)
  | record leads _ _ frame stores =>
    refine .stay frame.currentTerm frame.votedFor (frame.role.imp_right fun h => h.2)
      (fun hb => ?_) (by simp [stores]) (noNewGrant_of_pending frame.pending)
    rw [Blocked, leads] at hb
    exact absurd hb.1 (by simp)
  | reply term _ stores =>
    exact stores.voteMove rfl term rfl rfl rfl (noNewGrant_of_pending rfl)
  | store accepts core _ items =>
    subst core
    refine voteMove_of_recognized accepts.term rfl rfl rfl rfl (fun hhigher => ?_) (fun hnot => ?_)
      (noNewGrant_of_append rfl items fun _ => isGrant_of_mem_awaited)
    · exact ⟨_, rfl, by simp only [decide_eq_true hhigher, if_true]; rfl⟩
    · simp [hnot]
  | agree accepts equal =>
    exact voteMove_of_recognized accepts.term rfl rfl rfl rfl (fun hlt => absurd equal hlt.ne')
      (by simp) (noNewGrant_of_pending rfl)
  | install _ msgTerm _ _ stores =>
    exact stores.voteMove rfl msgTerm rfl rfl rfl (by simp [NoNewGrant])

end Core

end ChronicleDB.Raft
