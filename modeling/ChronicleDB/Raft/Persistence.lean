import ChronicleDB.Raft.Driver
import ChronicleDB.Raft.Logs

/-!
# Late completions

One core whose `PersistRequest`s are stored in order, but as late as the driver
likes.  The durable state is the effect of the requests that are complete.  Votes
leave only once they are durable.  Acknowledgements and the leader's own vote for
an entry do so if the core is given nothing that depends on its log while a write
to the log is outstanding: a second copy of a request, a reply of a follower or a
new term would bypass the queue of pending items.
-/

namespace ChronicleDB.Raft

open Foundation Consensus List Option Raft.Core Cluster

/-! ## Sessions -/

structure Session where
  core : Core
  store : Store
  outstanding : List PersistRequest
  deriving DecidableEq, Repr

def Session.open (store : Store) (cfg : Config) : Option Session :=
  (store.open cfg).map fun c => ⟨c, store, []⟩

namespace Session

def complete (s : Session) (seq : Nat) : Session :=
  ⟨(s.core.handlePersistenceComplete seq).1,
    (s.outstanding.filter (·.seq ≤ seq)).foldl PersistRequest.apply s.store,
    s.outstanding.filter (seq < ·.seq)⟩

/-- One input.  A completion stands for all requests up to its number, which must
have been made; a panic ends the session. -/
def step (s : Session) : Input → Option (Session × Output)
  | .persistenceComplete seq =>
    if seq ≤ s.core.persistSeq then
      some (s.complete seq, (s.core.handlePersistenceComplete seq).2)
    else none
  | input =>
    match s.core.step input with
    | .error _ => none
    | .ok r => some (⟨r.1, Cluster.storeOn s.store s.core input,
        s.outstanding ++ r.2.persistRequest.toList⟩, r.2)

theorem step_cases {s s' : Session} {input : Input} {out : Output}
    (h : s.step input = some (s', out)) :
    (∃ seq, input = .persistenceComplete seq ∧ seq ≤ s.core.persistSeq ∧
      s' = s.complete seq ∧ out = (s.core.handlePersistenceComplete seq).2) ∨
    ((∀ seq, input ≠ .persistenceComplete seq) ∧ s.core.step input = .ok (s'.core, out) ∧
      s'.store = storeOn s.store s.core input ∧
      s'.outstanding = s.outstanding ++ out.persistRequest.toList) := by
  unfold step at h
  split at h
  case h_1 seq =>
    split at h
    · cases h
      exact .inl ⟨seq, rfl, ‹_›, rfl, rfl⟩
    · cases h
  case h_2 hinput =>
    split at h
    · cases h
    case h_2 r hstep =>
      cases h
      exact .inr ⟨hinput, hstep, rfl, rfl⟩

/-! ## The other nodes -/

section Leaders

variable (llog : Nat → List Entry)

/-- What other nodes send, when `llog t` is all that the leader of term `t` ever has
in its log: requests hold pieces of it, and the boundary of a snapshot is an entry
of the leader of its term. -/
def HonestMessage (msg : Message) : Prop :=
  msg.sender ≠ noVote ∧
    match msg.body with
    | .appendEntriesRequest prev prevTerm entries _ => Segment (llog msg.term) prev prevTerm entries
    | .installSnapshotRequest index term _ _ =>
      index ≤ (llog term).length ∧ termAt (llog term) index = term
    | _ => True

/-- Messages are honest, and while the core leads, its log is the leader's. -/
structure Honest (input : Input) (s' : Session) : Prop where
  message : ∀ msg, input = .message msg → HonestMessage llog msg
  leads : s'.core.role = .leader → ∃ ℓ, s'.core.Shows ℓ ∧ ℓ <+: llog s'.core.currentTerm

inductive Run (allowed : Session → Input → Prop) : Session → Session → Prop where
  | refl (s : Session) : Run allowed s s
  | tail {s₀ s s' : Session} {input : Input} {out : Output} (run : Run allowed s₀ s)
      (ok : allowed s input) (step : s.step input = some (s', out))
      (honest : Honest llog input s') : Run allowed s₀ s'

end Leaders

/-! ## Votes -/

/-- A grant that waits is backed by an outstanding request, which no later one
contradicts while the term lasts. -/
structure Backed (s : Session) (p : PendingItem) (candidate : NodeID) : Prop where
  named : candidate ≠ noVote
  term : p.term ≤ s.core.currentTerm
  request : ∃ pr ∈ s.outstanding, pr.seq = p.seq ∧ pr.hardState = some ⟨p.term, candidate⟩
  vote : p.term = s.core.currentTerm →
    s.core.votedFor = candidate ∨ s.core.votedFor = noVote ∧ s.core.Blocked
  later : p.term = s.core.currentTerm → ∀ pr ∈ s.outstanding, p.seq ≤ pr.seq →
    ∀ hs, pr.hardState = some hs → hs = ⟨p.term, candidate⟩

structure Pledged (s : Session) : Prop where
  sorted : s.outstanding.Pairwise (·.seq < ·.seq)
  range : ∀ pr ∈ s.outstanding, s.core.persistedSeq < pr.seq ∧ pr.seq ≤ s.core.persistSeq
  seqs : s.core.persistedSeq ≤ s.core.persistSeq
  pending : ∀ p ∈ s.core.pending, s.core.persistedSeq < p.seq ∧ p.seq ≤ s.core.persistSeq
  backed : ∀ p ∈ s.core.pending, ∀ candidate, p.kind = .voteGrant candidate →
    s.Backed p candidate

def GrantsStored (s' : Session) (out : Output) : Prop :=
  ∀ m ∈ out.messages, m.body = .requestVoteResponse true →
    s'.store.hardState = ⟨m.term, m.receiver⟩

theorem isGrant_of_kind {p : PendingItem} {candidate : NodeID}
    (h : p.kind = .voteGrant candidate) : p.isGrant = true := by rw [PendingItem.isGrant, h]

section Inputs

variable {s s' : Session} {input : Input} {out : Output}

theorem Pledged.later_seq (h : s.Pledged) (hnum : s.core.Numbered s'.core out) :
    ∀ pr, out.persistRequest = some pr → ∀ q ∈ s.outstanding, q.seq < pr.seq := by
  intro pr hpr q hq
  have := (h.range q hq).2
  obtain ⟨-, -, ⟨hnone, -⟩ | ⟨pr', hpr', hseq, -⟩⟩ := hnum
  · rw [hnone] at hpr
    cases hpr
  · rw [hpr'] at hpr
    cases hpr
    omega

theorem Pledged.sorted_step (h : s.Pledged) (hnum : s.core.Numbered s'.core out)
    (hout : s'.outstanding = s.outstanding ++ out.persistRequest.toList) :
    s'.outstanding.Pairwise (·.seq < ·.seq) := by
  rw [hout]
  refine pairwise_append.mpr ⟨h.sorted, ?_, fun q hq pr hpr => ?_⟩
  · cases out.persistRequest <;> simp
  · exact h.later_seq hnum pr (mem_toList.mp hpr) q hq

theorem Pledged.range_step (h : s.Pledged) (hnum : s.core.Numbered s'.core out)
    (hout : s'.outstanding = s.outstanding ++ out.persistRequest.toList) :
    ∀ pr ∈ s'.outstanding, s'.core.persistedSeq < pr.seq ∧ pr.seq ≤ s'.core.persistSeq := by
  intro pr hpr
  have hseqs := h.seqs
  rw [hout] at hpr
  obtain ⟨-, hsame, ⟨hnone, hseq⟩ | ⟨pr', hpr', hprseq, hseq⟩⟩ := hnum
  · rw [hnone] at hpr
    have := h.range pr (by simpa using hpr)
    omega
  · rw [hpr'] at hpr
    rcases mem_append.mp hpr with hpr | hpr
    · have := h.range pr hpr
      omega
    · have : pr = pr' := by simpa using hpr
      subst this
      omega

theorem Backed.step {p : PendingItem} {candidate : NodeID} (h : s.Backed p candidate)
    (hout : s'.outstanding = s.outstanding ++ out.persistRequest.toList)
    (hle : s.core.currentTerm ≤ s'.core.currentTerm)
    (hvote : s'.core.currentTerm = s.core.currentTerm →
      s'.core.votedFor = s.core.votedFor ∧ (s.core.Blocked → s'.core.Blocked) ∨
      s'.core.votedFor = noVote ∧ s'.core.Blocked)
    (hhs : s'.core.currentTerm = s.core.currentTerm →
      ∀ pr, out.persistRequest = some pr → ∀ hs, pr.hardState = some hs → hs = ⟨p.term, candidate⟩) :
    s'.Backed p candidate := by
  refine ⟨h.named, h.term.trans hle, ?_, fun hterm => ?_, fun hterm pr hpr hseq hs hpr' => ?_⟩
  · obtain ⟨pr, hpr, hrest⟩ := h.request
    exact ⟨pr, by rw [hout]; simp [hpr], hrest⟩
  · have hsame : s'.core.currentTerm = s.core.currentTerm := by have := h.term; omega
    rcases hvote hsame with ⟨hv, hb⟩ | hcleared
    · rw [hv]
      exact (h.vote (hterm.trans hsame)).imp_right fun h => ⟨h.1, hb h.2⟩
    · exact .inr hcleared
  · have hsame : s'.core.currentTerm = s.core.currentTerm := by have := h.term; omega
    rw [hout] at hpr
    rcases mem_append.mp hpr with hpr | hpr
    · exact h.later (hterm.trans hsame) pr hpr hseq hs hpr'
    · exact hhs hsame pr (mem_toList.mp hpr) hs hpr'

theorem Pledged.pending_step (h : s.Pledged) (hinput : ∀ seq, input ≠ .persistenceComplete seq)
    (hstep : s.core.step input = .ok (s'.core, out)) :
    ∀ p ∈ s'.core.pending, s'.core.persistedSeq < p.seq ∧ p.seq ≤ s'.core.persistSeq := by
  intro p hp
  have hseqs := h.seqs
  have hnum : s.core.Numbered s'.core out := (step_outcome hstep hinput).numbered
  obtain ⟨-, hsame, hnext⟩ := hnum
  rcases (step_effect hstep hinput).pending hp with hp | ⟨hseq, hsome⟩
  · have := h.pending p hp
    rcases hnext with ⟨-, hnext⟩ | ⟨-, -, -, hnext⟩
    · omega
    · omega
  · rcases hnext with ⟨hnone, -⟩ | ⟨pr, -, -, hnext⟩
    · rw [hnone] at hsome
      cases hsome
    · omega

/-- A step other than a completion keeps every waiting grant backed. -/
theorem Pledged.backed_step (h : s.Pledged) (hinput : ∀ seq, input ≠ .persistenceComplete seq)
    (hstep : s.core.step input = .ok (s'.core, out))
    (hout : s'.outstanding = s.outstanding ++ out.persistRequest.toList)
    (hsender : ∀ msg, input = .message msg → msg.sender ≠ noVote) :
    ∀ p ∈ s'.core.pending, ∀ candidate, p.kind = .voteGrant candidate → s'.Backed p candidate := by
  intro p hp candidate hkind
  have hgrant := isGrant_of_kind hkind
  have hnum : s.core.Numbered s'.core out := (step_outcome hstep hinput).numbered
  have hmove : s.core.VoteMove input s'.core out := (step_outcome hstep hinput).voteMove
  cases hmove with
  | stay term vote _ blocked hs grants =>
    refine (h.backed p (grants p hp hgrant) candidate hkind).step hout term.ge
      (fun _ => .inl ⟨vote, blocked⟩) fun _ pr hpr hs' hpr' => ?_
    rw [hs pr hpr] at hpr'
    cases hpr'
  | clear term _ vote blocked hs grants =>
    refine (h.backed p (grants p hp hgrant) candidate hkind).step hout term.ge
      (fun _ => .inr ⟨vote, blocked⟩) fun _ pr hpr hs' hpr' => ?_
    rw [hs pr hpr] at hpr'
    cases hpr'
  | adopt higher term _ _ _ grants =>
    exact (h.backed p (grants p hp hgrant) candidate hkind).step hout (by omega)
      (fun hsame => by omega) (fun hsame => by omega)
  | campaign _ _ term _ _ _ grants =>
    exact (h.backed p (grants p hp hgrant) candidate hkind).step hout (by omega)
      (fun hsame => by omega) (fun hsame => by omega)
  | count _ _ role term vote _ hs grants =>
    refine (h.backed p (grants p hp hgrant) candidate hkind).step hout term.ge
      (fun _ => .inl ⟨vote, fun hb => ?_⟩) (by simp [hs])
    rw [Core.Blocked, role] at hb
    exact absurd hb.1 (by simp)
  | @cast msg _ _ _ _ _ heard voter free _ _ term vote hs pending =>
    obtain ⟨pr, hpr, hprhs⟩ := hs
    have hhard : s'.core.hardState = ⟨msg.term, msg.sender⟩ := by
      rw [hardState, term, vote]
    rw [hhard] at hprhs
    obtain ⟨-, -, ⟨hnone, -⟩ | ⟨pr', hpr', hprseq, hnext⟩⟩ := hnum
    · rw [hnone] at hpr
      cases hpr
    rw [hpr] at hpr'
    cases hpr'
    rw [pending] at hp
    rcases mem_append.mp hp with hp | hp
    · -- a grant of this term was for the same candidate: the core is not blocked
      have hbacked := h.backed p hp candidate hkind
      have hsame : s'.core.currentTerm = s.core.currentTerm → p.term = s.core.currentTerm →
          msg.sender = candidate := by
        intro hsame hpterm
        rcases free with ⟨hlt, -⟩ | ⟨-, -, hfree⟩
        · omega
        rcases hbacked.vote hpterm with hv | ⟨-, -, hblocked⟩
        · rw [hv] at hfree
          exact (hfree.resolve_left hbacked.named).symm
        · rw [heard, voter] at hblocked
          simp at hblocked
      by_cases hpterm : p.term = s'.core.currentTerm
      · have hle : s.core.currentTerm ≤ s'.core.currentTerm := by
          rcases free with ⟨hlt, -⟩ | ⟨heq, -⟩ <;> omega
        have hterm : s'.core.currentTerm = s.core.currentTerm := by
          have := hbacked.term
          omega
        have hcand := hsame hterm (by omega)
        refine ⟨hbacked.named, hpterm.le, ?_, fun _ => .inl (vote.trans hcand), ?_⟩
        · obtain ⟨q, hq, hrest⟩ := hbacked.request
          exact ⟨q, by rw [hout]; simp [hq], hrest⟩
        · intro _ q hq hseq hs' hqhs
          rw [hout, hpr] at hq
          rcases mem_append.mp hq with hq | hq
          · exact hbacked.later (by omega) q hq hseq hs' hqhs
          · rw [show q = pr by simpa using hq, hprhs] at hqhs
            cases hqhs
            rw [hcand, hpterm, term]
      · refine ⟨hbacked.named, ?_, ?_, fun h => absurd h hpterm, fun h => absurd h hpterm⟩
        · have := hbacked.term
          rcases free with ⟨hlt, -⟩ | ⟨heq, -⟩ <;> omega
        · obtain ⟨q, hq, hrest⟩ := hbacked.request
          exact ⟨q, by rw [hout]; simp [hq], hrest⟩
    · -- the new grant
      rw [mem_singleton.mp hp] at hkind ⊢
      cases hkind
      refine ⟨hsender msg rfl, term.ge, ⟨pr, by rw [hout, hpr]; simp, hprseq.trans hnext.symm, hprhs⟩,
        fun _ => .inl vote, ?_⟩
      intro _ q hq hseq hs' hqhs
      rw [hout, hpr] at hq
      rcases mem_append.mp hq with hq | hq
      · have := (h.range q hq).2
        dsimp only at hseq
        omega
      · rw [show q = pr by simpa using hq, hprhs] at hqhs
        cases hqhs
        rfl

theorem Pledged.step_input (h : s.Pledged) (hinput : ∀ seq, input ≠ .persistenceComplete seq)
    (hstep : s.core.step input = .ok (s'.core, out))
    (hout : s'.outstanding = s.outstanding ++ out.persistRequest.toList)
    (hsender : ∀ msg, input = .message msg → msg.sender ≠ noVote) : s'.Pledged := by
  have hnum : s.core.Numbered s'.core out := (step_outcome hstep hinput).numbered
  refine ⟨h.sorted_step hnum hout, h.range_step hnum hout, ?_, h.pending_step hinput hstep,
    h.backed_step hinput hstep hout hsender⟩
  have := h.seqs
  obtain ⟨-, hsame, ⟨-, hnext⟩ | ⟨-, -, -, hnext⟩⟩ := hnum <;> omega

end Inputs

section Completions

variable {s : Session} {seq : Nat}

theorem Pledged.le_of_completed (h : s.Pledged) {p : PendingItem}
    (hp : p ∈ s.core.completed seq) : p ∈ s.core.pending ∧ p.seq ≤ seq := by
  obtain ⟨hp, hle⟩ := mem_filter.mp hp
  have := h.pending p hp
  have hle : p.seq ≤ max s.core.persistedSeq seq := of_decide_eq_true hle
  exact ⟨hp, by omega⟩

theorem Pledged.complete (h : s.Pledged) (hseq : seq ≤ s.core.persistSeq) :
    (s.complete seq).Pledged := by
  obtain ⟨hframe, -⟩ := s.core.handlePersistenceComplete_spec seq
  have hpersisted : (s.complete seq).core.persistedSeq = max s.core.persistedSeq seq :=
    hframe.persistedSeq
  have hpersist : (s.complete seq).core.persistSeq = s.core.persistSeq := hframe.persistSeq
  have hterm : (s.complete seq).core.currentTerm = s.core.currentTerm := hframe.currentTerm
  have hseqs := h.seqs
  refine ⟨h.sorted.filter _, fun pr hpr => ?_, by omega, fun p hp => ?_, fun p hp cand hkind => ?_⟩
  · obtain ⟨hpr, hlt⟩ := mem_filter.mp hpr
    have := h.range pr hpr
    have hlt : seq < pr.seq := of_decide_eq_true hlt
    omega
  · have hp := hframe.pending ▸ hp
    obtain ⟨hp, hlt⟩ := mem_filter.mp hp
    have := h.pending p hp
    have hlt : max s.core.persistedSeq seq < p.seq := of_decide_eq_true hlt
    omega
  · have hp := hframe.pending ▸ hp
    obtain ⟨hp, hlt⟩ := mem_filter.mp hp
    have hlt : max s.core.persistedSeq seq < p.seq := of_decide_eq_true hlt
    have hbacked := h.backed p hp cand hkind
    refine ⟨hbacked.named, by rw [hterm]; exact hbacked.term, ?_, fun hpterm => ?_, ?_⟩
    · obtain ⟨pr, hpr, hprseq, hhs⟩ := hbacked.request
      exact ⟨pr, mem_filter.mpr ⟨hpr, decide_eq_true (by omega)⟩, hprseq, hhs⟩
    · refine (hbacked.vote (hpterm.trans hterm)).imp (fun hv => hframe.votedFor.trans hv)
        fun ⟨hv, hrole, hrest⟩ => ⟨hframe.votedFor.trans hv, ?_, ?_⟩
      · rcases hframe.role with hr | hr
        · exact hr.1.trans hrole
        · exact hr.2
      · have hheard := hframe.heardFromLeader
        have hconfig := hframe.activeConfig
        have hcfg := hframe.cfg
        simp only [Session.complete] at hheard hconfig hcfg ⊢
        rw [hheard, hconfig, hcfg]
        exact hrest
    · intro hpterm pr hpr
      exact hbacked.later (hpterm.trans hterm) pr (mem_filter.mp hpr).1

theorem Pledged.grantsStored (h : s.Pledged) :
    (s.complete seq).GrantsStored (s.core.handlePersistenceComplete seq).2 := by
  obtain ⟨-, hms, -⟩ := s.core.handlePersistenceComplete_spec seq
  intro m hm hbody
  obtain ⟨p, hp, hemits⟩ := hms m hm
  obtain ⟨hp, hle⟩ := h.le_of_completed hp
  cases hemits with
  | ack => cases hbody
  | grant kind term vote =>
    have hbacked := h.backed p hp _ kind
    obtain ⟨pr, hpr, hseq, hhs⟩ := hbacked.request
    rw [← term] at hhs
    refine PersistRequest.foldl_apply_hardState_of_mem (h.sorted.filter _)
      (mem_filter.mpr ⟨hpr, decide_eq_true (by omega)⟩) hhs (fun q hq hle' hs hqhs => ?_) _
    rw [term]
    exact hbacked.later term.symm q (mem_filter.mp hq).1 (by omega) hs hqhs

end Completions

/-! ## The log -/

def Settled (s : Session) : Prop :=
  (∀ pr ∈ s.outstanding, pr.Idle) ∧ ∀ p ∈ s.core.pending, p.isGrant = true

/-- Inputs that neither depend on the log nor change the term. -/
def passes (c : Core) : Input → Bool
  | .heartbeatTimeout => true
  | .persistenceComplete _ => true
  | .electionTimeout => c.role = .leader || !c.activeConfig.isVoter c.cfg.id
  | .propose _ => c.role ≠ .leader
  | .message msg => msg.term < c.currentTerm || msg.term = c.currentTerm &&
      match msg.body with
      | .requestVoteRequest .. => true
      | .requestVoteResponse _ => true
      | .appendEntriesResponse success .. => !success
      | .installSnapshotResponse success _ => !success
      | _ => false

/-- While a write to the log is outstanding, only inputs that pass are handled. -/
def Calm (s : Session) (input : Input) : Prop := s.Settled ∨ passes s.core input = true

/-- The store holds the leader's entries above its boundary up to `m`. -/
def AgreesThrough (store : Store) (M : List Entry) (m : Nat) : Prop :=
  ∀ i, store.boundaryIndex < i → i ≤ m →
    ∃ e, store.entries[i - store.boundaryIndex - 1]? = some e ∧ M[i - 1]? = some e

section Passing

variable {c c' : Core} {input : Input} {out : Output}

theorem passes_message {msg : Message} (h : passes c (.message msg) = true) :
    msg.term ≤ c.currentTerm ∧ (c.currentTerm ≤ msg.term →
      (∀ i, ¬ Core.Reports msg i) ∧
      (∀ prev prevTerm entries commit,
        msg.body ≠ .appendEntriesRequest prev prevTerm entries commit) ∧
      ∀ index term cfg hasCfg, msg.body ≠ .installSnapshotRequest index term cfg hasCfg) := by
  simp only [passes, Bool.or_eq_true, Bool.and_eq_true, decide_eq_true_eq] at h
  rcases h with h | ⟨h, hbody⟩
  · exact ⟨h.le, fun h' => absurd h (by omega)⟩
  · refine ⟨h.le, fun _ => ?_⟩
    cases hb : msg.body <;> simp_all [Core.Reports, Message.Acks]

theorem passes_term (h : passes c input = true) (hmove : c.VoteMove input c' out) :
    c'.currentTerm = c.currentTerm := by
  cases hmove with
  | stay term => exact term
  | clear term => exact term
  | adopt higher => exact absurd (passes_message h).1 (by omega)
  | campaign notLeader voter => simp [passes, notLeader, voter] at h
  | count _ _ _ term => exact term
  | cast _ _ _ free _ _ term =>
    have := (passes_message h).1
    rcases free with ⟨hlt, -⟩ | ⟨heq, -⟩ <;> omega

theorem passes_commit (h : passes c input = true) (hmove : c.CommitMove input c' out) :
    c'.commitIndex = c.commitIndex := by
  cases hmove with
  | keep commit => exact commit
  | leader _ msgTerm body => exact absurd body (((passes_message h).2 msgTerm.ge).1 _)
  | follower accepts => exact absurd accepts.body (((passes_message h).2 accepts.term).2.1 _ _ _ _)
  | install body msgTerm => exact absurd body (((passes_message h).2 msgTerm).2.2 _ _ _ _)

end Passing

def HoldsThrough (c : Core) (M : List Entry) (m : Nat) : Prop :=
  ∀ i, c.snapshotIndex < i → i ≤ m →
    ∃ e, c.log[i - c.snapshotIndex - 1]? = some e ∧ M[i - 1]? = some e

theorem HoldsThrough.congr {c c' : Core} {M : List Entry} {m : Nat} (h : HoldsThrough c M m)
    (hlog : c'.log = c.log) (hboundary : Core.SameBoundary c c') : HoldsThrough c' M m := by
  rw [HoldsThrough, hlog, hboundary.1]
  exact h

theorem holdsThrough_of_initial {c : Core} {ℓ M : List Entry} {m : Nat} (h : c.Shows ℓ)
    (hpre : M.take m <+: ℓ) (hm : m ≤ M.length) : HoldsThrough c M m := by
  intro i hi him
  obtain ⟨e, he⟩ : ∃ e, M[i - 1]? = some e := ⟨_, List.getElem?_eq_getElem (by omega)⟩
  refine ⟨e, ?_, he⟩
  have htake : (M.take m)[i - 1]? = some e := by
    rw [List.getElem?_take, if_pos (by omega), he]
  obtain ⟨rest, rfl⟩ := hpre
  have hlen : i - 1 < (M.take m).length := (List.getElem?_eq_some_iff.mp htake).1
  rw [h.log, List.getElem?_drop, show c.snapshotIndex + (i - c.snapshotIndex - 1) = i - 1 by omega,
    List.getElem?_append_left hlen, htake]

/-- Once all requests are stored, the store holds the core's log. -/
structure Mirrored (llog : Nat → List Entry) (s : Session) : Prop where
  entries : (s.outstanding.foldl PersistRequest.apply s.store).entries = s.core.log
  boundary : s.store.boundaryIndex = s.core.snapshotIndex
  whole : ∃ ℓ, s.core.Shows ℓ ∧ Sound llog ℓ
  acks : ∀ p ∈ s.core.pending, ∀ receiver i t, p.kind = .appendAck receiver i t →
    HoldsThrough s.core (llog s.core.currentTerm) i
  last : ∀ p ∈ s.core.pending, p.isGrant = false → ∀ pr ∈ s.outstanding, ¬ pr.Idle → pr.seq ≤ p.seq

theorem isGrant_of_appendAck {p : PendingItem} {receiver : NodeID} {i t : Nat}
    (h : p.kind = .appendAck receiver i t) : p.isGrant = false := by rw [PendingItem.isGrant, h]

section Calm

variable {llog : Nat → List Entry} {s s' : Session} {input : Input} {out : Output}

theorem Mirrored.entries_of_idle (h : Mirrored llog s) (hidle : ∀ pr ∈ s.outstanding, pr.Idle) :
    s.store.entries = s.core.log := by
  rw [← h.entries, PersistRequest.foldl_apply_entries hidle]

theorem Mirrored.agrees (h : Mirrored llog s) (hidle : ∀ pr ∈ s.outstanding, pr.Idle)
    {M : List Entry} {m : Nat} (hholds : HoldsThrough s.core M m) :
    AgreesThrough s.store M m := by
  rw [AgreesThrough, h.boundary, h.entries_of_idle hidle]
  exact hholds

theorem Mirrored.keep (h : Mirrored llog s) (hcalm : s.Calm input)
    (hinput : ∀ seq, input ≠ .persistenceComplete seq)
    (hstep : s.core.step input = .ok (s'.core, out))
    (hstore : s'.store = storeOn s.store s.core input)
    (hout : s'.outstanding = s.outstanding ++ out.persistRequest.toList)
    (hlog : s'.core.log = s.core.log) (hboundary : Core.SameBoundary s.core s'.core)
    (hidle : ∀ pr, out.persistRequest = some pr → pr.Idle)
    (hpending : ∀ p ∈ s'.core.pending, p.isGrant = true ∨ p ∈ s.core.pending) :
    Mirrored llog s' := by
  have hnew : ∀ pr ∈ out.persistRequest.toList, pr.Idle :=
    fun pr hpr => hidle pr (mem_toList.mp hpr)
  have hold : ∀ p ∈ s'.core.pending, p.isGrant = false → p ∈ s.core.pending := by
    intro p hp hgrant
    exact (hpending p hp).resolve_left (by simp [hgrant])
  rw [storeOn_eq_self s.store hstep hboundary.1] at hstore
  refine ⟨?_, ?_, ?_, fun p hp receiver i t hkind => ?_, fun p hp hgrant pr hpr hnot => ?_⟩
  · rw [hout, hstore, foldl_append, PersistRequest.foldl_apply_entries hnew, h.entries, hlog]
  · rw [hstore, h.boundary, hboundary.1]
  · obtain ⟨ℓ, hshows, hsound⟩ := h.whole
    exact ⟨ℓ, hshows.congr hlog hboundary, hsound⟩
  · -- an acknowledgement waits, so the term is as it was
    have hgrant := isGrant_of_appendAck hkind
    have hmem := hold p hp hgrant
    have hpass : passes s.core input = true := by
      refine hcalm.resolve_left fun hsettled => ?_
      rw [hsettled.2 p hmem] at hgrant
      cases hgrant
    have hterm : s'.core.currentTerm = s.core.currentTerm :=
      passes_term hpass ((step_outcome hstep hinput).voteMove)
    rw [hterm]
    exact (h.acks p hmem receiver i t hkind).congr hlog hboundary
  · rw [hout] at hpr
    rcases mem_append.mp hpr with hpr | hpr
    · exact h.last p (hold p hp hgrant) hgrant pr hpr hnot
    · exact absurd (hnew pr hpr) hnot

theorem Pledged.last_step (hpledged : s.Pledged)
    (hnum : s.core.Numbered s'.core out)
    (hout : s'.outstanding = s.outstanding ++ out.persistRequest.toList)
    {p : PendingItem} (hseq : p.seq = s'.core.persistSeq) :
    ∀ pr ∈ s'.outstanding, ¬ pr.Idle → pr.seq ≤ p.seq := by
  intro pr hpr _
  rw [hseq]
  exact (hpledged.range_step hnum hout pr hpr).2

theorem Mirrored.append (h : Mirrored llog s) (hpledged : s.Pledged) (hsettled : s.Settled)
    (hinput : ∀ seq, input ≠ .persistenceComplete seq)
    (hstep : s.core.step input = .ok (s'.core, out))
    (hstore : s'.store = storeOn s.store s.core input)
    (hout : s'.outstanding = s.outstanding ++ out.persistRequest.toList)
    (hleads : ∃ ℓ, s'.core.Shows ℓ ∧ Sound llog ℓ) {e : Entry}
    (hlog : s'.core.log = s.core.log ++ [e]) (hboundary : Core.SameBoundary s.core s'.core)
    (hpr : out.persistRequest = some ⟨s'.core.persistSeq, none, none, [e]⟩)
    (hpending : s'.core.pending =
      s.core.pending ++ [⟨s'.core.persistSeq, s.core.currentTerm, .selfMatch e.index e.term⟩]) :
    Mirrored llog s' := by
  have hnum : s.core.Numbered s'.core out := (step_outcome hstep hinput).numbered
  have hnew : ∀ p ∈ s'.core.pending, p.isGrant = false →
      p = ⟨s'.core.persistSeq, s.core.currentTerm, .selfMatch e.index e.term⟩ := by
    intro p hp hgrant
    rw [hpending] at hp
    rcases mem_append.mp hp with hp | hp
    · rw [hsettled.2 p hp] at hgrant
      cases hgrant
    · exact mem_singleton.mp hp
  rw [storeOn_eq_self s.store hstep hboundary.1] at hstore
  refine ⟨?_, ?_, hleads, fun p hp receiver i t hkind => ?_, fun p hp hgrant => ?_⟩
  · rw [hout, hstore, hpr, foldl_append, hlog, ← h.entries]
    exact PersistRequest.apply_entries _ _
  · rw [hstore, h.boundary, hboundary.1]
  · rw [hnew p hp (isGrant_of_appendAck hkind)] at hkind
    cases hkind
  · rw [hnew p hp hgrant]
    exact hpledged.last_step hnum hout rfl

theorem Mirrored.accept (h : Mirrored llog s) (hllog : ∀ t, Sound llog (llog t))
    (hpledged : s.Pledged) (hsettled : s.Settled) {msg : Message}
    (hmessage : HonestMessage llog msg)
    (hstep : s.core.step (.message msg) = .ok (s'.core, out))
    (hstore : s'.store = storeOn s.store s.core (.message msg))
    (hout : s'.outstanding = s.outstanding ++ out.persistRequest.toList)
    {prev commit : Nat} {entries new : List Entry} {truncateFrom : Option Nat}
    (haccepts : s.core.Accepts msg prev entries commit truncateFrom new)
    (hlog : s'.core.log = s.core.logWith truncateFrom new)
    (hboundary : Core.SameBoundary s.core s'.core) (hterm : s'.core.currentTerm = msg.term)
    (hstores : ∀ pr, out.persistRequest = some pr →
      pr.seq = s'.core.persistSeq ∧ pr.truncateFrom = truncateFrom ∧ pr.entries = new)
    (hidle : out.persistRequest = none → truncateFrom = none ∧ new = [])
    (hpending : ∀ p ∈ s'.core.pending, p ∈ s.core.pending ∨ p.seq = s'.core.persistSeq ∧
      (p.kind = .appendAck msg.sender (prev + entries.length)
          (s'.core.termAt (prev + entries.length)) ∨
        p.kind = .commitAdvance (min commit (prev + entries.length))
          (s'.core.termAt (min commit (prev + entries.length))))) :
    Mirrored llog s' ∧ HoldsThrough s'.core (llog msg.term) (prev + entries.length) := by
  have hnum : s.core.Numbered s'.core out := (step_outcome hstep (by simp)).numbered
  obtain ⟨ℓ, hshows, hsound⟩ := h.whole
  have hseg : Segment (llog msg.term) prev (s.core.termAt prev) entries := by
    have := hmessage.2
    rwa [haccepts.body] at this
  have hlast : prev + entries.length ≤ (llog msg.term).length := by
    have := hseg.entries.length_le
    have := hseg.le
    rw [length_drop] at *
    omega
  obtain ⟨ℓ', hshows', hfollowed⟩ :=
    haccepts.followed hshows hsound (hllog msg.term) hseg hlog hboundary
  have hwhole : Sound llog ℓ' ∧ (llog msg.term).take (prev + entries.length) <+: ℓ' := by
    rcases hfollowed.result with ⟨-, rfl, hpre⟩ | ⟨-, rfl⟩
    · exact ⟨hsound, hpre⟩
    · exact ⟨(hllog msg.term).of_initial ( take_prefix _ _), prefix_rfl⟩
  have hholds := holdsThrough_of_initial hshows' hwhole.2 hlast
  have hnew : ∀ p ∈ s'.core.pending, p.isGrant = false → p.seq = s'.core.persistSeq ∧
      (p.kind = .appendAck msg.sender (prev + entries.length)
          (s'.core.termAt (prev + entries.length)) ∨
        p.kind = .commitAdvance (min commit (prev + entries.length))
          (s'.core.termAt (min commit (prev + entries.length)))) := by
    intro p hp hgrant
    refine (hpending p hp).resolve_left fun hp => ?_
    rw [hsettled.2 p hp] at hgrant
    cases hgrant
  rw [storeOn_eq_self s.store hstep hboundary.1] at hstore
  refine ⟨⟨?_, ?_, ⟨ℓ', hshows', hwhole.1⟩, fun p hp receiver i t hkind => ?_,
    fun p hp hgrant => ?_⟩, hholds⟩
  · rw [hout, hstore, hlog, foldl_append]
    cases hpr : out.persistRequest with
    | none =>
      obtain ⟨rfl, rfl⟩ := hidle hpr
      rw [logWith, append_nil]
      exact h.entries
    | some pr =>
      obtain ⟨-, htrunc, hnew⟩ := hstores pr hpr
      refine (PersistRequest.apply_entries _ pr).trans ?_
      rw [htrunc, hnew, h.entries, PersistRequest.foldl_apply_boundaryIndex, h.boundary]
      cases truncateFrom with
      | none => rfl
      | some idx => rfl
  · rw [hstore, h.boundary, hboundary.1]
  · obtain ⟨-, hack | hcommit⟩ := hnew p hp (isGrant_of_appendAck hkind)
    · rw [hack] at hkind
      cases hkind
      rw [hterm]
      exact hholds
    · rw [hcommit] at hkind
      cases hkind
  · exact hpledged.last_step hnum hout (hnew p hp hgrant).1

theorem Mirrored.install (hllog : ∀ t, Sound llog (llog t)) (hsettled : s.Settled) {msg : Message}
    {index term : Nat} {cfg : Configuration} {hasCfg : Bool}
    (hbody : msg.body = .installSnapshotRequest index term cfg hasCfg)
    (hmessage : HonestMessage llog msg)
    (hterm : s.core.currentTerm ≤ msg.term) (habove : s.core.snapshotIndex < index)
    (hnew : s.core.commitIndex < index)
    (hstore : s'.store = storeOn s.store s.core (.message msg))
    (hout : s'.outstanding = s.outstanding ++ out.persistRequest.toList)
    (hlog : s'.core.log = []) (hindex : s'.core.snapshotIndex = index)
    (hboundary : s'.core.snapshotTerm = term)
    (hidle : ∀ pr, out.persistRequest = some pr → pr.Idle) (hpending : s'.core.pending = []) :
    Mirrored llog s' := by
  have hinstalled : s'.store = s.store.install index term cfg hasCfg := by
    rw [hstore, storeOn, storeFor, hbody]
    exact if_pos ⟨hterm, habove, hnew⟩
  have hall : ∀ pr ∈ s'.outstanding, pr.Idle := by
    intro pr hpr
    rw [hout] at hpr
    rcases mem_append.mp hpr with hpr | hpr
    · exact hsettled.1 pr hpr
    · exact hidle pr (mem_toList.mp hpr)
  have hentry : index ≤ (llog term).length ∧ termAt (llog term) index = term := by
    have := hmessage.2
    rwa [hbody] at this
  refine ⟨?_, ?_, ⟨(llog term).take index, ?_, ?_⟩, by simp [hpending], by simp [hpending]⟩
  · rw [PersistRequest.foldl_apply_entries hall, hinstalled, hlog]
    rfl
  · rw [hinstalled, hindex]
    rfl
  · exact .install hentry.1 hlog hindex (hboundary.trans hentry.2.symm)
  · exact (hllog term).of_initial ( take_prefix _ _)

theorem Mirrored.step_input (h : Mirrored llog s) (hllog : ∀ t, Sound llog (llog t))
    (hpledged : s.Pledged) (hcalm : s.Calm input) (hhonest : Honest llog input s')
    (hinput : ∀ seq, input ≠ .persistenceComplete seq)
    (hstep : s.core.step input = .ok (s'.core, out))
    (hstore : s'.store = storeOn s.store s.core input)
    (hout : s'.outstanding = s.outstanding ++ out.persistRequest.toList) :
    Mirrored llog s' ∧
      ∀ m ∈ out.messages, ∀ i, m.Acks i → AgreesThrough s'.store (llog m.term) i := by
  have hmove : s.core.LogMove input s'.core out := (step_outcome hstep hinput).logMove
  cases hmove with
  | keep hlog hboundary hidle hacks hpending =>
    have h' := h.keep hcalm hinput hstep hstore hout hlog hboundary hidle hpending
    refine ⟨h', fun m hm i hi => ?_⟩
    -- a request below the boundary: there is nothing above it to agree on
    rw [(hacks m hm i hi).1, ← hboundary.1, ← h'.boundary]
    intro j hj hj'
    omega
  | append hleader _ _ _ hrole hlog hboundary hstores hacks hpending =>
    have hsettled : s.Settled := hcalm.resolve_right (by simp [passes, hleader])
    obtain ⟨ℓ, hshows, hpre⟩ := hhonest.leads hrole
    exact ⟨h.append hpledged hsettled hinput hstep hstore hout
      ⟨ℓ, hshows, (hllog _).of_initial hpre⟩ hlog hboundary hstores hpending,
      fun m hm i hi => absurd hi (hacks m hm i)⟩
  | accept haccepts hlog hboundary hterm _ hstores hidle hacks hpending =>
    have hsettled : s.Settled := hcalm.resolve_right fun hpass =>
      absurd haccepts.body (((passes_message hpass).2 haccepts.term).2.1 _ _ _ _)
    obtain ⟨h', hholds⟩ := h.accept hllog hpledged hsettled (hhonest.message _ rfl) hstep hstore
      hout haccepts hlog hboundary hterm hstores (fun hnone => ⟨(hidle hnone).1, (hidle hnone).2.1⟩)
      fun p hp => (hpending p hp).imp_right fun hnew => ⟨hnew.2.1, hnew.2.2.2⟩
    refine ⟨h', fun m hm i hi => ?_⟩
    obtain ⟨hnone, rfl, hmterm⟩ := hacks m hm i hi
    rw [hmterm]
    refine h'.agrees (fun pr hpr => hsettled.1 pr ?_) hholds
    simpa [hout, hnone] using hpr
  | install hbody hterm habove hnew hlog hindex hboundary _ _ _ _ hidle hacks hpending =>
    have hsettled : s.Settled := hcalm.resolve_right fun hpass =>
      absurd hbody (((passes_message hpass).2 hterm).2.2 _ _ _ _)
    exact ⟨.install hllog hsettled hbody (hhonest.message _ rfl) hterm habove hnew hstore hout hlog
      hindex hboundary hidle hpending, fun m hm i hi => absurd hi (hacks m hm i)⟩

theorem Pledged.split (h : s.Pledged) (seq : Nat) :
    s.outstanding.filter (·.seq ≤ seq) ++ s.outstanding.filter (seq < ·.seq) = s.outstanding := by
  have hsorted := h.sorted
  generalize s.outstanding = prs at hsorted
  induction prs with
  | nil => rfl
  | cons pr prs ih =>
    rw [pairwise_cons] at hsorted
    by_cases hle : pr.seq ≤ seq
    · rw [filter_cons_of_pos (by simpa using hle),
        filter_cons_of_neg (by simpa using hle), cons_append, ih hsorted.2]
    · have hall : ∀ q ∈ prs, seq < q.seq := fun q hq => by have := hsorted.1 q hq; omega
      rw [filter_cons_of_neg (by simpa using hle), filter_cons_of_pos (by simpa using hle),
        filter_eq_nil_iff.mpr (by simpa using hall),
        filter_eq_self.mpr (by simpa using hall), nil_append]

theorem Mirrored.complete (h : Mirrored llog s) (hpledged : s.Pledged) (seq : Nat) :
    Mirrored llog (s.complete seq) := by
  obtain ⟨hframe, -⟩ := s.core.handlePersistenceComplete_spec seq
  have hlog : (s.complete seq).core.log = s.core.log := hframe.log
  have hboundary : Core.SameBoundary s.core (s.complete seq).core :=
    ⟨hframe.boundary.1, hframe.boundary.2, hframe.boundary.3, hframe.boundary.4⟩
  have hterm : (s.complete seq).core.currentTerm = s.core.currentTerm := hframe.currentTerm
  have hpending : ∀ p ∈ (s.complete seq).core.pending, p ∈ s.core.pending :=
    fun p hp => (mem_filter.mp (hframe.pending ▸ hp)).1
  refine ⟨?_, ?_, ?_, fun p hp receiver i t hkind => ?_, fun p hp hgrant pr hpr => ?_⟩
  · have hall : ((s.complete seq).outstanding.foldl PersistRequest.apply (s.complete seq).store) =
        s.outstanding.foldl PersistRequest.apply s.store := by
      rw [Session.complete, ← foldl_append, hpledged.split]
    rw [hall, h.entries, hlog]
  · rw [hboundary.1, ← h.boundary]
    exact PersistRequest.foldl_apply_boundaryIndex _ _
  · obtain ⟨ℓ, hshows, hsound⟩ := h.whole
    exact ⟨ℓ, hshows.congr hlog hboundary, hsound⟩
  · rw [hterm]
    exact (h.acks p (hpending p hp) receiver i t hkind).congr hlog hboundary
  · exact h.last p (hpending p hp) hgrant pr (mem_filter.mp hpr).1

/-- When an item other than a vote is released, the whole log is stored. -/
theorem Mirrored.idle_of_completed (h : Mirrored llog s) (hpledged : s.Pledged) {seq : Nat}
    {p : PendingItem} (hp : p ∈ s.core.completed seq) (hgrant : p.isGrant = false) :
    ∀ pr ∈ (s.complete seq).outstanding, pr.Idle := by
  obtain ⟨hmem, hle⟩ := hpledged.le_of_completed hp
  intro pr hpr
  obtain ⟨hpr, hlt⟩ := mem_filter.mp hpr
  have hlt : seq < pr.seq := of_decide_eq_true hlt
  by_contra hnot
  have := h.last p hmem hgrant pr hpr hnot
  omega

theorem Mirrored.complete_acks (h : Mirrored llog s) (hpledged : s.Pledged) (seq : Nat) :
    ∀ m ∈ (s.core.handlePersistenceComplete seq).2.messages, ∀ i, m.Acks i →
      AgreesThrough (s.complete seq).store (llog m.term) i := by
  obtain ⟨hframe, hms, -⟩ := s.core.handlePersistenceComplete_spec seq
  intro m hm i hi
  obtain ⟨p, hp, hemits⟩ := hms m hm
  cases hemits with
  | grant =>
    obtain ⟨a, b, hi⟩ := hi
    cases hi
  | ack kind present =>
    obtain ⟨a, b, hi⟩ := hi
    cases hi
    refine (h.complete hpledged seq).agrees
      (h.idle_of_completed hpledged hp (isGrant_of_appendAck kind)) ?_
    exact (h.acks p (hpledged.le_of_completed hp).1 _ _ _ kind).congr hframe.log
      ⟨hframe.boundary.1, hframe.boundary.2, hframe.boundary.3, hframe.boundary.4⟩

def CommitStored (s : Session) : Prop :=
  ∀ i, s.store.boundaryIndex < i → i ≤ s.core.commitIndex →
    ∃ e, s.store.entries[i - s.store.boundaryIndex - 1]? = some e ∧
      s.core.log[i - s.core.snapshotIndex - 1]? = some e

theorem Mirrored.commitStored (h : Mirrored llog s) (hidle : ∀ pr ∈ s.outstanding, pr.Idle)
    (hcommit : s.core.commitIndex ≤ s.core.lastIndex) : s.CommitStored := by
  intro i hi hi'
  rw [h.boundary] at hi ⊢
  rw [h.entries_of_idle hidle]
  have : i - s.core.snapshotIndex - 1 < s.core.log.length := by
    rw [lastIndex] at hcommit
    omega
  exact ⟨_, getElem?_eq_getElem this, getElem?_eq_getElem this⟩

theorem Mirrored.commitStored_step (h : Mirrored llog s) (hpledged : s.Pledged)
    (hcalm : s.Calm input) (h' : Mirrored llog s') (hstep : s.step input = some (s', out))
    (hcommit : s.core.commitIndex < s'.core.commitIndex) : s'.CommitStored := by
  rcases step_cases hstep with ⟨seq, -, -, rfl, -⟩ | ⟨hinput, hcore, -, hout⟩
  · obtain ⟨hframe, -, -, hadvances, hmoved⟩ := s.core.handlePersistenceComplete_spec seq
    obtain ⟨p, hp, hgrant⟩ := hmoved.resolve_left hcommit.ne'
    have hle := (hadvances.within.resolve_left hcommit.ne').2
    refine h'.commitStored (h.idle_of_completed hpledged hp hgrant) ?_
    rw [show (s.complete seq).core.lastIndex = s.core.lastIndex from hframe.lastIndex]
    exact hle
  · have hmove : s.core.CommitMove input s'.core out := (step_outcome hcore hinput).commitMove
    have hsettled : s.Settled := hcalm.resolve_right fun hpass => by
      have := passes_commit hpass hmove
      omega
    have hidle : (∀ pr, out.persistRequest = some pr → pr.Idle) → ∀ pr ∈ s'.outstanding, pr.Idle := by
      intro hnew pr hpr
      rw [hout] at hpr
      rcases mem_append.mp hpr with hpr | hpr
      · exact hsettled.1 pr hpr
      · exact hnew pr (mem_toList.mp hpr)
    have hlast : s'.core.snapshotIndex ≤ s'.core.lastIndex := Nat.le_add_right _ _
    have hlog : s.core.LogMove input s'.core out := (step_outcome hcore hinput).logMove
    cases hmove with
    | keep commit => omega
    | leader _ _ body rule =>
      cases hlog with
      | keep log boundary idle =>
        refine h'.commitStored (hidle idle) ?_
        rw [lastIndex, log, boundary.1]
        exact rule.within
      | accept accepts =>
        rw [Core.Reports, Message.Acks, accepts.body] at body
        simp at body
      | install isBody =>
        rw [Core.Reports, Message.Acks, isBody] at body
        simp at body
    | follower accepts log _ commit _ _ =>
      cases hlog with
      | keep _ boundary idle =>
        refine h'.commitStored (hidle idle) ?_
        rw [commit, show s'.core.lastIndex = s.core.lastIndex by
          rw [lastIndex, log, boundary.1, lastIndex]]
        exact min_le_right _ _
      | accept accepts' _ boundary _ _ stores =>
        have hbody := accepts.body.symm.trans accepts'.body
        injection hbody with hprev _ hentries
        have hscan := accepts.scan.symm.trans (hprev ▸ hentries ▸ accepts'.scan)
        cases hscan
        refine h'.commitStored (hidle fun pr hpr => (stores pr hpr).2) ?_
        rw [commit, show s'.core.lastIndex = s.core.lastIndex by
          rw [lastIndex, log, boundary.1, lastIndex]]
        exact min_le_right _ _
      | install isBody =>
        rw [accepts.body] at isBody
        cases isBody
    | install body _ _ snapshot _ commit =>
      cases hlog with
      | keep _ _ idle => exact h'.commitStored (hidle idle) (by omega)
      | accept accepts =>
        rw [accepts.body] at body
        cases body
      | install _ _ _ _ _ _ _ _ _ _ _ idle => exact h'.commitStored (hidle idle) (by omega)

end Calm

/-! ## Runs -/

section Runs

variable {llog : Nat → List Entry} {s₀ s s' : Session} {input : Input} {out : Output}

theorem Pledged.step (h : s.Pledged) (hstep : s.step input = some (s', out))
    (hhonest : Honest llog input s') : s'.Pledged ∧ s'.GrantsStored out := by
  rcases step_cases hstep with ⟨seq, -, hseq, rfl, rfl⟩ | ⟨hinput, hcore, -, hout⟩
  · exact ⟨h.complete hseq, h.grantsStored⟩
  · refine ⟨h.step_input hinput hcore hout fun msg hmsg => (hhonest.message msg hmsg).1, ?_⟩
    -- a step that stores something itself sends no vote
    intro m hm hbody
    have hsent := ((step_outcome hcore hinput).sent m hm).body
    rw [hbody] at hsent
    generalize hb : Body.requestVoteResponse true = body at hsent
    cases hsent with
    | @replicate _ m' _ sent =>
      rcases sent.body with ⟨next, -, h⟩ | ⟨h, -⟩
      all_goals
        rw [h] at hb
        cases hb
    | _ => cases hb

theorem Mirrored.step (h : Mirrored llog s) (hllog : ∀ t, Sound llog (llog t))
    (hpledged : s.Pledged) (hcalm : s.Calm input) (hstep : s.step input = some (s', out))
    (hhonest : Honest llog input s') :
    Mirrored llog s' ∧
      ∀ m ∈ out.messages, ∀ i, m.Acks i → AgreesThrough s'.store (llog m.term) i := by
  rcases step_cases hstep with ⟨seq, -, -, rfl, rfl⟩ | ⟨hinput, hcore, hstore, hout⟩
  · exact ⟨h.complete hpledged seq, h.complete_acks hpledged seq⟩
  · exact h.step_input hllog hpledged hcalm hhonest hinput hcore hstore hout

theorem open_pledged {store : Store} {cfg : Config} (h : Session.open store cfg = some s₀) :
    s₀.Pledged := by
  obtain ⟨c, hc, rfl⟩ := map_eq_some_iff.mp h
  have hpending : c.pending = [] ∧ c.persistedSeq = 0 := by
    rw [Store.open, newCoreFromSnapshot] at hc
    split at hc
    · cases hc
    · cases hc
      exact ⟨rfl, rfl⟩
  exact ⟨.nil, by simp, by simp [hpending.2], by simp [hpending.1], by simp [hpending.1]⟩

theorem open_mirrored {store : Store} {cfg : Config} (h : Session.open store cfg = some s₀)
    (hwhole : ∃ ℓ, s₀.core.Shows ℓ ∧ Sound llog ℓ) : Mirrored llog s₀ := by
  obtain ⟨c, hc, rfl⟩ := map_eq_some_iff.mp h
  have hopened : c.log = store.entries ∧ c.snapshotIndex = store.boundaryIndex ∧
      c.pending = [] := by
    rw [Store.open, newCoreFromSnapshot] at hc
    split at hc
    · cases hc
    · cases hc
      exact ⟨rfl, rfl, rfl⟩
  exact ⟨hopened.1.symm, hopened.2.1.symm, hwhole, by simp [hopened.2.2], by simp [hopened.2.2]⟩

theorem Run.pledged {allowed : Session → Input → Prop} (hrun : Run llog allowed s₀ s)
    (h₀ : s₀.Pledged) : s.Pledged := by
  induction hrun with
  | refl => exact h₀
  | tail _ _ hstep hhonest ih => exact (ih.step hstep hhonest).1

theorem Run.mirrored (hllog : ∀ t, Sound llog (llog t)) (hrun : Run llog Calm s₀ s)
    (h₀ : s₀.Pledged) (h₀' : Mirrored llog s₀) : Mirrored llog s := by
  induction hrun with
  | refl => exact h₀'
  | tail hrun hcalm hstep hhonest ih =>
    exact (ih.step hllog (hrun.pledged h₀) hcalm hstep hhonest).1

def threeVoters : Configuration := ⟨[⟨[1], []⟩, ⟨[2], []⟩, ⟨[3], []⟩], []⟩

def firstEntry : Entry := ⟨1, 1, .normal, [7]⟩

def oneEntry (t : Nat) : List Entry := if t = 1 then [firstEntry] else []

theorem oneEntry_sound (t : Nat) : Sound oneEntry (oneEntry t) := by
  intro i e he
  by_cases ht : t = 1
  · subst ht
    cases i with
    | zero =>
      cases he
      exact prefix_rfl
    | succ i => simp [oneEntry] at he
  · simp [oneEntry, ht] at he

/-- `AppendEntries` of node `[1]` to node `[2]`, with the first entry of term 1. -/
def firstRequest : Message := ⟨[1], [2], 1, .appendEntriesRequest 0 0 [firstEntry] 0⟩

theorem firstRequest_honest : HonestMessage oneEntry firstRequest :=
  ⟨by decide, by decide, rfl, prefix_rfl⟩

theorem firstRequest_honest_step (s' : Session) (h : s'.core.role = .follower) :
    Honest oneEntry (.message firstRequest) s' := by
  refine ⟨fun msg hmsg => ?_, fun hleads => ?_⟩
  · cases hmsg
    exact firstRequest_honest
  · rw [h] at hleads
    cases hleads

end Runs

end Session

end ChronicleDB.Raft
