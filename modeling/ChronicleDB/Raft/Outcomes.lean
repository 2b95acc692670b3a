import ChronicleDB.Raft.Handlers

/-!
# The outcomes of a step

A step other than a completion ends in one of a few ways.  Each is written out
here once, with the core and the output it leaves; what a step does to the vote, the
log, the commit index or the store is then read off case by case.
-/

namespace ChronicleDB.Raft

open Foundation List

/-- `m` acknowledges the entries up to `index`. -/
def Message.Acks (m : Message) (index : Nat) : Prop :=
  ∃ a b, m.body = .appendEntriesResponse true index a b

namespace Core

/-! ## What the outcomes speak of -/

def votesWith (c : Core) (sender : NodeID) : List NodeID :=
  if sender ∈ c.votesReceived then c.votesReceived else c.votesReceived ++ [sender]

def logWith (c : Core) : Option Nat → List Entry → List Entry
  | some idx, new => c.log.take (idx - c.snapshotIndex - 1) ++ new
  | none, new => c.log ++ new

/-- The request `msg` is accepted: its entries follow one that the log holds. -/
structure Accepts (c : Core) (msg : Message) (prev : Nat) (entries : List Entry) (commit : Nat)
    (truncateFrom : Option Nat) (new : List Entry) : Prop where
  body : msg.body = .appendEntriesRequest prev (c.termAt prev) entries commit
  term : c.currentTerm ≤ msg.term
  above : c.snapshotIndex ≤ prev
  within : prev ≤ c.lastIndex
  scan : c.scanEntries (prev + 1) entries = .ok (truncateFrom, new)

def matchAfter (c : Core) (peer : NodeID) (index : Nat) : IndexMap :=
  if index > c.matchIndex.get peer then c.matchIndex.set peer index else c.matchIndex

def Reports (msg : Message) (index : Nat) : Prop :=
  msg.Acks index ∨ msg.body = .installSnapshotResponse true index

/-- The commit rule holds at `n`, with the match indices `mx`. -/
structure Committable (c : Core) (mx : IndexMap) (n : Nat) : Prop where
  above : c.commitIndex < n
  within : n ≤ c.lastIndex
  own : c.termAt n = c.currentTerm
  quorum : c.activeConfig.majority ≤ c.activeConfig.voterIDs.countP fun id => n ≤ mx.get id

structure SameBoundary (c c' : Core) : Prop where
  index : c'.snapshotIndex = c.snapshotIndex
  term : c'.snapshotTerm = c.snapshotTerm
  config : c'.snapshotConfig = c.snapshotConfig
  hasConfig : c'.snapshotHasConfig = c.snapshotHasConfig

/-- `c'` may differ from `c` in what a leader knows of its peers, in the commit
index, and in a leader's role. -/
structure Frame (c c' : Core) : Prop where
  core : ∃ leaderID nx mx, c' = { c with
    role := c'.role, leaderID := leaderID, nextIndex := nx, matchIndex := mx,
    votesReceived := c'.votesReceived, commitIndex := c'.commitIndex }
  role : c'.role = c.role ∧ c'.votesReceived = c.votesReceived ∨
    c.role = .leader ∧ c'.role = .follower

namespace Frame

variable {c c' c'' : Core}

theorem refl (c : Core) : Frame c c := ⟨⟨_, _, _, rfl⟩, .inl ⟨rfl, rfl⟩⟩

theorem trans (h : Frame c c') (h' : Frame c' c'') : Frame c c'' := by
  obtain ⟨⟨l, nx, mx, hc⟩, hrole⟩ := h
  obtain ⟨⟨l', nx', mx', hc'⟩, hrole'⟩ := h'
  refine ⟨⟨l', nx', mx', ?_⟩, ?_⟩
  · rw [hc'] at *
    rw [hc]
  · rcases hrole' with hrole' | hrole'
    · rw [hrole'.1, hrole'.2]
      exact hrole
    · rcases hrole with hrole | hrole
      · rw [hrole.1] at hrole'
        exact .inr hrole'
      · rw [hrole.2] at hrole'
        exact absurd hrole'.1 (by simp)

theorem log (h : Frame c c') : c'.log = c.log := by obtain ⟨_, _, _, h⟩ := h.core; rw [h]

theorem boundary (h : Frame c c') : SameBoundary c c' := by
  obtain ⟨_, _, _, h⟩ := h.core
  rw [h]
  exact ⟨rfl, rfl, rfl, rfl⟩

theorem appliedIndex (h : Frame c c') : c'.appliedIndex = c.appliedIndex := by
  obtain ⟨⟨_, _, _, hc⟩, -⟩ := h
  rw [hc]

theorem lastIndex (h : Frame c c') : c'.lastIndex = c.lastIndex := by
  rw [Core.lastIndex, Core.lastIndex, h.log, h.boundary.1]

theorem currentTerm (h : Frame c c') : c'.currentTerm = c.currentTerm := by
  obtain ⟨_, _, _, h⟩ := h.core
  rw [h]

theorem votedFor (h : Frame c c') : c'.votedFor = c.votedFor := by
  obtain ⟨_, _, _, h⟩ := h.core
  rw [h]

theorem pending (h : Frame c c') : c'.pending = c.pending := by
  obtain ⟨_, _, _, h⟩ := h.core
  rw [h]

theorem persistSeq (h : Frame c c') : c'.persistSeq = c.persistSeq := by
  obtain ⟨_, _, _, h⟩ := h.core
  rw [h]

theorem persistedSeq (h : Frame c c') : c'.persistedSeq = c.persistedSeq := by
  obtain ⟨_, _, _, h⟩ := h.core
  rw [h]

theorem cfg (h : Frame c c') : c'.cfg = c.cfg := by obtain ⟨_, _, _, h⟩ := h.core; rw [h]

theorem activeConfig (h : Frame c c') : c'.activeConfig = c.activeConfig := by
  obtain ⟨_, _, _, h⟩ := h.core
  rw [h]

theorem heardFromLeader (h : Frame c c') : c'.heardFromLeader = c.heardFromLeader := by
  obtain ⟨_, _, _, h⟩ := h.core
  rw [h]

end Frame

/-- `m` is an answer of `c` that grants and acknowledges nothing. -/
structure Refuses (c : Core) (m : Message) : Prop where
  sender : m.sender = c.cfg.id
  term : m.term = c.currentTerm
  body : m.body = .requestVoteResponse false ∨ (∃ a b, m.body = .appendEntriesResponse false 0 a b) ∨
    m.body = .installSnapshotResponse false 0

/-! ## The cores and outputs that a step leaves -/

def candidacy (c : Core) : Core :=
  { c with
    role := .candidate, currentTerm := c.currentTerm + 1, votedFor := c.cfg.id, leaderID := noVote
    votesReceived := [c.cfg.id], persistSeq := c.persistSeq + 1, heardFromLeader := false }

def canvass (c : Core) : Output :=
  { persistRequest := some c.hardStateRequest
    resetElectionTimer := true
    messages := c.votersButSelf.map fun id =>
      ⟨c.cfg.id, id, c.currentTerm, .requestVoteRequest c.lastIndex c.lastTerm⟩ }

/-- `c` once it has recognised the sender of `msg`, whose term is not lower, as leader. -/
def recognized (c : Core) (msg : Message) : Core :=
  { c with
    role := .follower, currentTerm := msg.term, leaderID := msg.sender, heardFromLeader := true
    votedFor := if msg.term > c.currentTerm ∨ c.role ≠ .follower then noVote else c.votedFor
    votesReceived :=
      if msg.term > c.currentTerm ∨ c.role ≠ .follower then [] else c.votesReceived }

/-- The term of a leader's message is stored if it is new. -/
inductive TermStored (c : Core) (msg : Message) : Nat → Option PersistRequest → Prop where
  | raised (higher : c.currentTerm < msg.term) : TermStored c msg (c.persistSeq + 1)
      (some ⟨c.persistSeq + 1, some (c.recognized msg).hardState, none, []⟩)
  | same (equal : msg.term = c.currentTerm) : TermStored c msg c.persistSeq none

inductive Answers (c : Core) (msg : Message) : Body → Prop where
  | reject {a b} : Answers c msg (.appendEntriesResponse false 0 a b)
  | known {prev prevTerm entries commit}
      (body : msg.body = .appendEntriesRequest prev prevTerm entries commit) :
      Answers c msg (.appendEntriesResponse true c.snapshotIndex 0 0)
  | installed {index term cfg hasCfg}
      (body : msg.body = .installSnapshotRequest index term cfg hasCfg) :
      Answers c msg (.installSnapshotResponse true (max c.snapshotIndex c.commitIndex))

/-- The items that wait for an accepted request to be stored. -/
def awaited (c : Core) (msg : Message) (last commit : Nat) : List PendingItem :=
  (if min commit last > c.commitIndex then
    [⟨c.persistSeq, c.currentTerm, .commitAdvance (min commit last) (c.termAt (min commit last))⟩]
  else []) ++ [⟨c.persistSeq, c.currentTerm, .appendAck msg.sender last (c.termAt last)⟩]

inductive Outcome (c : Core) : Input → Core → Output → Prop where
  | ignore {input out} (stores : out.persistRequest = none) (reports : out.committedEntries = [])
      (sent : ∀ m ∈ out.messages, c.Refuses m) : Outcome c input c out
  | wake (voter : c.activeConfig.isVoter c.cfg.id = false) :
      Outcome c .electionTimeout { c with heardFromLeader := false } {}
  | campaign (notLeader : c.role ≠ .leader) (voter : c.activeConfig.isVoter c.cfg.id = true) :
      Outcome c .electionTimeout c.candidacy c.candidacy.canvass
  | campaignWon {nx ms}
      (notLeader : c.role ≠ .leader) (voter : c.activeConfig.isVoter c.cfg.id = true)
      (won : c.activeConfig.majority ≤ 1) (sent : ∀ m ∈ ms, (c.candidacy.leading nx).Replicates m) :
      Outcome c .electionTimeout (c.candidacy.leading nx) { c.candidacy.canvass with
        becameLeader := true, resetHeartbeatTimer := true
        messages := c.candidacy.canvass.messages ++ ms }
  | count {msg} (body : msg.body = .requestVoteResponse true) (msgTerm : msg.term = c.currentTerm)
      (candidate : c.role = .candidate) :
      Outcome c (.message msg) { c with votesReceived := c.votesWith msg.sender } {}
  | countWon {msg nx ms}
      (body : msg.body = .requestVoteResponse true) (msgTerm : msg.term = c.currentTerm)
      (candidate : c.role = .candidate)
      (won : c.activeConfig.majority ≤ (c.votesWith msg.sender).length)
      (sent : ∀ m ∈ ms, (c.leading nx).Replicates m) :
      Outcome c (.message msg) (c.leading nx)
        { becameLeader := true, resetHeartbeatTimer := true, messages := ms }
  | adopt {msg out} (higher : c.currentTerm < msg.term)
      (stores : out.persistRequest = some (c.stepDownTo msg.term).nextPersistSeq.hardStateRequest)
      (reports : out.committedEntries = [])
      (sent : ∀ m ∈ out.messages, (c.stepDownTo msg.term).nextPersistSeq.Refuses m) :
      Outcome c (.message msg) (c.stepDownTo msg.term).nextPersistSeq out
  | cast {msg lastIndex lastTerm role leaderID votes hears stepped}
      (body : msg.body = .requestVoteRequest lastIndex lastTerm)
      (heard : c.heardFromLeader = false) (voter : c.activeConfig.isVoter c.cfg.id = true)
      (free : c.currentTerm < msg.term ∧ role = .follower ∨ msg.term = c.currentTerm ∧
        role = c.role ∧ votes = c.votesReceived ∧ (c.votedFor = noVote ∨ c.votedFor = msg.sender))
      (upToDate : c.isLogUpToDate lastIndex lastTerm = true) :
      Outcome c (.message msg) { c with
          role := role, currentTerm := msg.term, votedFor := msg.sender, leaderID := leaderID
          votesReceived := votes, heardFromLeader := hears, persistSeq := c.persistSeq + 1
          pending := c.pending ++ [⟨c.persistSeq + 1, msg.term, .voteGrant msg.sender⟩] }
        { persistRequest := some ⟨c.persistSeq + 1, some ⟨msg.term, msg.sender⟩, none, []⟩
          resetElectionTimer := true, steppedDown := stepped }
  | replicate {input nx out} (leads : c.role = .leader) (stores : out.persistRequest = none)
      (reports : out.committedEntries = []) (sent : ∀ m ∈ out.messages, c.Replicates m) :
      Outcome c input { c with nextIndex := nx } out
  | append {t data nx mx active index c' ms} (leads : c.role = .leader)
      (core : c' = { c with
        log := c.log ++ [⟨c.lastIndex + 1, c.currentTerm, t, data⟩]
        nextIndex := nx, matchIndex := mx, activeConfig := active, activeConfigIndex := index
        persistSeq := c.persistSeq + 1
        pending := c.pending ++ [⟨c.persistSeq + 1, c.currentTerm,
          .selfMatch (c.lastIndex + 1) c.currentTerm⟩] })
      (activates : (active, index) =
        match (⟨c.lastIndex + 1, c.currentTerm, t, data⟩ : Entry).configuration? with
        | some cfg => (cfg, c.lastIndex + 1)
        | none => (c.activeConfig, c.activeConfigIndex))
      (sent : ∀ m ∈ ms, c'.Replicates m) :
      Outcome c (.propose data) c'
        { persistRequest := some ⟨c.persistSeq + 1, none, none,
            [⟨c.lastIndex + 1, c.currentTerm, t, data⟩]⟩
          messages := ms }
  | record {msg index c' out} (leads : c.role = .leader) (msgTerm : msg.term = c.currentTerm)
      (body : Reports msg index) (frame : Frame c c') (stores : out.persistRequest = none)
      (commit : c'.commitIndex = c.commitIndex ∧ out.committedEntries = [] ∨
        c.Committable (c.matchAfter msg.sender index) c'.commitIndex ∧
          out.committedEntries = c.newlyCommitted c'.commitIndex)
      (matched : c'.role = .leader → c'.matchIndex = c.matchAfter msg.sender index)
      (sent : ∀ m ∈ out.messages, c'.role = .leader ∧ c'.Replicates m) :
      Outcome c (.message msg) c' out
  | reply {msg b seq pr} (term : c.currentTerm ≤ msg.term)
      (answers : (c.recognized msg).Answers msg b) (stores : c.TermStored msg seq pr) :
      Outcome c (.message msg) { c.recognized msg with persistSeq := seq }
        { messages := [⟨c.cfg.id, msg.sender, msg.term, b⟩], persistRequest := pr
          steppedDown := c.leadsOrCampaigns, resetElectionTimer := true }
  | store {msg prev entries commit truncateFrom new pending active index c₁}
      (accepts : c.Accepts msg prev entries commit truncateFrom new)
      (core : c₁ = { c.recognized msg with
        log := c.logWith truncateFrom new, pending := pending, activeConfig := active
        activeConfigIndex := index })
      (appends : (c.recognized msg).appendScanned truncateFrom new = .ok c₁)
      (items : pending ⊆ c.pending) :
      Outcome c (.message msg) { c₁ with
          persistSeq := c.persistSeq + 1
          pending := pending ++ c₁.nextPersistSeq.awaited msg (prev + entries.length) commit }
        { persistRequest := some ⟨c.persistSeq + 1,
            if decide (msg.term > c.currentTerm) then some (c.recognized msg).hardState else none,
            truncateFrom, new⟩
          steppedDown := c.leadsOrCampaigns, resetElectionTimer := true }
  | agree {msg prev entries commit n es} (accepts : c.Accepts msg prev entries commit none [])
      (equal : msg.term = c.currentTerm)
      (advances : n = c.commitIndex ∧ es = [] ∨ c.commitIndex < n ∧
        n = min (min commit (prev + entries.length)) c.lastIndex ∧ es = c.newlyCommitted n) :
      Outcome c (.message msg) { c.recognized msg with commitIndex := n }
        { messages := [⟨c.cfg.id, msg.sender, msg.term,
            .appendEntriesResponse true (prev + entries.length) 0 0⟩]
          committedEntries := es, steppedDown := c.leadsOrCampaigns, resetElectionTimer := true }
  | install {msg index term cfg hasCfg seq pr}
      (body : msg.body = .installSnapshotRequest index term cfg hasCfg)
      (msgTerm : c.currentTerm ≤ msg.term) (above : c.snapshotIndex < index)
      (new : c.commitIndex < index) (stores : c.TermStored msg seq pr) :
      Outcome c (.message msg) { c.recognized msg with
          snapshotIndex := index, snapshotTerm := term, log := [], pending := []
          commitIndex := max c.commitIndex index, appliedIndex := max c.appliedIndex index
          snapshotConfig := cfg, snapshotHasConfig := hasCfg, activeConfigIndex := 0
          activeConfig := if hasCfg then cfg else c.cfg.bootstrap, persistSeq := seq }
        { messages := [⟨c.cfg.id, msg.sender, msg.term, .installSnapshotResponse true index⟩]
          persistRequest := pr, steppedDown := c.leadsOrCampaigns, resetElectionTimer := true }

variable {msg : Message} {r : Core × Output} {index : Nat} {data : Bytes}

/-! ## Timeouts and proposals -/

theorem handleElectionTimeout_outcome {c : Core}
    (h : c.handleElectionTimeout = r) : Outcome c .electionTimeout r.1 r.2 := by
  unfold handleElectionTimeout at h
  split at h
  · cases h
    exact .ignore rfl rfl (by simp)
  case isFalse hleader =>
    dsimp only at h
    split at h
    case isTrue hvoter =>
      cases h
      exact .wake (by simpa using hvoter)
    case isFalse hvoter =>
      have hvoter : c.activeConfig.isVoter c.cfg.id = true := by simpa using hvoter
      split at h
      case isTrue hwon =>
        change c.candidacy.becomeLeader c.candidacy.canvass = r at h
        obtain ⟨nx, ms, hlead, hsent⟩ := c.candidacy.becomeLeader_spec c.candidacy.canvass
        rw [hlead] at h
        cases h
        exact .campaignWon hleader hvoter hwon hsent
      case isFalse =>
        cases h
        exact .campaign hleader hvoter

theorem handleHeartbeatTimeout_outcome (c : Core) :
    Outcome c .heartbeatTimeout c.handleHeartbeatTimeout.1 c.handleHeartbeatTimeout.2 := by
  unfold handleHeartbeatTimeout
  dsimp only
  split
  · exact .ignore rfl rfl (by simp)
  case isFalse hrole =>
    obtain ⟨nx, ms, h, hsent⟩ := c.replicateTo_spec c.peers
    rw [h]
    exact .replicate (not_not.mp hrole) rfl rfl hsent

theorem foldl_initReplicationStateFor (prevLast : Nat) (ids : List NodeID) (c : Core) :
    ∃ nx mx, ids.foldl (fun c id => c.initReplicationStateFor prevLast id) c =
      { c with nextIndex := nx, matchIndex := mx } := by
  induction ids generalizing c with
  | nil => exact ⟨c.nextIndex, c.matchIndex, rfl⟩
  | cons id ids ih =>
    obtain ⟨nx, mx, h⟩ := ih (c.initReplicationStateFor prevLast id)
    exact ⟨nx, mx, h⟩

theorem activateOwnEntry_core {c c' : Core} {prevLast : Nat} {e : Entry}
    (h : c.activateOwnEntry prevLast e = .ok c') :
    ∃ nx mx active index, c' = { c with
        nextIndex := nx, matchIndex := mx, activeConfig := active, activeConfigIndex := index } ∧
      (active, index) = match e.configuration? with
        | some cfg => (cfg, e.index)
        | none => (c.activeConfig, c.activeConfigIndex) := by
  unfold activateOwnEntry at h
  split at h
  case h_1 htype =>
    cases h
    exact ⟨_, _, _, _, rfl, by rw [Entry.configuration?, htype]⟩
  case h_2 htype =>
    split at h
    · cases h
    case h_2 cfg hcfg =>
      cases h
      obtain ⟨nx, mx, hids⟩ := foldl_initReplicationStateFor _ _ _
      exact ⟨nx, mx, _, _, hids, by rw [hcfg]⟩

theorem appendLeaderEntry_core {c : Core} {t : EntryType} (h : c.appendLeaderEntry t data = .ok r) :
    ∃ nx mx active index, ∃ ms : List Message, r = ({ c with
        log := c.log ++ [⟨c.lastIndex + 1, c.currentTerm, t, data⟩]
        nextIndex := nx, matchIndex := mx, activeConfig := active, activeConfigIndex := index
        persistSeq := c.persistSeq + 1
        pending := c.pending ++ [⟨c.persistSeq + 1, c.currentTerm,
          .selfMatch (c.lastIndex + 1) c.currentTerm⟩] },
      { persistRequest := some ⟨c.persistSeq + 1, none, none,
          [⟨c.lastIndex + 1, c.currentTerm, t, data⟩]⟩
        messages := ms }) ∧
    (active, index) =
      (match (⟨c.lastIndex + 1, c.currentTerm, t, data⟩ : Entry).configuration? with
        | some cfg => (cfg, c.lastIndex + 1)
        | none => (c.activeConfig, c.activeConfigIndex)) ∧
    ∀ m ∈ ms, r.1.Replicates m := by
  unfold appendLeaderEntry at h
  dsimp only at h
  split at h
  case h_1 => cases h
  case h_2 c' hactive =>
    cases h
    obtain ⟨nx, mx, active, index, rfl, hcfg⟩ := activateOwnEntry_core hactive
    obtain ⟨nx', ms, hsent, hms⟩ := replicateTo_spec _ _
    rw [hsent]
    exact ⟨nx', mx, active, index, ms, rfl, hcfg, fun m hm =>
      ⟨(hms m hm).sender, (hms m hm).term, (hms m hm).body⟩⟩

theorem appendLeaderEntry_outcome {c : Core} {t : EntryType}
    (leads : c.role = .leader) (h : c.appendLeaderEntry t data = .ok r) :
    Outcome c (.propose data) r.1 r.2 := by
  obtain ⟨nx, mx, active, index, ms, rfl, hcfg, hsent⟩ := appendLeaderEntry_core h
  exact .append leads rfl hcfg hsent

theorem handlePropose_outcome {c : Core}
    (h : c.handlePropose data = .ok r) : Outcome c (.propose data) r.1 r.2 := by
  unfold handlePropose at h
  split at h
  · cases h
    exact .ignore rfl rfl (by simp)
  case isFalse hrole => exact appendLeaderEntry_outcome (not_not.mp hrole) h

theorem proposeConfigChange_built {c c' : Core} {out : Output} {kind : MembershipChangeKind}
    {requestID addr : Bytes} {target : NodeID}
    (h : c.proposeConfigChange kind requestID target addr = .ok (c', out)) :
    ∃ new, buildNewConfiguration c.activeConfig kind target addr = .ok new ∧ new.voters ≠ [] ∧
      classifyTransition c.activeConfig new ∧
      c.appendLeaderEntry .config
        (encodeConfigChange (wireKindFor kind) requestID target addr new) = .ok (c', out) := by
  unfold proposeConfigChange at h
  iterate 4
    split at h
    · cases h
  split at h
  · cases h
  case h_2 new hnew =>
    split at h
    · cases h
    case isFalse hvoters =>
      split at h
      · cases h
      case isFalse haccepted =>
        split at h
        · cases h
        case h_2 r happend =>
          cases h
          exact ⟨new, hnew, fun hnil => hvoters (by rw [hnil]; rfl), by simpa using haccepted,
            happend⟩

/-! ## Elections -/

theorem handleHigherTerm_outcome {c : Core} (h : c.currentTerm < msg.term) :
    Outcome c (.message msg) (c.handleHigherTerm msg.term).1 (c.handleHigherTerm msg.term).2 :=
  .adopt h rfl rfl (by simp [handleHigherTerm])

theorem handleRequestVoteRequest_outcome (c : Core) {i t : Nat}
    (hbody : msg.body = .requestVoteRequest i t) :
    Outcome c (.message msg) (c.handleRequestVoteRequest msg i t).1
      (c.handleRequestVoteRequest msg i t).2 := by
  unfold handleRequestVoteRequest
  split
  · exact .ignore rfl rfl (by simp)
  split
  · exact .ignore rfl rfl (by simp)
  split
  · exact .ignore rfl rfl fun m hm => by
      rw [mem_singleton.mp hm]
      exact ⟨rfl, rfl, .inl rfl⟩
  case isFalse.isFalse.isFalse hheard hlower =>
    have hheard : c.heardFromLeader = false := by simpa using hheard
    by_cases hhigher : msg.term > c.currentTerm
    · simp only [hhigher, decide_true, if_true]
      split
      case isTrue hvote =>
        simp only [stepDownTo, Bool.and_eq_true] at hvote
        exact .cast hbody hheard hvote.1.2 (.inl ⟨hhigher, rfl⟩) hvote.2
      case isFalse =>
        refine .adopt hhigher rfl rfl fun m hm => ?_
        rw [mem_singleton.mp hm]
        exact ⟨rfl, rfl, .inl rfl⟩
    · have hterm : msg.term = c.currentTerm := by omega
      simp only [hhigher, decide_false, Bool.false_eq_true, if_false]
      split
      case isTrue hvote =>
        simp only [Bool.and_eq_true, Bool.or_eq_true, decide_eq_true_eq] at hvote
        rw [← hterm]
        exact .cast hbody hheard hvote.1.2 (.inr ⟨hterm, rfl, rfl, hvote.1.1⟩) hvote.2
      case isFalse =>
        refine .ignore rfl rfl fun m hm => ?_
        rw [mem_singleton.mp hm]
        exact ⟨rfl, rfl, .inl rfl⟩

theorem handleRequestVoteResponse_outcome {c : Core} {granted : Bool}
    (hbody : msg.body = .requestVoteResponse granted)
    (h : c.handleRequestVoteResponse msg granted = r) : Outcome c (.message msg) r.1 r.2 := by
  unfold handleRequestVoteResponse at h
  split at h
  case isTrue hhigher =>
    rw [← h]
    exact handleHigherTerm_outcome hhigher
  split at h
  · cases h
    exact .ignore rfl rfl (by simp)
  case isFalse.isFalse hcount =>
    simp only [not_or, not_not, Bool.not_eq_true, Bool.not_eq_false'] at hcount
    obtain ⟨hrole, hterm, hgranted⟩ := hcount
    rw [hgranted] at hbody
    change (if (c.votesWith msg.sender).length ≥ c.activeConfig.majority then
      becomeLeader { c with votesReceived := c.votesWith msg.sender } {} else _) = r at h
    split at h
    case isTrue hwon =>
      obtain ⟨nx, ms, hlead, hsent⟩ :=
        becomeLeader_spec { c with votesReceived := c.votesWith msg.sender } {}
      rw [hlead] at h
      cases h
      exact .countWon hbody hterm hrole hwon hsent
    case isFalse =>
      cases h
      exact .count hbody hterm hrole

/-! ## Messages of a leader -/

theorem recognizeLeader_eq {c : Core} (h : c.currentTerm ≤ msg.term) :
    c.recognizeLeader msg = c.recognized msg := by
  unfold recognizeLeader recognized
  by_cases hdown : msg.term > c.currentTerm ∨ c.role ≠ .follower
  · simp only [hdown, if_true]
    rfl
  · simp only [hdown, if_false]
    simp only [not_or, not_not] at hdown
    rw [show msg.term = c.currentTerm by omega, ← hdown.2]

theorem Outcome.of_replyAndStore {c c₁ : Core} {out : Output}
    (h : c.currentTerm ≤ msg.term) (hseq : c₁.persistSeq = c.persistSeq)
    (hstate : c₁.hardState = (c.recognized msg).hardState) (hout : out.persistRequest = none)
    (hstored : ∀ seq pr, c.TermStored msg seq pr → Outcome c (.message msg)
      { c₁ with persistSeq := seq } { out with persistRequest := pr }) :
    Outcome c (.message msg) (c₁.replyAndStore (decide (msg.term > c.currentTerm)) out).1
      (c₁.replyAndStore (decide (msg.term > c.currentTerm)) out).2 := by
  unfold replyAndStore
  split
  case isTrue hhigher =>
    have := hstored _ _ (.raised (of_decide_eq_true hhigher))
    rw [← hseq, ← hstate] at this
    exact this
  case isFalse hequal =>
    have := hstored _ _ (.same (le_antisymm (by simpa using hequal) h))
    rw [← hseq, ← hout] at this
    exact this

theorem activateFromAppendedEntries_core {c c' : Core} {es : List Entry}
    (h : c.activateFromAppendedEntries es = .ok c') :
    ∃ active index, c' = { c with activeConfig := active, activeConfigIndex := index } := by
  induction es generalizing c with
  | nil =>
    cases h
    exact ⟨_, _, rfl⟩
  | cons e es ih =>
    rw [activateFromAppendedEntries] at h
    split at h
    · exact ih h
    · split at h
      · cases h
      · split at h
        · exact ih h
        · split at h
          · cases h
          · obtain ⟨active, index, rfl⟩ := ih h
            exact ⟨active, index, rfl⟩

/-- The entries of a request change the log, the configuration, and may drop
items that wait for entries the log no longer has. -/
theorem appendScanned_core {c c' : Core} {truncateFrom : Option Nat} {new : List Entry}
    (h : c.appendScanned truncateFrom new = .ok c') :
    ∃ pending active index, c' = { c with
        log := c.logWith truncateFrom new
        pending := pending, activeConfig := active, activeConfigIndex := index } ∧
      pending ⊆ c.pending := by
  unfold appendScanned at h
  split at h
  · cases h
    exact ⟨_, _, _, rfl, fun p hp => (mem_filter.mp hp).1⟩
  · obtain ⟨active, index, rfl⟩ := activateFromAppendedEntries_core h
    exact ⟨_, _, _, rfl, fun p hp => hp⟩

theorem setApplied_eq (c : Core) (index : Nat) :
    c.setApplied index = { c with appliedIndex := max c.appliedIndex index } := by
  unfold setApplied
  split
  case isTrue h => rw [Nat.max_eq_right h.le]
  case isFalse h => rw [Nat.max_eq_left (Nat.not_lt.mp h)]

theorem termAt_congr {c c' : Core} (hlog : c'.log = c.log)
    (hindex : c'.snapshotIndex = c.snapshotIndex) (hterm : c'.snapshotTerm = c.snapshotTerm)
    (i : Nat) : c'.termAt i = c.termAt i := by
  simp only [termAt, hlog, hindex, hterm]

theorem scanEntries_congr {c c' : Core} (hlog : c'.log = c.log)
    (hindex : c'.snapshotIndex = c.snapshotIndex) (hterm : c'.snapshotTerm = c.snapshotTerm)
    (hcommit : c'.commitIndex = c.commitIndex) (es : List Entry) :
    ∀ i, c'.scanEntries i es = c.scanEntries i es := by
  have hlast : c'.lastIndex = c.lastIndex := by simp only [lastIndex, hlog, hindex]
  induction es with
  | nil => exact fun _ => rfl
  | cons e es ih =>
    intro i
    simp only [scanEntries, ih, hlast, hcommit, termAt_congr hlog hindex hterm]

theorem acknowledgeAppend_idle (c : Core) (msg : Message) (last commit : Nat) :
    ∃ n es, (n = c.commitIndex ∧ es = [] ∨ c.commitIndex < n ∧
        n = min (min commit last) c.lastIndex ∧ es = c.newlyCommitted n) ∧
      ∀ stepped, c.acknowledgeAppend msg last commit false
          { steppedDown := stepped, resetElectionTimer := true } =
        ({ c with commitIndex := n },
          { messages := [⟨c.cfg.id, msg.sender, c.currentTerm,
              .appendEntriesResponse true last 0 0⟩]
            committedEntries := es, steppedDown := stepped, resetElectionTimer := true }) := by
  unfold acknowledgeAppend
  simp only [Bool.false_eq_true, if_false]
  by_cases hle : min (min commit last) c.lastIndex ≤ c.commitIndex
  · refine ⟨_, _, .inl ⟨rfl, rfl⟩, fun stepped => ?_⟩
    rw [advanceFollowerCommit, if_pos hle]
    rfl
  · refine ⟨_, _, .inr ⟨by omega, rfl, rfl⟩, fun stepped => ?_⟩
    rw [advanceFollowerCommit, if_neg hle]
    rfl

theorem handleAppendEntriesRequest_outcome {c : Core} {prev prevTerm commit : Nat}
    {entries : List Entry} (hbody : msg.body = .appendEntriesRequest prev prevTerm entries commit)
    (h : c.handleAppendEntriesRequest msg prev prevTerm entries commit = .ok r) :
    Outcome c (.message msg) r.1 r.2 := by
  unfold handleAppendEntriesRequest at h
  split at h
  · cases h
    refine .ignore rfl rfl fun m hm => ?_
    rw [List.mem_singleton.mp hm]
    exact ⟨rfl, rfl, .inr (.inl ⟨_, _, rfl⟩)⟩
  case isFalse hterm =>
    have hterm : c.currentTerm ≤ msg.term := by omega
    rw [recognizeLeader_eq hterm] at h
    dsimp only at h
    split at h
    · cases h
      exact .of_replyAndStore hterm rfl rfl rfl fun _ _ => .reply hterm (.known hbody)
    split at h
    · cases h
      exact .of_replyAndStore hterm rfl rfl rfl fun _ _ => .reply hterm .reject
    case isFalse.isFalse habove hprev =>
    split at h
    · cases h
    case h_2 truncateFrom new hscan =>
    split at h
    · cases h
    case h_2 c₂ happend =>
      cases h
      rw [not_or, not_not] at hprev
      have hsame : (c.recognized msg).scanEntries (prev + 1) entries =
          c.scanEntries (prev + 1) entries := by
        apply scanEntries_congr
        all_goals rfl
      rw [hsame] at hscan
      have haccepts : c.Accepts msg prev entries commit truncateFrom new :=
        ⟨hbody.trans (by rw [← hprev.2]; rfl), hterm, Nat.not_lt.mp habove, Nat.not_lt.mp hprev.1,
          hscan⟩
      generalize hneed : (decide (msg.term > c.currentTerm) || truncateFrom.isSome ||
        !new.isEmpty) = needPersist
      cases needPersist with
      | true =>
        obtain ⟨pending, active, index, hcore, hsub⟩ := appendScanned_core happend
        have hstore := Outcome.store haccepts hcore happend hsub
        subst hcore
        exact hstore
      | false =>
        simp only [Bool.or_eq_false_iff, decide_eq_false_iff_not, Option.isSome_eq_false_iff,
          Option.isNone_iff_eq_none, Bool.not_eq_false', List.isEmpty_iff] at hneed
        obtain ⟨⟨hequal, rfl⟩, rfl⟩ := hneed
        obtain rfl : c.recognized msg = c₂ := by
          simpa [appendScanned, activateFromAppendedEntries] using happend
        obtain ⟨n, es, hadvances, hidle⟩ :=
          (c.recognized msg).acknowledgeAppend_idle msg (prev + entries.length) commit
        simp only [Bool.false_eq_true, if_false, hidle]
        exact .agree haccepts (by omega) hadvances

theorem handleInstallSnapshotRequest_outcome (c : Core) {term : Nat}
    {cfg : Configuration} {hasCfg : Bool}
    (hbody : msg.body = .installSnapshotRequest index term cfg hasCfg) :
    Outcome c (.message msg) (c.handleInstallSnapshotRequest msg index term cfg hasCfg).1
      (c.handleInstallSnapshotRequest msg index term cfg hasCfg).2 := by
  unfold handleInstallSnapshotRequest
  split
  · refine .ignore rfl rfl fun m hm => ?_
    rw [mem_singleton.mp hm]
    exact ⟨rfl, rfl, .inr (.inr rfl)⟩
  case isFalse hterm =>
    have hterm : c.currentTerm ≤ msg.term := by omega
    rw [recognizeLeader_eq hterm]
    dsimp only
    split
    · exact .of_replyAndStore hterm rfl rfl rfl fun _ _ => .reply hterm (.installed hbody)
    case isFalse hnew =>
      rw [not_or, Nat.not_le, Nat.not_le] at hnew
      rw [setApplied_eq]
      exact .of_replyAndStore hterm rfl rfl rfl fun _ _ => .install hbody hterm hnew.1 hnew.2

/-! ## Replies to a leader -/

theorem recordMatch_outcome {c : Core}
    (leads : c.role = .leader) (hterm : msg.term = c.currentTerm) (hbody : Reports msg index)
    (h : c.recordMatch msg.sender index = r) : Outcome c (.message msg) r.1 r.2 := by
  unfold recordMatch at h
  dsimp only at h
  generalize hc₁ : (if index > c.matchIndex.get msg.sender then
    { c with matchIndex := c.matchIndex.set msg.sender index } else c) = c₁ at h
  have h₁ : c₁ = { c with matchIndex := c.matchAfter msg.sender index } := by
    subst hc₁
    unfold matchAfter
    split
    · rfl
    · rfl
  generalize hc₂ : (if index + 1 > c₁.nextIndex.get msg.sender then
    { c₁ with nextIndex := c₁.nextIndex.set msg.sender (index + 1) } else c₁) = c₂ at h
  have h₂ : ∃ nx, c₂ = { c with matchIndex := c.matchAfter msg.sender index, nextIndex := nx } := by
    subst hc₂
    rw [h₁]
    split
    · exact ⟨_, rfl⟩
    · exact ⟨_, rfl⟩
  obtain ⟨nx, rfl⟩ := h₂
  -- what is left is to send on, from a core that has recorded the match and moved its commit index
  have hdone : ∀ (c₃ : Core) (out : Output), c₃.continueReplication msg.sender out = r →
      Frame c c₃ → out.persistRequest = none → out.messages = [] → (c₃.commitIndex = c.commitIndex ∧ out.committedEntries = [] ∨
        c.Committable (c.matchAfter msg.sender index) c₃.commitIndex ∧
          out.committedEntries = c.newlyCommitted c₃.commitIndex) →
      (c₃.role = .leader → c₃.matchIndex = c.matchAfter msg.sender index) →
      Outcome c (.message msg) r.1 r.2 := by
    intro c₃ out hr hframe hpr hmessages hcommit hmatch
    obtain ⟨nx, ms, hsend, hms⟩ := c₃.continueReplication_spec msg.sender out
    rw [hsend] at hr
    cases hr
    obtain ⟨⟨leaderID, _, mx, hcore⟩, hrole⟩ := hframe
    refine .record leads hterm hbody ⟨⟨leaderID, nx, mx, by rw [hcore]⟩, hrole⟩ hpr hcommit hmatch
      fun m hm => ?_
    obtain ⟨hlead, hsent⟩ := hms m (by simpa [hmessages] using hm)
    exact ⟨hlead, hsent.sender, hsent.term, hsent.body⟩
  obtain hadv | ⟨n, habove, hwithin, hown, hquorum, hadv⟩ := advanceLeaderCommit_cases
    { c with matchIndex := c.matchAfter msg.sender index, nextIndex := nx } {}
  · rw [hadv] at h
    exact hdone _ _ h ⟨⟨_, _, _, rfl⟩, .inl ⟨rfl, rfl⟩⟩ rfl rfl (.inl ⟨rfl, rfl⟩) fun _ => rfl
  · rw [hadv] at h
    have hrule : c.Committable (c.matchAfter msg.sender index) n := ⟨habove, hwithin, hown, hquorum⟩
    obtain hstep | ⟨-, -, hstep⟩ := maybeStepDown_cases _ _
    · rw [hstep] at h
      exact hdone _ _ h ⟨⟨_, _, _, rfl⟩, .inl ⟨rfl, rfl⟩⟩ rfl rfl (.inr ⟨hrule, rfl⟩) fun _ => rfl
    · rw [hstep] at h
      exact hdone _ _ h ⟨⟨_, _, _, rfl⟩, .inr ⟨leads, rfl⟩⟩ rfl rfl (.inr ⟨hrule, rfl⟩) nofun

theorem handleAppendEntriesResponse_outcome (c : Core) {success : Bool}
    {conflictIndex conflictTerm : Nat}
    (hbody : msg.body = .appendEntriesResponse success index conflictIndex conflictTerm) :
    Outcome c (.message msg)
      (c.handleAppendEntriesResponse msg success index conflictIndex conflictTerm).1
      (c.handleAppendEntriesResponse msg success index conflictIndex conflictTerm).2 := by
  unfold handleAppendEntriesResponse
  split
  case isTrue hhigher => exact handleHigherTerm_outcome hhigher
  split
  · exact .ignore rfl rfl (by simp)
  case isFalse.isFalse hlead =>
    simp only [not_or, not_not] at hlead
    split
    case isTrue hsuccess =>
      rw [hsuccess] at hbody
      exact recordMatch_outcome hlead.1 hlead.2 (.inl ⟨_, _, hbody⟩) rfl
    dsimp only
    generalize c.resumeIndex conflictIndex conflictTerm = next
    generalize hc₁ : (if next < c.nextIndex.get msg.sender then
      { c with nextIndex := c.nextIndex.set msg.sender next } else c) = c₁
    have h₁ : ∃ nx, c₁ = { c with nextIndex := nx } := by
      subst hc₁
      split
      · exact ⟨_, rfl⟩
      · exact ⟨_, rfl⟩
    obtain ⟨nx, rfl⟩ := h₁
    split
    · obtain ⟨nx', hcore⟩ := appendEntriesMessage_core { c with nextIndex := nx } msg.sender
      have hsent := appendEntriesMessage_replicates { c with nextIndex := nx } msg.sender
      rw [hcore]
      refine .replicate hlead.1 rfl rfl fun m hm => ?_
      rw [mem_singleton.mp hm]
      exact hsent.of_nextIndex
    · exact .replicate hlead.1 rfl rfl (by simp)

theorem handleInstallSnapshotResponse_outcome (c : Core) {success : Bool}
    (hbody : msg.body = .installSnapshotResponse success index) :
    Outcome c (.message msg) (c.handleInstallSnapshotResponse msg success index).1
      (c.handleInstallSnapshotResponse msg success index).2 := by
  unfold handleInstallSnapshotResponse
  split
  case isTrue hhigher => exact handleHigherTerm_outcome hhigher
  split
  · exact .ignore rfl rfl (by simp)
  case isFalse.isFalse hlead =>
    simp only [not_or, not_not, Bool.not_eq_true, Bool.not_eq_false'] at hlead
    rw [hlead.2.2] at hbody
    exact recordMatch_outcome hlead.1 hlead.2.1 (.inr hbody) rfl

/-! ## All inputs -/

theorem step_outcome {c : Core} {input : Input} (h : c.step input = .ok r)
    (hinput : ∀ seq, input ≠ .persistenceComplete seq) : Outcome c input r.1 r.2 := by
  cases input with
  | electionTimeout =>
    cases h
    exact handleElectionTimeout_outcome rfl
  | heartbeatTimeout =>
    cases h
    exact c.handleHeartbeatTimeout_outcome
  | propose data => exact handlePropose_outcome h
  | persistenceComplete seq => exact absurd rfl (hinput seq)
  | message msg =>
    rw [step, handleMessage] at h
    split at h
    case h_1 hbody =>
      cases h
      exact c.handleRequestVoteRequest_outcome hbody
    case h_2 hbody =>
      cases h
      exact handleRequestVoteResponse_outcome hbody rfl
    case h_3 hbody => exact handleAppendEntriesRequest_outcome hbody h
    case h_4 hbody =>
      cases h
      exact c.handleAppendEntriesResponse_outcome hbody
    case h_5 hbody =>
      cases h
      exact c.handleInstallSnapshotRequest_outcome hbody
    case h_6 hbody =>
      cases h
      exact c.handleInstallSnapshotResponse_outcome hbody

theorem step_of_newer {c : Core} {term : Nat} {cfg : Configuration} {hasCfg : Bool}
    (hbody : msg.body = .installSnapshotRequest index term cfg hasCfg)
    (hterm : c.currentTerm ≤ msg.term) (habove : c.snapshotIndex < index)
    (hnew : c.commitIndex < index) (h : c.step (.message msg) = .ok r) :
    r.1.snapshotIndex = index ∧ r.1.commitIndex = index := by
  rw [step, handleMessage, hbody] at h
  cases h
  have hnewer : ¬ (index ≤ (c.recognized msg).snapshotIndex ∨
      index ≤ (c.recognized msg).commitIndex) :=
    not_or.mpr ⟨Nat.not_le.mpr habove, Nat.not_le.mpr hnew⟩
  rw [handleInstallSnapshotRequest, if_neg (Nat.not_lt.mpr hterm), recognizeLeader_eq hterm]
  dsimp only
  rw [if_neg hnewer, setApplied_eq, replyAndStore]
  split
  all_goals exact ⟨rfl, Nat.max_eq_right hnew.le⟩

end Core

end ChronicleDB.Raft
