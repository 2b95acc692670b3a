import ChronicleDB.Raft.Membership

/-!
# The Raft core

`internal/raft/core.go`, with the messages of `messages.go`, the inputs and
outputs of `io.go` and the parts of `membership.go` that act on a `Core`.

The log is kept without its sentinel, which always holds the snapshot boundary.
A nil map and an empty one are the same here: the core writes only to maps that
`handleElectionTimeout` or `becomeLeader` has made for the role it is in.  The
lengths of timeouts are left out; an output says whether a timer is reset.  A
message carries the fields of its type; those that only the driver reads
(`SnapshotData`, `Seq`, `SenderGeneration`) are left out.  A panic is an error.
-/

namespace ChronicleDB.Raft

open Foundation

/-! ## Messages, inputs and outputs -/

inductive Body where
  | requestVoteRequest (lastLogIndex lastLogTerm : Nat)
  | requestVoteResponse (voteGranted : Bool)
  | appendEntriesRequest (prevLogIndex prevLogTerm : Nat) (entries : List Entry)
      (leaderCommit : Nat)
  | appendEntriesResponse (success : Bool) (matchIndex conflictIndex conflictTerm : Nat)
  | installSnapshotRequest (lastIncludedIndex lastIncludedTerm : Nat)
      (configuration : Configuration) (hasConfiguration : Bool)
  | installSnapshotResponse (success : Bool) (matchIndex : Nat)
  deriving DecidableEq, Repr

structure Message where
  sender : NodeID
  receiver : NodeID
  term : Nat
  body : Body
  deriving DecidableEq, Repr

structure PersistRequest where
  seq : Nat
  hardState : Option HardState
  truncateFrom : Option Nat
  entries : List Entry
  deriving DecidableEq, Repr

structure Output where
  messages : List Message := []
  persistRequest : Option PersistRequest := none
  resetElectionTimer : Bool := false
  resetHeartbeatTimer : Bool := false
  committedEntries : List Entry := []
  becameLeader : Bool := false
  steppedDown : Bool := false
  proposalRejected : Bool := false
  leaderHint : NodeID := noVote
  deriving DecidableEq, Repr

inductive Input where
  | electionTimeout
  | heartbeatTimeout
  | message (msg : Message)
  | propose (data : Bytes)
  | persistenceComplete (seq : Nat)
  deriving DecidableEq, Repr

inductive Panic where
  | truncateCommitted (index commitIndex : Nat)
  | malformedConfigEntry (index : Nat)
  | invalidTransition (index : Nat)
  | leaderConfigEntry
  deriving DecidableEq, Repr

/-! ## The state -/

inductive PendingKind where
  | voteGrant (candidate : NodeID)
  | appendAck (receiver : NodeID) (index entryTerm : Nat)
  | commitAdvance (index entryTerm : Nat)
  | selfMatch (index entryTerm : Nat)
  deriving DecidableEq, Repr

structure PendingItem where
  seq : Nat
  term : Nat
  kind : PendingKind
  deriving DecidableEq, Repr

structure Config where
  id : NodeID
  bootstrap : Configuration
  deriving DecidableEq, Repr

def Config.valid (cfg : Config) : Bool :=
  cfg.id ≠ [] && (cfg.bootstrap.isZero || cfg.bootstrap.isMember cfg.id)

/-- A map of the source; the newest binding of a key comes first. -/
abbrev IndexMap := List (NodeID × Nat)

namespace IndexMap

def get (m : IndexMap) (id : NodeID) : Nat := (m.lookup id).getD 0

def set (m : IndexMap) (id : NodeID) (v : Nat) : IndexMap := (id, v) :: m

def has (m : IndexMap) (id : NodeID) : Bool := (m.lookup id).isSome

end IndexMap

structure Core where
  cfg : Config
  role : Role
  currentTerm : Nat
  votedFor : NodeID
  leaderID : NodeID
  log : List Entry
  snapshotIndex : Nat
  snapshotTerm : Nat
  commitIndex : Nat
  appliedIndex : Nat
  nextIndex : IndexMap
  matchIndex : IndexMap
  votesReceived : List NodeID
  persistSeq : Nat
  persistedSeq : Nat
  pending : List PendingItem
  activeConfig : Configuration
  activeConfigIndex : Nat
  snapshotConfig : Configuration
  snapshotHasConfig : Bool
  pendingConfIndex : Nat
  heardFromLeader : Bool
  deriving DecidableEq, Repr

namespace Core

def lastIndex (c : Core) : Nat := c.snapshotIndex + c.log.length

def lastTerm (c : Core) : Nat :=
  match c.log.getLast? with
  | some e => e.term
  | none => c.snapshotTerm

def termAt (c : Core) (i : Nat) : Nat :=
  if i < c.snapshotIndex then 0
  else if i = c.snapshotIndex then c.snapshotTerm
  else match c.log[i - c.snapshotIndex - 1]? with
    | some e => e.term
    | none => 0

/-- `log[pos(first) : pos(last)+1]`. -/
def slice (c : Core) (first last : Nat) : List Entry :=
  (c.log.take (last - c.snapshotIndex)).drop (first - c.snapshotIndex - 1)

def isLogUpToDate (c : Core) (otherLastIndex otherLastTerm : Nat) : Bool :=
  if otherLastTerm ≠ c.lastTerm then otherLastTerm > c.lastTerm
  else otherLastIndex ≥ c.lastIndex

/-! ## Configurations -/

/-- The newest configuration among the log entries up to `i`, with its index. -/
def loggedConfig (c : Core) : Nat → Option (Configuration × Nat)
  | 0 => none
  | i + 1 =>
    if i + 1 ≤ c.snapshotIndex then none
    else match (c.log[i - c.snapshotIndex]?).bind Entry.configuration? with
      | some cfg => some (cfg, i + 1)
      | none => loggedConfig c i

def configAt (c : Core) (i : Nat) : Configuration × Nat :=
  match c.loggedConfig i with
  | some r => r
  | none => if c.snapshotHasConfig then (c.snapshotConfig, 0) else (c.cfg.bootstrap, 0)

def activateFromAppendedEntries (c : Core) : List Entry → Except Panic Core
  | [] => .ok c
  | e :: es =>
    match e.type with
    | .normal => activateFromAppendedEntries c es
    | .config =>
      match decodeConfigChange e.data with
      | .error _ => .error (.malformedConfigEntry e.index)
      | .ok change =>
        match change.cfg with
        | none => activateFromAppendedEntries c es
        | some cfg =>
          if !c.activeConfig.isZero && !classifyTransition c.activeConfig cfg then
            .error (.invalidTransition e.index)
          else activateFromAppendedEntries
            { c with activeConfig := cfg, activeConfigIndex := e.index } es

def initReplicationStateFor (c : Core) (prevLast : Nat) (id : NodeID) : Core :=
  { c with
    nextIndex := if c.nextIndex.has id then c.nextIndex else c.nextIndex.set id (prevLast + 1)
    matchIndex := if c.matchIndex.has id then c.matchIndex else c.matchIndex.set id 0 }

/-! ## Construction and bookkeeping -/

def gapFree : Nat → List Entry → Bool
  | _, [] => true
  | next, e :: es => e.index = next && gapFree (next + 1) es

def newCoreFromSnapshot (cfg : Config) (hs : HardState) (snapshotIndex snapshotTerm : Nat)
    (snapshotConfig : Configuration) (snapshotHasConfig : Bool) (entries : List Entry) :
    Option Core :=
  if !cfg.valid || !gapFree (snapshotIndex + 1) entries then none
  else
    let c : Core :=
      { cfg := cfg, role := .follower, currentTerm := hs.currentTerm, votedFor := hs.votedFor,
        leaderID := noVote, log := entries, snapshotIndex := snapshotIndex,
        snapshotTerm := snapshotTerm, commitIndex := snapshotIndex,
        appliedIndex := snapshotIndex, nextIndex := [], matchIndex := [], votesReceived := [],
        persistSeq := 0, persistedSeq := 0, pending := [], activeConfig := .zero,
        activeConfigIndex := 0, snapshotConfig := snapshotConfig,
        snapshotHasConfig := snapshotHasConfig, pendingConfIndex := 0,
        heardFromLeader := false }
    let active := c.configAt c.lastIndex
    some { c with activeConfig := active.1, activeConfigIndex := active.2 }

def setApplied (c : Core) (idx : Nat) : Core :=
  if idx > c.appliedIndex then { c with appliedIndex := idx } else c

/-- `Compact`; `none` where the source returns false. -/
def compact (c : Core) (uptoIndex : Nat) : Option Core :=
  if uptoIndex ≤ c.snapshotIndex ∨ uptoIndex > c.appliedIndex then none
  else some { c with
    log := c.log.drop (uptoIndex - c.snapshotIndex)
    snapshotIndex := uptoIndex
    snapshotTerm := c.termAt uptoIndex
    snapshotConfig := (c.configAt uptoIndex).1
    snapshotHasConfig := true
    activeConfigIndex := if c.activeConfigIndex ≤ uptoIndex then 0 else c.activeConfigIndex }

/-! ## Pieces that several handlers share -/

def nextPersistSeq (c : Core) : Core := { c with persistSeq := c.persistSeq + 1 }

def hardState (c : Core) : HardState := ⟨c.currentTerm, c.votedFor⟩

/-- The request to store the hard state, under the sequence number just drawn. -/
def hardStateRequest (c : Core) : PersistRequest := ⟨c.persistSeq, some c.hardState, none, []⟩

def leadsOrCampaigns (c : Core) : Bool := c.role = .leader || c.role = .candidate

/-- `stepDownTo`; its result is `leadsOrCampaigns` of the state before. -/
def stepDownTo (c : Core) (term : Nat) : Core :=
  { c with role := .follower, currentTerm := term, votedFor := noVote, leaderID := noVote,
           votesReceived := [], heardFromLeader := false }

def invalidatePendingFrom (c : Core) (idx : Nat) : Core :=
  { c with pending := c.pending.filter fun p =>
      match p.kind with
      | .voteGrant _ => true
      | .appendAck _ i _ => i < idx
      | .commitAdvance i _ => i < idx
      | .selfMatch i _ => i < idx }

def handleHigherTerm (c : Core) (term : Nat) : Core × Output :=
  let stepped := c.leadsOrCampaigns
  let c := (c.stepDownTo term).nextPersistSeq
  (c, { persistRequest := some c.hardStateRequest, steppedDown := stepped,
        resetElectionTimer := stepped })

/-- The replication message for `peer`, and the core after `nextIndex[peer]` has
moved past what the message holds. -/
def appendEntriesMessage (c : Core) (peer : NodeID) : Core × Message :=
  let next := max (c.nextIndex.get peer) 1
  if next ≤ c.snapshotIndex then
    (c, ⟨c.cfg.id, peer, c.currentTerm, .installSnapshotRequest c.snapshotIndex c.snapshotTerm
      c.snapshotConfig c.snapshotHasConfig⟩)
  else
    let entries := if next ≤ c.lastIndex then c.slice next c.lastIndex else []
    let after := if next ≤ c.lastIndex then c.lastIndex + 1 else next
    ({ c with nextIndex := c.nextIndex.set peer after },
      ⟨c.cfg.id, peer, c.currentTerm, .appendEntriesRequest (next - 1) (c.termAt (next - 1))
        entries c.commitIndex⟩)

def replicateTo (c : Core) : List NodeID → Core × List Message
  | [] => (c, [])
  | peer :: peers =>
    let sent := c.appendEntriesMessage peer
    let rest := replicateTo sent.1 peers
    (rest.1, sent.2 :: rest.2)

def votersButSelf (c : Core) : List NodeID :=
  c.activeConfig.voterIDs.filter (· ≠ c.cfg.id)

def peers (c : Core) : List NodeID :=
  c.votersButSelf ++ c.activeConfig.learners.map (·.id)

def becomeLeader (c : Core) (out : Output) : Core × Output :=
  let last := c.lastIndex
  let members := c.activeConfig.voterIDs ++ c.activeConfig.learners.map (·.id)
  let c := { c with
    role := .leader, leaderID := c.cfg.id, votesReceived := [], pendingConfIndex := last
    nextIndex := members.map fun id => (id, last + 1)
    matchIndex := IndexMap.set (members.map fun id => (id, 0)) c.cfg.id last }
  let sent := c.replicateTo c.peers
  (sent.1, { out with becameLeader := true, resetHeartbeatTimer := true,
                      messages := out.messages ++ sent.2 })

/-! ## Commitment -/

def matchCount (c : Core) (n : Nat) : Nat :=
  c.activeConfig.voterIDs.countP fun id => n ≤ c.matchIndex.get id

/-- The largest index up to the argument that the commit rule allows. -/
def commitCandidate (c : Core) : Nat → Option Nat
  | 0 => none
  | n + 1 =>
    if n + 1 ≤ c.commitIndex then none
    else if c.termAt (n + 1) = c.currentTerm ∧ c.activeConfig.majority ≤ c.matchCount (n + 1) then
      some (n + 1)
    else commitCandidate c n

def newlyCommitted (c : Core) (n : Nat) : List Entry :=
  c.slice (max (c.commitIndex + 1) (c.snapshotIndex + 1)) n

def maybeStepDownAfterSelfRemoval (c : Core) (out : Output) : Core × Output :=
  if c.role ≠ .leader ∨ c.activeConfig.isVoter c.cfg.id ∨ c.activeConfigIndex > c.commitIndex then
    (c, out)
  else
    ({ c with role := .follower, leaderID := noVote, nextIndex := [], matchIndex := [],
              votesReceived := [] }, { out with steppedDown := true })

def advanceLeaderCommit (c : Core) (out : Output) : Core × Output :=
  match c.commitCandidate c.lastIndex with
  | none => (c, out)
  | some n =>
    maybeStepDownAfterSelfRemoval { c with commitIndex := n }
      { out with committedEntries := out.committedEntries ++ c.newlyCommitted n }

def advanceFollowerCommit (c : Core) (newCommit : Nat) (out : Output) : Core × Output :=
  let newCommit := min newCommit c.lastIndex
  if newCommit ≤ c.commitIndex then (c, out)
  else ({ c with commitIndex := newCommit },
    { out with committedEntries := out.committedEntries ++ c.newlyCommitted newCommit })

/-! ## Timeouts and proposals -/

def handleElectionTimeout (c : Core) : Core × Output :=
  if c.role = .leader then (c, {})
  else
    let c := { c with heardFromLeader := false }
    if !c.activeConfig.isVoter c.cfg.id then (c, {})
    else
      let c := ({ c with
        role := .candidate, currentTerm := c.currentTerm + 1, votedFor := c.cfg.id
        leaderID := noVote, votesReceived := [c.cfg.id] } : Core).nextPersistSeq
      let out : Output :=
        { persistRequest := some c.hardStateRequest
          resetElectionTimer := true
          messages := c.votersButSelf.map fun id =>
            ⟨c.cfg.id, id, c.currentTerm, .requestVoteRequest c.lastIndex c.lastTerm⟩ }
      -- a candidacy of one is already a majority
      if c.votesReceived.length ≥ c.activeConfig.majority then c.becomeLeader out else (c, out)

def handleHeartbeatTimeout (c : Core) : Core × Output :=
  if c.role ≠ .leader then (c, {})
  else
    let sent := c.replicateTo c.peers
    (sent.1, { resetHeartbeatTimer := true, messages := sent.2 })

def activateOwnEntry (c : Core) (prevLast : Nat) (e : Entry) : Except Panic Core :=
  match e.type with
  | .normal => .ok c
  | .config =>
    match e.configuration? with
    | none => .error .leaderConfigEntry
    | some cfg =>
      let c := { c with activeConfig := cfg, activeConfigIndex := e.index }
      .ok ((cfg.voterIDs ++ cfg.learners.map (·.id)).foldl
        (fun c id => c.initReplicationStateFor prevLast id) c)

def appendLeaderEntry (c : Core) (t : EntryType) (data : Bytes) :
    Except Panic (Core × Output) :=
  let prevLast := c.lastIndex
  let entry : Entry := ⟨prevLast + 1, c.currentTerm, t, data⟩
  let c := { c with
    log := c.log ++ [entry], matchIndex := c.matchIndex.set c.cfg.id (prevLast + 1) }
  match c.activateOwnEntry prevLast entry with
  | .error p => .error p
  | .ok c =>
    let c := c.nextPersistSeq
    let c := ({ c with pending := c.pending ++
      [⟨c.persistSeq, c.currentTerm, .selfMatch entry.index c.currentTerm⟩] } : Core)
    let sent := c.replicateTo c.peers
    .ok (sent.1, { persistRequest := some ⟨c.persistSeq, none, none, [entry]⟩
                   messages := sent.2 })

def handlePropose (c : Core) (data : Bytes) : Except Panic (Core × Output) :=
  if c.role ≠ .leader then .ok (c, { proposalRejected := true, leaderHint := c.leaderID })
  else c.appendLeaderEntry .normal data

inductive ConfigRefusal where
  | error (e : ProposeError)
  | panic (p : Panic)
  deriving DecidableEq, Repr

def proposeConfigChange (c : Core) (kind : MembershipChangeKind) (requestID : Bytes)
    (targetID : NodeID) (targetAddr : Bytes) : Except ConfigRefusal (Core × Output) :=
  if c.role ≠ .leader then .error (.error .notLeader)
  else if c.commitIndex < c.pendingConfIndex then .error (.error .inheritedSuffixUncommitted)
  else if c.termAt c.commitIndex ≠ c.currentTerm then .error (.error .noCurrentTermCommit)
  else if c.activeConfigIndex > c.commitIndex then .error (.error .changeInProgress)
  else match buildNewConfiguration c.activeConfig kind targetID targetAddr with
    | .error e => .error (.error e)
    | .ok newCfg =>
      if newCfg.voters.length = 0 then .error (.error .lastVoterRemoval)
      else if !classifyTransition c.activeConfig newCfg then .error (.error .invalidTransition)
      else match c.appendLeaderEntry .config
          (encodeConfigChange (wireKindFor kind) requestID targetID targetAddr newCfg) with
        | .error p => .error (.panic p)
        | .ok r => .ok r

/-! ## Elections -/

def handleRequestVoteRequest (c : Core) (msg : Message) (lastLogIndex lastLogTerm : Nat) :
    Core × Output :=
  if !c.activeConfig.isVoter msg.sender then (c, {})
  else if c.heardFromLeader then (c, {})
  else if msg.term < c.currentTerm then
    (c, { messages := [⟨c.cfg.id, msg.sender, c.currentTerm, .requestVoteResponse false⟩] })
  else
    let higher : Bool := msg.term > c.currentTerm
    let stepped := higher && c.leadsOrCampaigns
    let c := if higher then c.stepDownTo msg.term else c
    let canVote := (c.votedFor = noVote || c.votedFor = msg.sender) &&
      c.activeConfig.isVoter c.cfg.id
    if canVote && c.isLogUpToDate lastLogIndex lastLogTerm then
      let c := ({ c with votedFor := msg.sender } : Core).nextPersistSeq
      ({ c with pending := c.pending ++
          [⟨c.persistSeq, c.currentTerm, .voteGrant msg.sender⟩] },
        { persistRequest := some c.hardStateRequest, resetElectionTimer := true,
          steppedDown := stepped })
    else
      let out : Output :=
        { messages := [⟨c.cfg.id, msg.sender, c.currentTerm, .requestVoteResponse false⟩]
          steppedDown := stepped, resetElectionTimer := stepped }
      if higher then
        let c := c.nextPersistSeq
        (c, { out with persistRequest := some c.hardStateRequest })
      else (c, out)

def handleRequestVoteResponse (c : Core) (msg : Message) (voteGranted : Bool) : Core × Output :=
  if msg.term > c.currentTerm then c.handleHigherTerm msg.term
  else if c.role ≠ .candidate ∨ msg.term ≠ c.currentTerm ∨ !voteGranted then (c, {})
  else
    let c := { c with votesReceived :=
      if msg.sender ∈ c.votesReceived then c.votesReceived else c.votesReceived ++ [msg.sender] }
    if c.votesReceived.length ≥ c.activeConfig.majority then c.becomeLeader {} else (c, {})

/-! ## Replication, on the follower -/

/-- What an append or a snapshot of the current or a higher term does first. -/
def recognizeLeader (c : Core) (msg : Message) : Core :=
  let c := if msg.term > c.currentTerm ∨ c.role ≠ .follower then c.stepDownTo msg.term else c
  { c with leaderID := msg.sender, heardFromLeader := true }

/-- The smallest index down from `i` whose successors up to `i` have term `t`. -/
def conflictStart (c : Core) (t : Nat) : Nat → Nat
  | 0 => 0
  | i + 1 =>
    if i + 1 > c.snapshotIndex + 1 ∧ c.termAt i = t then conflictStart c t i else i + 1

def conflictHint (c : Core) (prevIndex : Nat) : Nat × Nat :=
  if prevIndex > c.lastIndex then (c.lastIndex + 1, 0)
  else (c.conflictStart (c.termAt prevIndex) prevIndex, c.termAt prevIndex)

/-- The loop over the entries of a request, the first of which has index `idx`:
where to truncate, and the entries left to append. -/
def scanEntries (c : Core) : Nat → List Entry → Except Panic (Option Nat × List Entry)
  | _, [] => .ok (none, [])
  | idx, e :: es =>
    if idx ≤ c.lastIndex ∧ c.termAt idx = e.term then scanEntries c (idx + 1) es
    else if idx ≤ c.lastIndex then
      if idx ≤ c.commitIndex then .error (.truncateCommitted idx c.commitIndex)
      else .ok (some idx, e :: es)
    else .ok (none, e :: es)

def appendScanned (c : Core) (truncateFrom : Option Nat) (newEntries : List Entry) :
    Except Panic Core :=
  match truncateFrom with
  | some idx =>
    let c := c.invalidatePendingFrom idx
    let c := { c with log := c.log.take (idx - c.snapshotIndex - 1) ++ newEntries }
    let active := c.configAt c.lastIndex
    .ok { c with activeConfig := active.1, activeConfigIndex := active.2 }
  | none => activateFromAppendedEntries { c with log := c.log ++ newEntries } newEntries

/-- The end of `handleAppendEntriesRequest`, once the log holds the entries: the
commit index and the acknowledgement, now or when the request is stored. -/
def acknowledgeAppend (c : Core) (msg : Message) (lastNew leaderCommit : Nat)
    (needPersist : Bool) (out : Output) : Core × Output :=
  let newCommit := min leaderCommit lastNew
  if needPersist then
    let commit : List PendingItem :=
      if newCommit > c.commitIndex then
        [⟨c.persistSeq, c.currentTerm, .commitAdvance newCommit (c.termAt newCommit)⟩]
      else []
    ({ c with pending := c.pending ++ (commit ++
        [⟨c.persistSeq, c.currentTerm, .appendAck msg.sender lastNew (c.termAt lastNew)⟩]) }, out)
  else
    let r := c.advanceFollowerCommit newCommit out
    (r.1, { r.2 with messages := r.2.messages ++
      [⟨c.cfg.id, msg.sender, c.currentTerm, .appendEntriesResponse true lastNew 0 0⟩] })

/-- A reply, and the new term to store if the request has raised it. -/
def replyAndStore (c : Core) (stateChanged : Bool) (out : Output) : Core × Output :=
  if stateChanged then
    let c := c.nextPersistSeq
    (c, { out with persistRequest := some c.hardStateRequest })
  else (c, out)

def handleAppendEntriesRequest (c : Core) (msg : Message) (prevLogIndex prevLogTerm : Nat)
    (entries : List Entry) (leaderCommit : Nat) : Except Panic (Core × Output) :=
  if msg.term < c.currentTerm then
    .ok (c, { messages :=
      [⟨c.cfg.id, msg.sender, c.currentTerm, .appendEntriesResponse false 0 0 0⟩] })
  else
    let stateChanged : Bool := msg.term > c.currentTerm
    let out : Output := { steppedDown := c.leadsOrCampaigns, resetElectionTimer := true }
    let c := c.recognizeLeader msg
    if prevLogIndex < c.snapshotIndex then
      .ok (c.replyAndStore stateChanged { out with messages :=
        [⟨c.cfg.id, msg.sender, c.currentTerm,
          .appendEntriesResponse true c.snapshotIndex 0 0⟩] })
    else if prevLogIndex > c.lastIndex ∨ c.termAt prevLogIndex ≠ prevLogTerm then
      let hint := c.conflictHint prevLogIndex
      .ok (c.replyAndStore stateChanged { out with messages :=
        [⟨c.cfg.id, msg.sender, c.currentTerm,
          .appendEntriesResponse false 0 hint.1 hint.2⟩] })
    else match c.scanEntries (prevLogIndex + 1) entries with
      | .error p => .error p
      | .ok (truncateFrom, newEntries) =>
        match c.appendScanned truncateFrom newEntries with
        | .error p => .error p
        | .ok c =>
          let needPersist := stateChanged || truncateFrom.isSome || !newEntries.isEmpty
          let c := if needPersist then c.nextPersistSeq else c
          let out := if needPersist then
              { out with persistRequest := some ⟨c.persistSeq,
                  if stateChanged then some c.hardState else none,
                  truncateFrom, newEntries⟩ }
            else out
          .ok (c.acknowledgeAppend msg (prevLogIndex + entries.length) leaderCommit
            needPersist out)

/-! ## Replication, on the leader -/

def continueReplication (c : Core) (peer : NodeID) (out : Output) : Core × Output :=
  if c.role = .leader ∧ c.activeConfig.isMember peer ∧ c.nextIndex.get peer ≤ c.lastIndex then
    let sent := c.appendEntriesMessage peer
    (sent.1, { out with messages := out.messages ++ [sent.2] })
  else (c, out)

def recordMatch (c : Core) (peer : NodeID) (matchIndex : Nat) : Core × Output :=
  let c := if matchIndex > c.matchIndex.get peer then
      { c with matchIndex := c.matchIndex.set peer matchIndex } else c
  let c := if matchIndex + 1 > c.nextIndex.get peer then
      { c with nextIndex := c.nextIndex.set peer (matchIndex + 1) } else c
  let r := c.advanceLeaderCommit {}
  r.1.continueReplication peer r.2

def lastOfTerm (c : Core) (t : Nat) : Nat → Option Nat
  | 0 => none
  | i + 1 => if c.termAt (i + 1) = t then some (i + 1) else lastOfTerm c t i

def resumeIndex (c : Core) (conflictIndex conflictTerm : Nat) : Nat :=
  let next := if conflictTerm = 0 then conflictIndex
    else match c.lastOfTerm conflictTerm c.lastIndex with
      | some i => i + 1
      | none => conflictIndex
  max next 1

def handleAppendEntriesResponse (c : Core) (msg : Message) (success : Bool)
    (matchIndex conflictIndex conflictTerm : Nat) : Core × Output :=
  if msg.term > c.currentTerm then c.handleHigherTerm msg.term
  else if c.role ≠ .leader ∨ msg.term ≠ c.currentTerm then (c, {})
  else if success then c.recordMatch msg.sender matchIndex
  else
    let next := c.resumeIndex conflictIndex conflictTerm
    let c := if next < c.nextIndex.get msg.sender then
        { c with nextIndex := c.nextIndex.set msg.sender next } else c
    if c.activeConfig.isMember msg.sender then
      let sent := c.appendEntriesMessage msg.sender
      (sent.1, { messages := [sent.2] })
    else (c, {})

/-! ## Snapshots -/

def handleInstallSnapshotRequest (c : Core) (msg : Message)
    (lastIncludedIndex lastIncludedTerm : Nat) (configuration : Configuration)
    (hasConfiguration : Bool) : Core × Output :=
  if msg.term < c.currentTerm then
    (c, { messages :=
      [⟨c.cfg.id, msg.sender, c.currentTerm, .installSnapshotResponse false 0⟩] })
  else
    let stateChanged : Bool := msg.term > c.currentTerm
    let out : Output := { steppedDown := c.leadsOrCampaigns, resetElectionTimer := true }
    let c := c.recognizeLeader msg
    if lastIncludedIndex ≤ c.snapshotIndex ∨ lastIncludedIndex ≤ c.commitIndex then
      c.replyAndStore stateChanged { out with messages :=
        [⟨c.cfg.id, msg.sender, c.currentTerm,
          .installSnapshotResponse true (max c.snapshotIndex c.commitIndex)⟩] }
    else
      let c := ({ c with
        snapshotIndex := lastIncludedIndex, snapshotTerm := lastIncludedTerm, log := []
        pending := [], commitIndex := max c.commitIndex lastIncludedIndex } : Core)
      let c := c.setApplied lastIncludedIndex
      let c := { c with
        snapshotConfig := configuration, snapshotHasConfig := hasConfiguration
        activeConfigIndex := 0
        activeConfig := if hasConfiguration then configuration else c.cfg.bootstrap }
      c.replyAndStore stateChanged { out with messages :=
        [⟨c.cfg.id, msg.sender, c.currentTerm,
          .installSnapshotResponse true c.snapshotIndex⟩] }

def handleInstallSnapshotResponse (c : Core) (msg : Message) (success : Bool)
    (matchIndex : Nat) : Core × Output :=
  if msg.term > c.currentTerm then c.handleHigherTerm msg.term
  else if c.role ≠ .leader ∨ msg.term ≠ c.currentTerm ∨ !success then (c, {})
  else c.recordMatch msg.sender matchIndex

def handleMessage (c : Core) (msg : Message) : Except Panic (Core × Output) :=
  match msg.body with
  | .requestVoteRequest lastLogIndex lastLogTerm =>
    .ok (c.handleRequestVoteRequest msg lastLogIndex lastLogTerm)
  | .requestVoteResponse voteGranted => .ok (c.handleRequestVoteResponse msg voteGranted)
  | .appendEntriesRequest prevLogIndex prevLogTerm entries leaderCommit =>
    c.handleAppendEntriesRequest msg prevLogIndex prevLogTerm entries leaderCommit
  | .appendEntriesResponse success matchIndex conflictIndex conflictTerm =>
    .ok (c.handleAppendEntriesResponse msg success matchIndex conflictIndex conflictTerm)
  | .installSnapshotRequest index term configuration hasConfiguration =>
    .ok (c.handleInstallSnapshotRequest msg index term configuration hasConfiguration)
  | .installSnapshotResponse success matchIndex =>
    .ok (c.handleInstallSnapshotResponse msg success matchIndex)

/-! ## Completed writes -/

/-- Entry `index` is the sentinel or in the log, and has this term. -/
def entryStillPresent (c : Core) (index term : Nat) : Bool :=
  c.snapshotIndex ≤ index && index ≤ c.lastIndex && c.termAt index = term

/-- What a pending item turns into once its write is complete. -/
def releaseItem (r : Core × Output) (p : PendingItem) : Core × Output :=
  let c := r.1
  let out := r.2
  match p.kind with
  | .voteGrant candidate =>
    if c.currentTerm = p.term ∧ c.votedFor = candidate then
      (c, { out with messages := out.messages ++
        [⟨c.cfg.id, candidate, c.currentTerm, .requestVoteResponse true⟩] })
    else r
  | .appendAck receiver index entryTerm =>
    if c.entryStillPresent index entryTerm then
      (c, { out with messages := out.messages ++
        [⟨c.cfg.id, receiver, c.currentTerm, .appendEntriesResponse true index 0 0⟩] })
    else r
  | .commitAdvance index entryTerm =>
    if c.entryStillPresent index entryTerm then c.advanceFollowerCommit index out else r
  | .selfMatch index entryTerm =>
    if c.role = .leader ∧ c.currentTerm = p.term ∧ c.entryStillPresent index entryTerm then
      let c := if index > c.matchIndex.get c.cfg.id then
          { c with matchIndex := c.matchIndex.set c.cfg.id index } else c
      c.advanceLeaderCommit out
    else r

def handlePersistenceComplete (c : Core) (seq : Nat) : Core × Output :=
  let c := { c with persistedSeq := max c.persistedSeq seq }
  let done := c.pending.filter fun p => p.seq ≤ c.persistedSeq
  let remaining := c.pending.filter fun p => c.persistedSeq < p.seq
  let r := done.foldl releaseItem (c, {})
  ({ r.1 with pending := remaining }, r.2)

def step (c : Core) : Input → Except Panic (Core × Output)
  | .electionTimeout => .ok c.handleElectionTimeout
  | .heartbeatTimeout => .ok c.handleHeartbeatTimeout
  | .message msg => c.handleMessage msg
  | .propose data => c.handlePropose data
  | .persistenceComplete seq => .ok (c.handlePersistenceComplete seq)

end Core

end ChronicleDB.Raft
