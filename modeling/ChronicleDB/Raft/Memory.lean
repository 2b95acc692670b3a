import ChronicleDB.Foundation.Slices
import ChronicleDB.Raft.Core

/-!
# The core in memory

`Core` says what the handlers of `internal/raft/core.go` compute.  Here they are
written down once more with the accesses they make: the log is a slice that starts
with its sentinel, a map may be nil, and an index out of range or a write to a nil
map stops the program.
-/

namespace ChronicleDB.Raft

open Foundation Checked

structure Memory where
  cfg : Config
  role : Role
  currentTerm : Nat
  votedFor : NodeID
  leaderID : NodeID
  log : List Entry
  snapshotIndex : Nat
  snapshotTerm : Nat
  commitIndex : Nat
  appliedIndex : Nat
  nextIndex : Option IndexMap
  matchIndex : Option IndexMap
  votesReceived : Option (List NodeID)
  persistSeq : Nat
  persistedSeq : Nat
  pending : List PendingItem
  activeConfig : Configuration
  activeConfigIndex : Nat
  snapshotConfig : Configuration
  snapshotHasConfig : Bool
  pendingConfIndex : Nat
  heardFromLeader : Bool
  deriving DecidableEq, Repr

def sentinel (index term : Nat) : Entry := ⟨index, term, .normal, []⟩

namespace Memory

/-- A position in `log`; it is negative below the boundary. -/
def pos (m : Memory) (i : Nat) : Int := i - m.snapshotIndex

def lastIndex (m : Memory) : Nat := m.snapshotIndex + (m.log.length - 1)

def lastTerm (m : Memory) : Checked Panic Nat := do
  let e ← element m.log ((m.log.length : Int) - 1)
  .ok e.term

def termAt (m : Memory) (i : Nat) : Checked Panic Nat :=
  if i < m.snapshotIndex then .ok 0
  else if m.pos i ≥ m.log.length then .ok 0
  else do
    let e ← element m.log (m.pos i)
    .ok e.term

def isLogUpToDate (m : Memory) (otherLastIndex otherLastTerm : Nat) : Checked Panic Bool := do
  let myTerm ← m.lastTerm
  if otherLastTerm ≠ myTerm then .ok (otherLastTerm > myTerm)
  else .ok (otherLastIndex ≥ m.lastIndex)

/-! ## Configurations -/

def loggedConfig (m : Memory) : Nat → Checked Panic (Option (Configuration × Nat))
  | 0 => .ok none
  | i + 1 =>
    if i + 1 ≤ m.snapshotIndex then .ok none
    else if m.pos (i + 1) < 0 ∨ m.pos (i + 1) ≥ m.log.length then loggedConfig m i
    else do
      let e ← element m.log (m.pos (i + 1))
      match e.configuration? with
      | some cfg => .ok (some (cfg, i + 1))
      | none => loggedConfig m i

def configAt (m : Memory) (i : Nat) : Checked Panic (Configuration × Nat) := do
  match ← m.loggedConfig i with
  | some r => .ok r
  | none => .ok (if m.snapshotHasConfig then (m.snapshotConfig, 0) else (m.cfg.bootstrap, 0))

def activateFromAppendedEntries (m : Memory) : List Entry → Checked Panic Memory
  | [] => .ok m
  | e :: es =>
    match e.type with
    | .normal => activateFromAppendedEntries m es
    | .config =>
      match decodeConfigChange e.data with
      | .error _ => .error (.panic (.malformedConfigEntry e.index))
      | .ok change =>
        match change.cfg with
        | none => activateFromAppendedEntries m es
        | some cfg =>
          if !m.activeConfig.isZero && !classifyTransition m.activeConfig cfg then
            .error (.panic (.invalidTransition e.index))
          else activateFromAppendedEntries
            { m with activeConfig := cfg, activeConfigIndex := e.index } es

def initReplicationStateFor (m : Memory) (prevLast : Nat) (id : NodeID) :
    Checked Panic Memory := do
  let nx ← (if !(m.nextIndex.getD []).has id then write m.nextIndex (·.set id (prevLast + 1))
    else .ok m.nextIndex)
  let mx ← (if !(m.matchIndex.getD []).has id then write m.matchIndex (·.set id 0)
    else .ok m.matchIndex)
  .ok { m with nextIndex := nx, matchIndex := mx }

/-! ## Construction and bookkeeping -/

def newCoreFromSnapshot (cfg : Config) (hs : HardState) (snapshotIndex snapshotTerm : Nat)
    (snapshotConfig : Configuration) (snapshotHasConfig : Bool) (entries : List Entry) :
    Checked Panic (Option Memory) :=
  if !cfg.valid || !Core.gapFree (snapshotIndex + 1) entries then .ok none
  else do
    let m : Memory :=
      { cfg := cfg, role := .follower, currentTerm := hs.currentTerm, votedFor := hs.votedFor,
        leaderID := noVote, log := sentinel snapshotIndex snapshotTerm :: entries,
        snapshotIndex := snapshotIndex, snapshotTerm := snapshotTerm,
        commitIndex := snapshotIndex, appliedIndex := snapshotIndex, nextIndex := some [],
        matchIndex := some [], votesReceived := some [], persistSeq := 0, persistedSeq := 0,
        pending := [], activeConfig := .zero, activeConfigIndex := 0,
        snapshotConfig := snapshotConfig, snapshotHasConfig := snapshotHasConfig,
        pendingConfIndex := 0, heardFromLeader := false }
    let active ← m.configAt m.lastIndex
    .ok (some { m with activeConfig := active.1, activeConfigIndex := active.2 })

def setApplied (m : Memory) (idx : Nat) : Memory :=
  if idx > m.appliedIndex then { m with appliedIndex := idx } else m

def compact (m : Memory) (uptoIndex : Nat) : Checked Panic (Option Memory) :=
  if uptoIndex ≤ m.snapshotIndex ∨ uptoIndex > m.appliedIndex then .ok none
  else do
    let cfg ← m.configAt uptoIndex
    let e ← element m.log (m.pos uptoIndex)
    let rest ← cut m.log (m.pos uptoIndex + 1) m.log.length
    .ok (some { m with
      log := sentinel uptoIndex e.term :: rest
      snapshotIndex := uptoIndex
      snapshotTerm := e.term
      snapshotConfig := cfg.1
      snapshotHasConfig := true
      activeConfigIndex := if m.activeConfigIndex ≤ uptoIndex then 0 else m.activeConfigIndex })

/-! ## Pieces that several handlers share -/

def nextPersistSeq (m : Memory) : Memory := { m with persistSeq := m.persistSeq + 1 }

def hardState (m : Memory) : HardState := ⟨m.currentTerm, m.votedFor⟩

def hardStateRequest (m : Memory) : PersistRequest := ⟨m.persistSeq, some m.hardState, none, []⟩

def leadsOrCampaigns (m : Memory) : Bool := m.role = .leader || m.role = .candidate

def stepDownTo (m : Memory) (term : Nat) : Memory :=
  { m with role := .follower, currentTerm := term, votedFor := noVote, leaderID := noVote,
           votesReceived := none, heardFromLeader := false }

def invalidatePendingFrom (m : Memory) (idx : Nat) : Memory :=
  { m with pending := m.pending.filter fun p =>
      match p.kind with
      | .voteGrant _ => true
      | .appendAck _ i _ => i < idx
      | .commitAdvance i _ => i < idx
      | .selfMatch i _ => i < idx }

def handleHigherTerm (m : Memory) (term : Nat) : Memory × Output :=
  let stepped := m.leadsOrCampaigns
  let m := (m.stepDownTo term).nextPersistSeq
  (m, { persistRequest := some m.hardStateRequest, steppedDown := stepped,
        resetElectionTimer := stepped })

def appendEntriesMessage (m : Memory) (peer : NodeID) : Checked Panic (Memory × Message) :=
  let next := max ((m.nextIndex.getD []).get peer) 1
  if next ≤ m.snapshotIndex then
    .ok (m, ⟨m.cfg.id, peer, m.currentTerm, .installSnapshotRequest m.snapshotIndex
      m.snapshotTerm m.snapshotConfig m.snapshotHasConfig⟩)
  else do
    let prevTerm ← m.termAt (next - 1)
    let entries ← (if next ≤ m.lastIndex then cut m.log (m.pos next) m.log.length else .ok [])
    let nextIndex ← write m.nextIndex
      (·.set peer (if next ≤ m.lastIndex then m.lastIndex + 1 else next))
    .ok ({ m with nextIndex := nextIndex },
      ⟨m.cfg.id, peer, m.currentTerm, .appendEntriesRequest (next - 1) prevTerm entries
        m.commitIndex⟩)

def replicateTo (m : Memory) : List NodeID → Checked Panic (Memory × List Message)
  | [] => .ok (m, [])
  | peer :: peers => do
      let sent ← m.appendEntriesMessage peer
      let rest ← replicateTo sent.1 peers
      .ok (rest.1, sent.2 :: rest.2)

def votersButSelf (m : Memory) : List NodeID :=
  m.activeConfig.voterIDs.filter (· ≠ m.cfg.id)

def peers (m : Memory) : List NodeID :=
  m.votersButSelf ++ m.activeConfig.learners.map (·.id)

def becomeLeader (m : Memory) (out : Output) : Checked Panic (Memory × Output) := do
  let last := m.lastIndex
  let members := m.activeConfig.voterIDs ++ m.activeConfig.learners.map (·.id)
  let m := { m with
    role := .leader, leaderID := m.cfg.id, votesReceived := none, pendingConfIndex := last
    nextIndex := some (members.map fun id => (id, last + 1))
    matchIndex := some (IndexMap.set (members.map fun id => (id, 0)) m.cfg.id last) }
  let sent ← m.replicateTo m.peers
  .ok (sent.1, { out with becameLeader := true, resetHeartbeatTimer := true,
                          messages := out.messages ++ sent.2 })

/-! ## Commitment -/

def matchCount (m : Memory) (n : Nat) : Nat :=
  m.activeConfig.voterIDs.countP fun id => n ≤ (m.matchIndex.getD []).get id

def commitCandidate (m : Memory) : Nat → Checked Panic (Option Nat)
  | 0 => .ok none
  | n + 1 =>
    if n + 1 ≤ m.commitIndex then .ok none
    else do
      let term ← m.termAt (n + 1)
      if term = m.currentTerm ∧ m.activeConfig.majority ≤ m.matchCount (n + 1) then
        .ok (some (n + 1))
      else commitCandidate m n

/-- `log[pos(start) : pos(n)+1]`, from the first index above the commit index and the boundary. -/
def newlyCommitted (m : Memory) (n : Nat) : Checked Panic (List Entry) :=
  let start := if m.commitIndex + 1 ≤ m.snapshotIndex then m.snapshotIndex + 1
    else m.commitIndex + 1
  cut m.log (m.pos start) (m.pos n + 1)

def maybeStepDownAfterSelfRemoval (m : Memory) (out : Output) : Memory × Output :=
  if m.role ≠ .leader ∨ m.activeConfig.isVoter m.cfg.id ∨ m.activeConfigIndex > m.commitIndex then
    (m, out)
  else
    ({ m with role := .follower, leaderID := noVote, nextIndex := none, matchIndex := none,
              votesReceived := none }, { out with steppedDown := true })

def advanceLeaderCommit (m : Memory) (out : Output) : Checked Panic (Memory × Output) := do
  match ← m.commitCandidate m.lastIndex with
  | none => .ok (m, out)
  | some n =>
    let new ← m.newlyCommitted n
    .ok (maybeStepDownAfterSelfRemoval { m with commitIndex := n }
      { out with committedEntries := out.committedEntries ++ new })

def advanceFollowerCommit (m : Memory) (newCommit : Nat) (out : Output) :
    Checked Panic (Memory × Output) :=
  let newCommit := min newCommit m.lastIndex
  if newCommit ≤ m.commitIndex then .ok (m, out)
  else do
    let new ← m.newlyCommitted newCommit
    .ok ({ m with commitIndex := newCommit },
      { out with committedEntries := out.committedEntries ++ new })

/-! ## Timeouts and proposals -/

def handleElectionTimeout (m : Memory) : Checked Panic (Memory × Output) :=
  if m.role = .leader then .ok (m, {})
  else
    let m := { m with heardFromLeader := false }
    if !m.activeConfig.isVoter m.cfg.id then .ok (m, {})
    else do
      let m := ({ m with
        role := .candidate, currentTerm := m.currentTerm + 1, votedFor := m.cfg.id
        leaderID := noVote, votesReceived := some [m.cfg.id] } : Memory).nextPersistSeq
      let messages ← m.votersButSelf.mapM fun id => do
        let lastTerm ← m.lastTerm
        .ok ⟨m.cfg.id, id, m.currentTerm, .requestVoteRequest m.lastIndex lastTerm⟩
      let out : Output :=
        { persistRequest := some m.hardStateRequest, resetElectionTimer := true
          messages := messages }
      if (m.votesReceived.getD []).length ≥ m.activeConfig.majority then m.becomeLeader out
      else .ok (m, out)

def handleHeartbeatTimeout (m : Memory) : Checked Panic (Memory × Output) :=
  if m.role ≠ .leader then .ok (m, {})
  else do
    let sent ← m.replicateTo m.peers
    .ok (sent.1, { resetHeartbeatTimer := true, messages := sent.2 })

def activateOwnEntry (m : Memory) (prevLast : Nat) (e : Entry) : Checked Panic Memory :=
  match e.type with
  | .normal => .ok m
  | .config =>
    match e.configuration? with
    | none => .error (.panic .leaderConfigEntry)
    | some cfg =>
      let m := { m with activeConfig := cfg, activeConfigIndex := e.index }
      (cfg.voterIDs ++ cfg.learners.map (·.id)).foldlM
        (fun m id => m.initReplicationStateFor prevLast id) m

/-- The end of `appendLeaderEntry`, once `entry` is in the log and active. -/
def announce (m : Memory) (entry : Entry) : Checked Panic (Memory × Output) := do
  let m := m.nextPersistSeq
  let m := ({ m with pending := m.pending ++
    [⟨m.persistSeq, m.currentTerm, .selfMatch entry.index m.currentTerm⟩] } : Memory)
  let sent ← m.replicateTo m.peers
  .ok (sent.1, { persistRequest := some ⟨m.persistSeq, none, none, [entry]⟩
                 messages := sent.2 })

def appendLeaderEntry (m : Memory) (t : EntryType) (data : Bytes) :
    Checked Panic (Memory × Output) := do
  let prevLast := m.lastIndex
  let entry : Entry := ⟨prevLast + 1, m.currentTerm, t, data⟩
  let mx ← write m.matchIndex (·.set m.cfg.id (prevLast + 1))
  let m ← activateOwnEntry { m with log := m.log ++ [entry], matchIndex := mx } prevLast entry
  m.announce entry

def handlePropose (m : Memory) (data : Bytes) : Checked Panic (Memory × Output) :=
  if m.role ≠ .leader then .ok (m, { proposalRejected := true, leaderHint := m.leaderID })
  else m.appendLeaderEntry .normal data

/-- `ProposeConfigChange`; a refusal is a result. -/
def proposeConfigChange (m : Memory) (kind : MembershipChangeKind) (requestID : Bytes)
    (targetID : NodeID) (targetAddr : Bytes) :
    Checked Panic (Except ProposeError (Memory × Output)) :=
  if m.role ≠ .leader then .ok (.error .notLeader)
  else if m.commitIndex < m.pendingConfIndex then .ok (.error .inheritedSuffixUncommitted)
  else do
    let term ← m.termAt m.commitIndex
    if term ≠ m.currentTerm then .ok (.error .noCurrentTermCommit)
    else if m.activeConfigIndex > m.commitIndex then .ok (.error .changeInProgress)
    else match buildNewConfiguration m.activeConfig kind targetID targetAddr with
      | .error e => .ok (.error e)
      | .ok newCfg =>
        if newCfg.voters.length = 0 then .ok (.error .lastVoterRemoval)
        else if !classifyTransition m.activeConfig newCfg then .ok (.error .invalidTransition)
        else do
          let r ← m.appendLeaderEntry .config
            (encodeConfigChange (wireKindFor kind) requestID targetID targetAddr newCfg)
          .ok (.ok r)

/-! ## Elections -/

def handleRequestVoteRequest (m : Memory) (msg : Message) (lastLogIndex lastLogTerm : Nat) :
    Checked Panic (Memory × Output) :=
  if !m.activeConfig.isVoter msg.sender then .ok (m, {})
  else if m.heardFromLeader then .ok (m, {})
  else if msg.term < m.currentTerm then
    .ok (m, { messages := [⟨m.cfg.id, msg.sender, m.currentTerm, .requestVoteResponse false⟩] })
  else do
    let higher : Bool := msg.term > m.currentTerm
    let stepped := higher && m.leadsOrCampaigns
    let m := if higher then m.stepDownTo msg.term else m
    let canVote := (m.votedFor = noVote || m.votedFor = msg.sender) &&
      m.activeConfig.isVoter m.cfg.id
    let logOK ← m.isLogUpToDate lastLogIndex lastLogTerm
    if canVote && logOK then
      let m := ({ m with votedFor := msg.sender } : Memory).nextPersistSeq
      .ok ({ m with pending := m.pending ++
          [⟨m.persistSeq, m.currentTerm, .voteGrant msg.sender⟩] },
        { persistRequest := some m.hardStateRequest, resetElectionTimer := true,
          steppedDown := stepped })
    else
      let out : Output :=
        { messages := [⟨m.cfg.id, msg.sender, m.currentTerm, .requestVoteResponse false⟩]
          steppedDown := stepped, resetElectionTimer := stepped }
      if higher then
        let m := m.nextPersistSeq
        .ok (m, { out with persistRequest := some m.hardStateRequest })
      else .ok (m, out)

def handleRequestVoteResponse (m : Memory) (msg : Message) (voteGranted : Bool) :
    Checked Panic (Memory × Output) :=
  if msg.term > m.currentTerm then .ok (m.handleHigherTerm msg.term)
  else if m.role ≠ .candidate ∨ msg.term ≠ m.currentTerm ∨ !voteGranted then .ok (m, {})
  else do
    let votes ← write m.votesReceived fun votes =>
      if msg.sender ∈ votes then votes else votes ++ [msg.sender]
    let m := { m with votesReceived := votes }
    if (votes.getD []).length ≥ m.activeConfig.majority then m.becomeLeader {} else .ok (m, {})

/-! ## Replication, on the follower -/

def recognizeLeader (m : Memory) (msg : Message) : Memory :=
  let m := if msg.term > m.currentTerm ∨ m.role ≠ .follower then m.stepDownTo msg.term else m
  { m with leaderID := msg.sender, heardFromLeader := true }

def conflictStart (m : Memory) (t : Nat) : Nat → Checked Panic Nat
  | 0 => .ok 0
  | i + 1 =>
    if i + 1 > m.snapshotIndex + 1 then do
      let term ← m.termAt i
      if term = t then conflictStart m t i else .ok (i + 1)
    else .ok (i + 1)

def conflictHint (m : Memory) (prevIndex : Nat) : Checked Panic (Nat × Nat) :=
  if prevIndex > m.lastIndex then .ok (m.lastIndex + 1, 0)
  else do
    let t ← m.termAt prevIndex
    let i ← m.conflictStart t prevIndex
    .ok (i, t)

def scanEntries (m : Memory) : Nat → List Entry → Checked Panic (Option Nat × List Entry)
  | _, [] => .ok (none, [])
  | idx, e :: es =>
    if idx ≤ m.lastIndex then do
      let term ← m.termAt idx
      if term = e.term then scanEntries m (idx + 1) es
      else if idx ≤ m.commitIndex then .error (.panic (.truncateCommitted idx m.commitIndex))
      else .ok (some idx, e :: es)
    else .ok (none, e :: es)

def appendScanned (m : Memory) (truncateFrom : Option Nat) (newEntries : List Entry) :
    Checked Panic Memory :=
  match truncateFrom with
  | some idx => do
      let m := m.invalidatePendingFrom idx
      let kept ← cut m.log 0 (m.pos idx)
      let m := { m with log := kept ++ newEntries }
      let active ← m.configAt m.lastIndex
      .ok { m with activeConfig := active.1, activeConfigIndex := active.2 }
  | none => activateFromAppendedEntries { m with log := m.log ++ newEntries } newEntries

def acknowledgeAppend (m : Memory) (msg : Message) (lastNew leaderCommit : Nat)
    (needPersist : Bool) (out : Output) : Checked Panic (Memory × Output) :=
  let newCommit := min leaderCommit lastNew
  if needPersist then do
    let commit : List PendingItem ←
      (if newCommit > m.commitIndex then do
        let entryTerm ← m.termAt newCommit
        .ok [⟨m.persistSeq, m.currentTerm, .commitAdvance newCommit entryTerm⟩]
      else .ok [])
    let entryTerm ← m.termAt lastNew
    .ok ({ m with pending := m.pending ++ (commit ++
      [⟨m.persistSeq, m.currentTerm, .appendAck msg.sender lastNew entryTerm⟩]) }, out)
  else do
    let r ← m.advanceFollowerCommit newCommit out
    .ok (r.1, { r.2 with messages := r.2.messages ++
      [⟨m.cfg.id, msg.sender, m.currentTerm, .appendEntriesResponse true lastNew 0 0⟩] })

def replyAndStore (m : Memory) (stateChanged : Bool) (out : Output) : Memory × Output :=
  if stateChanged then
    let m := m.nextPersistSeq
    (m, { out with persistRequest := some m.hardStateRequest })
  else (m, out)

/-- The consistency check of an append: whether the log lacks `prevLogIndex` or holds another
term there. -/
def mismatches (m : Memory) (prevLogIndex prevLogTerm : Nat) : Checked Panic Bool :=
  if prevLogIndex > m.lastIndex then .ok true
  else do
    let term ← m.termAt prevLogIndex
    .ok (term ≠ prevLogTerm)

/-- The end of `handleAppendEntriesRequest`, once the scanned entries are in the log. -/
def storeScanned (m : Memory) (msg : Message) (lastNew leaderCommit : Nat) (stateChanged : Bool)
    (scanned : Option Nat × List Entry) (out : Output) : Checked Panic (Memory × Output) :=
  let needPersist := stateChanged || scanned.1.isSome || !scanned.2.isEmpty
  let m := if needPersist then m.nextPersistSeq else m
  let out := if needPersist then
      { out with persistRequest := some ⟨m.persistSeq,
          if stateChanged then some m.hardState else none, scanned.1, scanned.2⟩ }
    else out
  m.acknowledgeAppend msg lastNew leaderCommit needPersist out

def handleAppendEntriesRequest (m : Memory) (msg : Message) (prevLogIndex prevLogTerm : Nat)
    (entries : List Entry) (leaderCommit : Nat) : Checked Panic (Memory × Output) :=
  if msg.term < m.currentTerm then
    .ok (m, { messages :=
      [⟨m.cfg.id, msg.sender, m.currentTerm, .appendEntriesResponse false 0 0 0⟩] })
  else
    let stateChanged : Bool := msg.term > m.currentTerm
    let out : Output := { steppedDown := m.leadsOrCampaigns, resetElectionTimer := true }
    let m := m.recognizeLeader msg
    if prevLogIndex < m.snapshotIndex then
      .ok (m.replyAndStore stateChanged { out with messages :=
        [⟨m.cfg.id, msg.sender, m.currentTerm,
          .appendEntriesResponse true m.snapshotIndex 0 0⟩] })
    else do
      if ← m.mismatches prevLogIndex prevLogTerm then
        let hint ← m.conflictHint prevLogIndex
        .ok (m.replyAndStore stateChanged { out with messages :=
          [⟨m.cfg.id, msg.sender, m.currentTerm,
            .appendEntriesResponse false 0 hint.1 hint.2⟩] })
      else
        let scanned ← m.scanEntries (prevLogIndex + 1) entries
        let m ← m.appendScanned scanned.1 scanned.2
        m.storeScanned msg (prevLogIndex + entries.length) leaderCommit stateChanged scanned out

/-! ## Replication, on the leader -/

def continueReplication (m : Memory) (peer : NodeID) (out : Output) :
    Checked Panic (Memory × Output) :=
  if m.role = .leader ∧ m.activeConfig.isMember peer ∧
      (m.nextIndex.getD []).get peer ≤ m.lastIndex then do
    let sent ← m.appendEntriesMessage peer
    .ok (sent.1, { out with messages := out.messages ++ [sent.2] })
  else .ok (m, out)

def recordMatch (m : Memory) (peer : NodeID) (matchIndex : Nat) :
    Checked Panic (Memory × Output) := do
  let mx ← (if matchIndex > (m.matchIndex.getD []).get peer then
      write m.matchIndex (·.set peer matchIndex) else .ok m.matchIndex)
  let m := { m with matchIndex := mx }
  let nx ← (if matchIndex + 1 > (m.nextIndex.getD []).get peer then
      write m.nextIndex (·.set peer (matchIndex + 1)) else .ok m.nextIndex)
  let m := { m with nextIndex := nx }
  let r ← m.advanceLeaderCommit {}
  r.1.continueReplication peer r.2

def lastOfTerm (m : Memory) (t : Nat) : Nat → Checked Panic (Option Nat)
  | 0 => .ok none
  | i + 1 => do
      let term ← m.termAt (i + 1)
      if term = t then .ok (some (i + 1)) else lastOfTerm m t i

def resumeIndex (m : Memory) (conflictIndex conflictTerm : Nat) : Checked Panic Nat :=
  if conflictTerm = 0 then .ok (max conflictIndex 1)
  else do
    match ← m.lastOfTerm conflictTerm m.lastIndex with
    | some i => .ok (max (i + 1) 1)
    | none => .ok (max conflictIndex 1)

def handleAppendEntriesResponse (m : Memory) (msg : Message) (success : Bool)
    (matchIndex conflictIndex conflictTerm : Nat) : Checked Panic (Memory × Output) :=
  if msg.term > m.currentTerm then .ok (m.handleHigherTerm msg.term)
  else if m.role ≠ .leader ∨ msg.term ≠ m.currentTerm then .ok (m, {})
  else if success then m.recordMatch msg.sender matchIndex
  else do
    let next ← m.resumeIndex conflictIndex conflictTerm
    let nx ← (if next < (m.nextIndex.getD []).get msg.sender then
        write m.nextIndex (·.set msg.sender next) else .ok m.nextIndex)
    let m := { m with nextIndex := nx }
    if m.activeConfig.isMember msg.sender then
      let sent ← m.appendEntriesMessage msg.sender
      .ok (sent.1, { messages := [sent.2] })
    else .ok (m, {})

/-! ## Snapshots -/

def handleInstallSnapshotRequest (m : Memory) (msg : Message)
    (lastIncludedIndex lastIncludedTerm : Nat) (configuration : Configuration)
    (hasConfiguration : Bool) : Memory × Output :=
  if msg.term < m.currentTerm then
    (m, { messages :=
      [⟨m.cfg.id, msg.sender, m.currentTerm, .installSnapshotResponse false 0⟩] })
  else
    let stateChanged : Bool := msg.term > m.currentTerm
    let out : Output := { steppedDown := m.leadsOrCampaigns, resetElectionTimer := true }
    let m := m.recognizeLeader msg
    if lastIncludedIndex ≤ m.snapshotIndex ∨ lastIncludedIndex ≤ m.commitIndex then
      m.replyAndStore stateChanged { out with messages :=
        [⟨m.cfg.id, msg.sender, m.currentTerm,
          .installSnapshotResponse true (max m.snapshotIndex m.commitIndex)⟩] }
    else
      let m := ({ m with
        snapshotIndex := lastIncludedIndex, snapshotTerm := lastIncludedTerm
        log := [sentinel lastIncludedIndex lastIncludedTerm]
        pending := [], commitIndex := max m.commitIndex lastIncludedIndex } : Memory)
      let m := m.setApplied lastIncludedIndex
      let m := { m with
        snapshotConfig := configuration, snapshotHasConfig := hasConfiguration
        activeConfigIndex := 0
        activeConfig := if hasConfiguration then configuration else m.cfg.bootstrap }
      m.replyAndStore stateChanged { out with messages :=
        [⟨m.cfg.id, msg.sender, m.currentTerm,
          .installSnapshotResponse true m.snapshotIndex⟩] }

def handleInstallSnapshotResponse (m : Memory) (msg : Message) (success : Bool)
    (matchIndex : Nat) : Checked Panic (Memory × Output) :=
  if msg.term > m.currentTerm then .ok (m.handleHigherTerm msg.term)
  else if m.role ≠ .leader ∨ msg.term ≠ m.currentTerm ∨ !success then .ok (m, {})
  else m.recordMatch msg.sender matchIndex

def handleMessage (m : Memory) (msg : Message) : Checked Panic (Memory × Output) :=
  match msg.body with
  | .requestVoteRequest lastLogIndex lastLogTerm =>
    m.handleRequestVoteRequest msg lastLogIndex lastLogTerm
  | .requestVoteResponse voteGranted => m.handleRequestVoteResponse msg voteGranted
  | .appendEntriesRequest prevLogIndex prevLogTerm entries leaderCommit =>
    m.handleAppendEntriesRequest msg prevLogIndex prevLogTerm entries leaderCommit
  | .appendEntriesResponse success matchIndex conflictIndex conflictTerm =>
    m.handleAppendEntriesResponse msg success matchIndex conflictIndex conflictTerm
  | .installSnapshotRequest index term configuration hasConfiguration =>
    .ok (m.handleInstallSnapshotRequest msg index term configuration hasConfiguration)
  | .installSnapshotResponse success matchIndex =>
    m.handleInstallSnapshotResponse msg success matchIndex

/-! ## Completed writes -/

def entryStillPresent (m : Memory) (index term : Nat) : Checked Panic Bool :=
  if m.pos index ≥ 0 ∧ m.pos index < m.log.length then do
    let e ← element m.log (m.pos index)
    .ok (e.term = term)
  else .ok false

def releaseItem (r : Memory × Output) (p : PendingItem) : Checked Panic (Memory × Output) :=
  let m := r.1
  let out := r.2
  match p.kind with
  | .voteGrant candidate =>
    if m.currentTerm = p.term ∧ m.votedFor = candidate then
      .ok (m, { out with messages := out.messages ++
        [⟨m.cfg.id, candidate, m.currentTerm, .requestVoteResponse true⟩] })
    else .ok r
  | .appendAck receiver index entryTerm => do
      if ← m.entryStillPresent index entryTerm then
        .ok (m, { out with messages := out.messages ++
          [⟨m.cfg.id, receiver, m.currentTerm, .appendEntriesResponse true index 0 0⟩] })
      else .ok r
  | .commitAdvance index entryTerm => do
      if ← m.entryStillPresent index entryTerm then m.advanceFollowerCommit index out
      else .ok r
  | .selfMatch index entryTerm =>
    if m.role = .leader ∧ m.currentTerm = p.term then do
      if ← m.entryStillPresent index entryTerm then
        let mx ← (if index > (m.matchIndex.getD []).get m.cfg.id then
            write m.matchIndex (·.set m.cfg.id index) else .ok m.matchIndex)
        advanceLeaderCommit { m with matchIndex := mx } out
      else .ok r
    else .ok r

def handlePersistenceComplete (m : Memory) (seq : Nat) : Checked Panic (Memory × Output) := do
  let m := { m with persistedSeq := max m.persistedSeq seq }
  let done := m.pending.filter fun p => p.seq ≤ m.persistedSeq
  let remaining := m.pending.filter fun p => m.persistedSeq < p.seq
  let r ← done.foldlM releaseItem (m, {})
  .ok ({ r.1 with pending := remaining }, r.2)

def step (m : Memory) : Input → Checked Panic (Memory × Output)
  | .electionTimeout => m.handleElectionTimeout
  | .heartbeatTimeout => m.handleHeartbeatTimeout
  | .message msg => m.handleMessage msg
  | .propose data => m.handlePropose data
  | .persistenceComplete seq => m.handlePersistenceComplete seq

end Memory

end ChronicleDB.Raft
