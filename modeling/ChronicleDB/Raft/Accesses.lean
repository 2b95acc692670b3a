import ChronicleDB.Raft.Memory
import ChronicleDB.Raft.Replication

/-!
# The accesses of a core

A core in memory whose log starts with its sentinel, and whose role has its maps,
computes what `Core` says, and misuses no slice and no map on the way, as long as its
commit index lies within its log.
-/

namespace ChronicleDB.Raft

open Foundation Checked List Memory

theorem Core.lastTerm_eq_termAt (c : Core) : c.lastTerm = c.termAt c.lastIndex := by
  unfold lastTerm termAt lastIndex
  rw [if_neg (by omega), getLast?_eq_getElem?]
  cases hlen : c.log.length with
  | zero => simp [length_eq_zero_iff.mp hlen]
  | succ k =>
    rw [if_neg (by omega), show c.snapshotIndex + (k + 1) - c.snapshotIndex - 1 = k by omega]
    have hk : k < c.log.length := by omega
    rw [Nat.add_sub_cancel, getElem?_eq_getElem hk]

def Core.announce (c : Core) (entry : Entry) : Core × Output :=
  let c := c.nextPersistSeq
  let c := ({ c with pending := c.pending ++
    [⟨c.persistSeq, c.currentTerm, .selfMatch entry.index c.currentTerm⟩] } : Core)
  let sent := c.replicateTo c.peers
  (sent.1, { persistRequest := some ⟨c.persistSeq, none, none, [entry]⟩, messages := sent.2 })

theorem Core.appendLeaderEntry_eq (c : Core) (t : EntryType) (data : Bytes) :
    c.appendLeaderEntry t data =
      activateOwnEntry { c with
        log := c.log ++ [⟨c.lastIndex + 1, c.currentTerm, t, data⟩]
        matchIndex := c.matchIndex.set c.cfg.id (c.lastIndex + 1) } c.lastIndex
        ⟨c.lastIndex + 1, c.currentTerm, t, data⟩ >>= fun c' =>
      .ok (c'.announce ⟨c.lastIndex + 1, c.currentTerm, t, data⟩) := by
  unfold appendLeaderEntry
  dsimp only
  cases activateOwnEntry _ _ _ <;> rfl

def Core.storeScanned (c : Core) (msg : Message) (lastNew leaderCommit : Nat) (stateChanged : Bool)
    (scanned : Option Nat × List Entry) (out : Output) : Core × Output :=
  let needPersist := stateChanged || scanned.1.isSome || !scanned.2.isEmpty
  let c := if needPersist then c.nextPersistSeq else c
  let out := if needPersist then
      { out with persistRequest := some ⟨c.persistSeq,
          if stateChanged then some c.hardState else none, scanned.1, scanned.2⟩ }
    else out
  c.acknowledgeAppend msg lastNew leaderCommit needPersist out

theorem Core.handleAppendEntriesRequest_eq {c : Core} {msg : Message} {prev prevTerm commit : Nat}
    {entries : List Entry} (hterm : ¬ msg.term < c.currentTerm)
    (hprev : ¬ prev < (c.recognizeLeader msg).snapshotIndex)
    (hmatch : ¬ (prev > (c.recognizeLeader msg).lastIndex ∨
      (c.recognizeLeader msg).termAt prev ≠ prevTerm)) :
    c.handleAppendEntriesRequest msg prev prevTerm entries commit =
      (c.recognizeLeader msg).scanEntries (prev + 1) entries >>= fun scanned =>
      (c.recognizeLeader msg).appendScanned scanned.1 scanned.2 >>= fun c' =>
      .ok (c'.storeScanned msg (prev + entries.length) commit (msg.term > c.currentTerm) scanned
        { steppedDown := c.leadsOrCampaigns, resetElectionTimer := true }) := by
  unfold handleAppendEntriesRequest
  dsimp only
  rw [if_neg hterm, if_neg hprev, if_neg hmatch]
  cases (c.recognizeLeader msg).scanEntries (prev + 1) entries with
  | error p => rfl
  | ok scanned =>
    obtain ⟨truncateFrom, new⟩ := scanned
    change _ = (c.recognizeLeader msg).appendScanned truncateFrom new >>= _
    dsimp only
    cases (c.recognizeLeader msg).appendScanned truncateFrom new <;> rfl

namespace Memory

@[simps] def core (m : Memory) : Core where
  cfg := m.cfg
  role := m.role
  currentTerm := m.currentTerm
  votedFor := m.votedFor
  leaderID := m.leaderID
  log := m.log.tail
  snapshotIndex := m.snapshotIndex
  snapshotTerm := m.snapshotTerm
  commitIndex := m.commitIndex
  appliedIndex := m.appliedIndex
  nextIndex := m.nextIndex.getD []
  matchIndex := m.matchIndex.getD []
  votesReceived := m.votesReceived.getD []
  persistSeq := m.persistSeq
  persistedSeq := m.persistedSeq
  pending := m.pending
  activeConfig := m.activeConfig
  activeConfigIndex := m.activeConfigIndex
  snapshotConfig := m.snapshotConfig
  snapshotHasConfig := m.snapshotHasConfig
  pendingConfIndex := m.pendingConfIndex
  heardFromLeader := m.heardFromLeader

structure Formed (m : Memory) : Prop where
  log : m.log = sentinel m.snapshotIndex m.snapshotTerm :: m.log.tail
  leader : m.role = .leader → m.nextIndex.isSome = true ∧ m.matchIndex.isSome = true
  candidate : m.role = .candidate → m.votesReceived.isSome = true

/-- `m` stands for `c`. -/
def Holds (m : Memory) (c : Core) : Prop := m.core = c ∧ m.Formed

def Returns {β : Type} (r : Memory × β) (s : Core × β) : Prop := r.1.Holds s.1 ∧ r.2 = s.2

variable {m : Memory}

theorem lastIndex_core (m : Memory) : m.core.lastIndex = m.lastIndex := by
  simp [Core.lastIndex, lastIndex, core]

theorem Formed.length_pos (h : m.Formed) : 0 < m.log.length := by
  rw [h.log]
  simp

theorem Formed.element_boundary (h : m.Formed) :
    (element m.log (m.pos m.snapshotIndex) : Checked Panic Entry) =
      .ok (sentinel m.snapshotIndex m.snapshotTerm) := by
  apply element_of_getElem?
  · simp [pos]
  · rw [h.log]
    simp [pos]

theorem Formed.element_above (h : m.Formed) {i : Nat} (hi : m.snapshotIndex < i) {e : Entry}
    (he : m.core.log[i - m.snapshotIndex - 1]? = some e) :
    (element m.log (m.pos i) : Checked Panic Entry) = .ok e := by
  have hpos : (m.pos i).toNat = i - m.snapshotIndex - 1 + 1 := by
    unfold pos
    omega
  apply element_of_getElem?
  · unfold pos
    omega
  · rw [h.log, hpos, getElem?_cons_succ]
    exact he

theorem Formed.length_log (h : m.Formed) : m.log.length = m.core.log.length + 1 := by
  have := h.length_pos
  rw [core_log, length_tail]
  omega

theorem Formed.termAt_eq (h : m.Formed) (i : Nat) : m.termAt i = .ok (m.core.termAt i) := by
  have hlen := h.length_log
  unfold termAt Core.termAt pos
  rw [core_snapshotIndex, core_snapshotTerm]
  split
  case isTrue => rfl
  case isFalse hlt =>
    by_cases heq : i = m.snapshotIndex
    · rw [if_pos heq, heq, if_neg (by omega), ← pos, h.element_boundary]
      rfl
    · rw [if_neg heq, ← pos]
      cases hget : m.core.log[i - m.snapshotIndex - 1]? with
      | none =>
        rw [List.getElem?_eq_none_iff] at hget
        rw [if_pos (by unfold pos; omega)]
      | some e =>
        have := (List.getElem?_eq_some_iff.mp hget).1
        rw [if_neg (by unfold pos; omega), h.element_above (by omega) hget, ok_bind]

theorem Formed.lastTerm_eq (h : m.Formed) : m.lastTerm = .ok m.core.lastTerm := by
  have hlen := h.length_log
  have hmemory : m.lastTerm = m.termAt m.lastIndex := by
    have hpos : m.pos m.lastIndex = (m.log.length : Int) - 1 := by
      unfold pos lastIndex
      omega
    unfold termAt lastTerm
    rw [if_neg (by unfold lastIndex; omega), hpos, if_neg (by omega)]
  rw [hmemory, h.termAt_eq, ← lastIndex_core, Core.lastTerm_eq_termAt]

theorem Formed.isLogUpToDate_eq (h : m.Formed) (i t : Nat) :
    m.isLogUpToDate i t = .ok (m.core.isLogUpToDate i t) := by
  unfold isLogUpToDate Core.isLogUpToDate
  rw [h.lastTerm_eq, ok_bind, lastIndex_core]
  split <;> rfl

/-! ## Configurations -/

theorem Formed.loggedConfig_eq (h : m.Formed) (i : Nat) :
    m.loggedConfig i = .ok (m.core.loggedConfig i) := by
  have hlen := h.length_log
  induction i with
  | zero => rfl
  | succ i ih =>
    rw [loggedConfig, Core.loggedConfig, core_snapshotIndex]
    split
    case isTrue => rfl
    case isFalse hlt =>
      cases hget : m.core.log[i - m.snapshotIndex]? with
      | none =>
        rw [List.getElem?_eq_none_iff] at hget
        rw [if_pos (by unfold pos; omega)]
        exact ih
      | some e =>
        have hi := (List.getElem?_eq_some_iff.mp hget).1
        rw [if_neg (by unfold pos; omega), h.element_above (by omega)
          (by rwa [show i + 1 - m.snapshotIndex - 1 = i - m.snapshotIndex by omega]), ok_bind,
          Option.bind_some]
        cases e.configuration? with
        | none => exact ih
        | some cfg => rfl

theorem Formed.configAt_eq (h : m.Formed) (i : Nat) : m.configAt i = .ok (m.core.configAt i) := by
  unfold configAt Core.configAt
  rw [h.loggedConfig_eq, ok_bind]
  cases m.core.loggedConfig i <;> rfl

/-! ## Replication messages -/

theorem Formed.cut_eq (h : m.Formed) {first last : Nat} (hfirst : m.snapshotIndex < first)
    (hle : first ≤ last + 1) (hlast : last ≤ m.lastIndex) :
    (cut m.log (m.pos first) (m.pos last + 1) : Checked Panic (List Entry)) =
      .ok (m.core.slice first last) := by
  have hlen := h.length_log
  have hfirstPos : (m.pos first).toNat = first - m.snapshotIndex - 1 + 1 := by
    unfold pos
    omega
  have hlastPos : (m.pos last + 1).toNat = last - m.snapshotIndex + 1 := by
    unfold pos
    omega
  unfold lastIndex at hlast
  rw [cut_of_le (by unfold pos; omega) (by unfold pos; omega) (by unfold pos; omega), hfirstPos,
    hlastPos, h.log, take_succ_cons, drop_succ_cons]
  rfl

theorem Formed.cut_from (h : m.Formed) {first : Nat} (hfirst : m.snapshotIndex < first)
    (hle : first ≤ m.lastIndex) :
    (cut m.log (m.pos first) m.log.length : Checked Panic (List Entry)) =
      .ok (m.core.slice first m.core.lastIndex) := by
  have hlen := h.length_log
  have hpos : (m.log.length : Int) = m.pos m.lastIndex + 1 := by
    unfold pos lastIndex
    omega
  rw [hpos, h.cut_eq hfirst (by omega) le_rfl, lastIndex_core]

theorem Formed.appendEntriesMessage (h : m.Formed) (hrole : m.role = .leader) (peer : NodeID) :
    Refines Returns (m.appendEntriesMessage peer) (.ok (m.core.appendEntriesMessage peer)) := by
  unfold Memory.appendEntriesMessage Core.appendEntriesMessage
  simp only [core_nextIndex, core_snapshotIndex, lastIndex_core]
  split
  case isTrue => exact ⟨_, rfl, ⟨rfl, h⟩, rfl⟩
  case isFalse hnext =>
    generalize hn : max ((m.nextIndex.getD []).get peer) 1 = next at hnext
    have hentries : (if next ≤ m.lastIndex then cut m.log (m.pos next) m.log.length else .ok []) =
        (.ok (if next ≤ m.lastIndex then m.core.slice next m.lastIndex else []) :
          Checked Panic (List Entry)) := by
      split
      case isTrue hle => rw [h.cut_from (by omega) hle, lastIndex_core]
      case isFalse => rfl
    rw [h.termAt_eq, ok_bind, hentries, ok_bind, write_of_isSome (h.leader hrole).1 _ [], ok_bind]
    exact ⟨_, rfl, ⟨rfl, h.log, fun _ => ⟨rfl, (h.leader hrole).2⟩, h.candidate⟩, rfl⟩

theorem Formed.replicateTo (h : m.Formed) (hrole : m.role = .leader) (peers : List NodeID) :
    Refines Returns (m.replicateTo peers) (.ok (m.core.replicateTo peers)) := by
  induction peers generalizing m with
  | nil => exact ⟨_, rfl, ⟨rfl, h⟩, rfl⟩
  | cons peer peers ih =>
    obtain ⟨⟨m₁, sent⟩, hsent, ⟨hcore, hformed⟩, rfl⟩ := h.appendEntriesMessage hrole peer
    have hrole₁ : m₁.role = .leader := by
      obtain ⟨nx, hnx⟩ := m.core.appendEntriesMessage_core peer
      rw [← core_role, hcore, hnx]
      exact hrole
    obtain ⟨⟨m₂, rest⟩, hrest, hcore₂, rfl⟩ := ih hformed hrole₁
    rw [hcore] at hcore₂
    rw [replicateTo, hsent, ok_bind, hrest, ok_bind, Core.replicateTo]
    refine ⟨_, rfl, hcore₂, ?_⟩
    rw [hcore]

theorem Formed.becomeLeader (h : m.Formed) (out : Output) :
    Refines Returns (m.becomeLeader out) (.ok (m.core.becomeLeader out)) := by
  unfold Memory.becomeLeader Core.becomeLeader
  simp only [lastIndex_core]
  generalize hm : ({ m with
    role := .leader, leaderID := m.cfg.id, votesReceived := none, pendingConfIndex := m.lastIndex
    nextIndex := some _, matchIndex := some _ } : Memory) = m'
  have hformed : m'.Formed := by
    subst hm
    exact ⟨h.log, fun _ => ⟨rfl, rfl⟩, fun hrole => nomatch hrole⟩
  obtain ⟨⟨m₁, sent⟩, hsent, hholds, hout⟩ := hformed.replicateTo (by subst hm; rfl) m'.peers
  rw [hsent, ok_bind]
  subst hm
  exact ⟨_, rfl, hholds, by rw [hout]; rfl⟩

/-! ## Commitment -/

theorem Formed.commitCandidate_eq (h : m.Formed) (n : Nat) :
    m.commitCandidate n = .ok (m.core.commitCandidate n) := by
  induction n with
  | zero => rfl
  | succ n ih =>
    rw [commitCandidate, Core.commitCandidate, core_commitIndex]
    split
    case isTrue => rfl
    case isFalse =>
      rw [h.termAt_eq, ok_bind]
      have hiff : (m.core.termAt (n + 1) = m.currentTerm ∧
          m.activeConfig.majority ≤ m.matchCount (n + 1)) ↔
          (m.core.termAt (n + 1) = m.core.currentTerm ∧
            m.core.activeConfig.majority ≤ m.core.matchCount (n + 1)) := Iff.rfl
      by_cases hc : m.core.termAt (n + 1) = m.currentTerm ∧
          m.activeConfig.majority ≤ m.matchCount (n + 1)
      · rw [if_pos hc, if_pos (hiff.mp hc)]
      · rw [if_neg hc, if_neg (mt hiff.mpr hc), ih]

theorem Formed.newlyCommitted_eq (h : m.Formed) (hboundary : m.snapshotIndex ≤ m.commitIndex)
    {n : Nat} (hlt : m.commitIndex < n) (hle : n ≤ m.lastIndex) :
    m.newlyCommitted n = .ok (m.core.newlyCommitted n) := by
  unfold newlyCommitted Core.newlyCommitted
  rw [if_neg (by omega), h.cut_eq (by omega) (by omega) hle, core_commitIndex,
    core_snapshotIndex, Nat.max_eq_left (by omega)]

theorem Formed.maybeStepDown (h : m.Formed) (out : Output) :
    Returns (m.maybeStepDownAfterSelfRemoval out) (m.core.maybeStepDownAfterSelfRemoval out) := by
  unfold maybeStepDownAfterSelfRemoval Core.maybeStepDownAfterSelfRemoval
  simp only [core_role, core_activeConfig, core_cfg, core_activeConfigIndex, core_commitIndex]
  split
  case isTrue => exact ⟨⟨rfl, h⟩, rfl⟩
  case isFalse =>
    exact ⟨⟨rfl, h.log, nofun, nofun⟩, rfl⟩

theorem Formed.advanceLeaderCommit (h : m.Formed) (hboundary : m.snapshotIndex ≤ m.commitIndex)
    (out : Output) :
    Refines Returns (m.advanceLeaderCommit out) (.ok (m.core.advanceLeaderCommit out)) := by
  unfold Memory.advanceLeaderCommit Core.advanceLeaderCommit
  rw [h.commitCandidate_eq, ok_bind, lastIndex_core]
  cases hn : m.core.commitCandidate m.lastIndex with
  | none => exact ⟨_, rfl, ⟨rfl, h⟩, rfl⟩
  | some n =>
    obtain ⟨hlt, hle, -, -⟩ := Core.commitCandidate_spec hn
    dsimp only
    rw [h.newlyCommitted_eq hboundary hlt hle, ok_bind]
    exact ⟨_, rfl, Formed.maybeStepDown (m := { m with commitIndex := n })
      ⟨h.log, h.leader, h.candidate⟩ _⟩

theorem Formed.advanceFollowerCommit (h : m.Formed) (hboundary : m.snapshotIndex ≤ m.commitIndex)
    (n : Nat) (out : Output) :
    Refines Returns (m.advanceFollowerCommit n out) (.ok (m.core.advanceFollowerCommit n out)) := by
  unfold Memory.advanceFollowerCommit Core.advanceFollowerCommit
  simp only [core_commitIndex, lastIndex_core]
  split
  case isTrue => exact ⟨_, rfl, ⟨rfl, h⟩, rfl⟩
  case isFalse hlt =>
    rw [h.newlyCommitted_eq hboundary (by omega) (by omega), ok_bind]
    exact ⟨_, rfl, ⟨rfl, h.log, h.leader, h.candidate⟩, rfl⟩

/-! ## Timeouts and proposals -/

theorem Formed.solicit (h : m.Formed) (out : List Message → Output) :
    Refines Returns
      (do
        let messages ← m.votersButSelf.mapM fun id => do
          let lastTerm ← m.lastTerm
          .ok ⟨m.cfg.id, id, m.currentTerm, .requestVoteRequest m.lastIndex lastTerm⟩
        if (m.votesReceived.getD []).length ≥ m.activeConfig.majority then
          m.becomeLeader (out messages)
        else .ok (m, out messages))
      (.ok (let sent := out (m.core.votersButSelf.map fun id =>
          ⟨m.core.cfg.id, id, m.core.currentTerm,
            .requestVoteRequest m.core.lastIndex m.core.lastTerm⟩)
        if m.core.votesReceived.length ≥ m.core.activeConfig.majority then
          m.core.becomeLeader sent
        else (m.core, sent))) := by
  rw [mapM_eq_ok fun id _ => by rw [h.lastTerm_eq, ok_bind], ok_bind]
  simp only [core_votesReceived, core_activeConfig, lastIndex_core]
  split
  case isTrue => exact h.becomeLeader _
  case isFalse => exact ⟨_, rfl, ⟨rfl, h⟩, rfl⟩

theorem Formed.handleElectionTimeout (h : m.Formed) :
    Refines Returns m.handleElectionTimeout (.ok m.core.handleElectionTimeout) := by
  unfold Memory.handleElectionTimeout Core.handleElectionTimeout
  simp only [core_role, core_activeConfig, core_cfg]
  split
  case isTrue => exact ⟨_, rfl, ⟨rfl, h⟩, rfl⟩
  case isFalse =>
    split
    case isTrue => exact ⟨_, rfl, ⟨rfl, h.log, h.leader, h.candidate⟩, rfl⟩
    case isFalse =>
      have hformed : Formed ({ m with
          heardFromLeader := false, role := .candidate, currentTerm := m.currentTerm + 1
          votedFor := m.cfg.id, leaderID := noVote
          votesReceived := some [m.cfg.id] } : Memory).nextPersistSeq :=
        ⟨h.log, nofun, fun _ => rfl⟩
      exact hformed.solicit fun messages =>
        { persistRequest := some (hardStateRequest _), resetElectionTimer := true
          messages := messages }

theorem Formed.handleHeartbeatTimeout (h : m.Formed) :
    Refines Returns m.handleHeartbeatTimeout (.ok m.core.handleHeartbeatTimeout) := by
  unfold Memory.handleHeartbeatTimeout Core.handleHeartbeatTimeout
  simp only [core_role]
  split
  case isTrue => exact ⟨_, rfl, ⟨rfl, h⟩, rfl⟩
  case isFalse hrole =>
    obtain ⟨⟨m₁, sent⟩, hsent, hholds, hout⟩ := h.replicateTo (not_not.mp hrole) m.peers
    rw [hsent, ok_bind]
    exact ⟨_, rfl, hholds, by rw [hout]; rfl⟩

theorem Formed.initReplicationStateFor (h : m.Formed) (hrole : m.role = .leader)
    (prevLast : Nat) (id : NodeID) :
    ∃ m', m.initReplicationStateFor prevLast id = .ok m' ∧
      m'.Holds (m.core.initReplicationStateFor prevLast id) ∧ m'.role = .leader := by
  unfold Memory.initReplicationStateFor
  rw [write_if (h.leader hrole).1 _ _ [], ok_bind, write_if (h.leader hrole).2 _ _ [], ok_bind]
  refine ⟨_, rfl, ⟨?_, h.log, fun _ => ⟨rfl, rfl⟩, h.candidate⟩, hrole⟩
  cases hnext : (m.nextIndex.getD []).has id <;> cases hmatch : (m.matchIndex.getD []).has id <;>
    simp [core, Core.initReplicationStateFor, hnext, hmatch]

theorem Formed.foldlM_initReplicationStateFor (h : m.Formed) (hrole : m.role = .leader)
    (prevLast : Nat) (ids : List NodeID) :
    ∃ m', ids.foldlM (fun m id => m.initReplicationStateFor prevLast id) m =
        (.ok m' : Checked Panic Memory) ∧
      m'.Holds (ids.foldl (fun c id => c.initReplicationStateFor prevLast id) m.core) ∧
      m'.role = .leader := by
  induction ids generalizing m with
  | nil => exact ⟨m, rfl, ⟨rfl, h⟩, hrole⟩
  | cons id ids ih =>
    obtain ⟨m₁, hm₁, ⟨hcore, hformed⟩, hrole₁⟩ := h.initReplicationStateFor hrole prevLast id
    rw [foldlM_cons, hm₁, ok_bind, foldl_cons, ← hcore]
    exact ih hformed hrole₁

theorem Formed.activateOwnEntry (h : m.Formed) (hrole : m.role = .leader) (prevLast : Nat)
    (e : Entry) :
    Refines (fun m' c' => m'.Holds c' ∧ m'.role = .leader) (m.activateOwnEntry prevLast e)
      (m.core.activateOwnEntry prevLast e) := by
  unfold Memory.activateOwnEntry Core.activateOwnEntry
  cases e.type with
  | normal => exact ⟨m, rfl, ⟨rfl, h⟩, hrole⟩
  | config =>
    cases e.configuration? with
    | none => exact rfl
    | some cfg =>
      exact Formed.foldlM_initReplicationStateFor
        (m := { m with activeConfig := cfg, activeConfigIndex := e.index })
        ⟨h.log, h.leader, h.candidate⟩ hrole prevLast _

theorem Formed.announce (h : m.Formed) (hrole : m.role = .leader) (entry : Entry) :
    Refines Returns (m.announce entry) (.ok (m.core.announce entry)) := by
  unfold Memory.announce Core.announce
  refine Refines.andThen (Formed.replicateTo ?_ ?_ _) ?_
  · exact ⟨h.log, h.leader, h.candidate⟩
  · exact hrole
  · rintro ⟨m₁, sent⟩ ⟨hholds, rfl⟩
    exact ⟨_, rfl, hholds, rfl⟩

theorem Formed.appended (h : m.Formed) (entry : Entry) (mx : IndexMap) :
    Holds { m with log := m.log ++ [entry], matchIndex := some mx }
      { m.core with log := m.core.log ++ [entry], matchIndex := mx } := by
  refine ⟨?_, ?_, fun hlead => ⟨(h.leader hlead).1, rfl⟩, h.candidate⟩
  · unfold core
    rw [h.log]
    rfl
  · dsimp only
    rw [h.log]
    rfl

theorem Formed.appendLeaderEntry (h : m.Formed) (hrole : m.role = .leader) (t : EntryType)
    (data : Bytes) :
    Refines Returns (m.appendLeaderEntry t data) (m.core.appendLeaderEntry t data) := by
  rw [Core.appendLeaderEntry_eq, Memory.appendLeaderEntry,
    write_of_isSome (h.leader hrole).2 _ [], ok_bind, lastIndex_core]
  obtain ⟨hcore, hformed⟩ := h.appended ⟨m.lastIndex + 1, m.core.currentTerm, t, data⟩
    (m.core.matchIndex.set m.core.cfg.id (m.lastIndex + 1))
  dsimp only at hcore
  rw [← hcore]
  refine (hformed.activateOwnEntry hrole _ _).bind ?_
  rintro m' c' - ⟨⟨rfl, hformed'⟩, hrole'⟩
  exact hformed'.announce hrole' _

theorem Formed.handlePropose (h : m.Formed) (data : Bytes) :
    Refines Returns (m.handlePropose data) (m.core.handlePropose data) := by
  unfold Memory.handlePropose Core.handlePropose
  simp only [core_role]
  split
  case isTrue => exact ⟨_, rfl, ⟨rfl, h⟩, rfl⟩
  case isFalse hrole => exact h.appendLeaderEntry (not_not.mp hrole) _ _

/-- A configuration change is refused, panics or is appended as in `Core`. -/
inductive Answers : Checked Panic (Except ProposeError (Memory × Output)) →
    Except Core.ConfigRefusal (Core × Output) → Prop where
  | refused (e : ProposeError) : Answers (.ok (.error e)) (.error (.error e))
  | panics (p : Panic) : Answers (.error (.panic p)) (.error (.panic p))
  | appended {r s} (h : Returns r s) : Answers (.ok (.ok r)) (.ok s)

theorem Formed.proposeConfigChange (h : m.Formed) (kind : MembershipChangeKind)
    (requestID : Bytes) (targetID : NodeID) (targetAddr : Bytes) :
    Answers (m.proposeConfigChange kind requestID targetID targetAddr)
      (m.core.proposeConfigChange kind requestID targetID targetAddr) := by
  unfold Memory.proposeConfigChange Core.proposeConfigChange
  simp only [core_role, core_commitIndex, core_pendingConfIndex, core_currentTerm,
    core_activeConfigIndex, core_activeConfig, h.termAt_eq, ok_bind]
  split
  case isTrue => exact .refused _
  case isFalse hrole =>
  split
  case isTrue => exact .refused _
  case isFalse =>
  split
  case isTrue => exact .refused _
  case isFalse =>
  split
  case isTrue => exact .refused _
  case isFalse =>
  cases buildNewConfiguration m.activeConfig kind targetID targetAddr with
  | error e => exact .refused e
  | ok newCfg =>
    dsimp only
    split
    case isTrue => exact .refused _
    case isFalse =>
    split
    case isTrue => exact .refused _
    case isFalse =>
    have hentry := h.appendLeaderEntry (not_not.mp hrole) .config
      (encodeConfigChange (wireKindFor kind) requestID targetID targetAddr newCfg)
    revert hentry
    cases m.core.appendLeaderEntry .config
      (encodeConfigChange (wireKindFor kind) requestID targetID targetAddr newCfg) with
    | error p =>
      intro hentry
      rw [Refines] at hentry
      rw [hentry]
      exact .panics p
    | ok r =>
      rintro ⟨r', hr', hreturns⟩
      rw [hr', ok_bind]
      exact .appended hreturns

/-! ## Elections -/

theorem Formed.stepDownTo (h : m.Formed) (term : Nat) : (m.stepDownTo term).Formed :=
  ⟨h.log, nofun, nofun⟩

theorem Formed.handleHigherTerm (h : m.Formed) (term : Nat) :
    Returns (m.handleHigherTerm term) (m.core.handleHigherTerm term) :=
  ⟨⟨rfl, (h.stepDownTo term).log, (h.stepDownTo term).leader, (h.stepDownTo term).candidate⟩, rfl⟩

theorem Formed.handleRequestVoteResponse (h : m.Formed) (msg : Message) (granted : Bool) :
    Refines Returns (m.handleRequestVoteResponse msg granted)
      (.ok (m.core.handleRequestVoteResponse msg granted)) := by
  unfold Memory.handleRequestVoteResponse Core.handleRequestVoteResponse
  simp only [core_role, core_currentTerm]
  split
  case isTrue => exact ⟨_, rfl, h.handleHigherTerm msg.term⟩
  case isFalse =>
    split
    case isTrue => exact ⟨_, rfl, ⟨rfl, h⟩, rfl⟩
    case isFalse hopen =>
      have hrole : m.role = .candidate := by tauto
      rw [write_of_isSome (h.candidate hrole) _ [], ok_bind]
      simp only [core_votesReceived, core_activeConfig, Option.getD_some]
      generalize (if msg.sender ∈ m.votesReceived.getD [] then m.votesReceived.getD []
        else m.votesReceived.getD [] ++ [msg.sender]) = votes
      split
      case isTrue =>
        exact Formed.becomeLeader (m := { m with votesReceived := some votes })
          ⟨h.log, h.leader, fun _ => rfl⟩ _
      case isFalse => exact ⟨_, rfl, ⟨rfl, h.log, h.leader, fun _ => rfl⟩, rfl⟩

theorem Formed.handleRequestVoteRequest (h : m.Formed) (msg : Message) (i t : Nat) :
    Refines Returns (m.handleRequestVoteRequest msg i t)
      (.ok (m.core.handleRequestVoteRequest msg i t)) := by
  unfold Memory.handleRequestVoteRequest Core.handleRequestVoteRequest
  simp only [core_activeConfig, core_heardFromLeader, core_currentTerm]
  split
  case isTrue => exact ⟨_, rfl, ⟨rfl, h⟩, rfl⟩
  case isFalse =>
  split
  case isTrue => exact ⟨_, rfl, ⟨rfl, h⟩, rfl⟩
  case isFalse =>
  split
  case isTrue => exact ⟨_, rfl, ⟨rfl, h⟩, rfl⟩
  case isFalse =>
  have hcore : (if decide (msg.term > m.currentTerm) = true then m.core.stepDownTo msg.term
      else m.core) =
      (if decide (msg.term > m.currentTerm) = true then m.stepDownTo msg.term else m).core := by
    split <;> rfl
  have hstepped : m.core.leadsOrCampaigns = m.leadsOrCampaigns := rfl
  have hformed : (if decide (msg.term > m.currentTerm) = true then m.stepDownTo msg.term
      else m).Formed := by
    split
    · exact h.stepDownTo _
    · exact h
  rw [hcore, hstepped]
  generalize (if decide (msg.term > m.currentTerm) = true then m.stepDownTo msg.term else m) = m₁
    at hformed
  rw [hformed.isLogUpToDate_eq, ok_bind]
  simp only [core_votedFor, core_activeConfig, core_cfg]
  split
  case isTrue =>
    exact ⟨_, rfl, ⟨rfl, hformed.log, hformed.leader, hformed.candidate⟩, rfl⟩
  case isFalse =>
    split
    · exact ⟨_, rfl, ⟨rfl, hformed.log, hformed.leader, hformed.candidate⟩, rfl⟩
    · exact ⟨_, rfl, ⟨rfl, hformed⟩, rfl⟩

/-! ## Replication, on the follower -/

theorem Formed.recognizeLeader (h : m.Formed) (msg : Message) :
    (m.recognizeLeader msg).Holds (m.core.recognizeLeader msg) := by
  unfold Memory.recognizeLeader Core.recognizeLeader
  simp only [core_currentTerm, core_role]
  split
  case isTrue => exact ⟨rfl, h.log, nofun, nofun⟩
  case isFalse => exact ⟨rfl, h.log, h.leader, h.candidate⟩

theorem Formed.replyAndStore (h : m.Formed) (changed : Bool) (out : Output) :
    Returns (m.replyAndStore changed out) (m.core.replyAndStore changed out) := by
  cases changed with
  | false => exact ⟨⟨rfl, h⟩, rfl⟩
  | true => exact ⟨⟨rfl, h.log, h.leader, h.candidate⟩, rfl⟩

theorem Formed.conflictStart_eq (h : m.Formed) (t i : Nat) :
    m.conflictStart t i = .ok (m.core.conflictStart t i) := by
  induction i with
  | zero => rfl
  | succ i ih =>
    rw [conflictStart, Core.conflictStart, core_snapshotIndex]
    by_cases hi : i + 1 > m.snapshotIndex + 1
    · rw [if_pos hi, h.termAt_eq, ok_bind, ih]
      split <;> simp_all
    · rw [if_neg hi, if_neg (by tauto)]

theorem Formed.conflictHint_eq (h : m.Formed) (i : Nat) :
    m.conflictHint i = .ok (m.core.conflictHint i) := by
  unfold conflictHint Core.conflictHint
  rw [lastIndex_core, h.termAt_eq, ok_bind, h.conflictStart_eq, ok_bind]
  split <;> rfl

theorem Formed.mismatches_eq (h : m.Formed) (i t : Nat) :
    m.mismatches i t = .ok (decide (i > m.core.lastIndex ∨ m.core.termAt i ≠ t)) := by
  unfold mismatches
  rw [lastIndex_core, h.termAt_eq, ok_bind]
  split
  case isTrue hi => simp [hi]
  case isFalse hi => simp [hi]

theorem Formed.scanEntries (h : m.Formed) (idx : Nat) (entries : List Entry) :
    Refines Eq (m.scanEntries idx entries) (m.core.scanEntries idx entries) := by
  induction entries generalizing idx with
  | nil => exact ⟨_, rfl, rfl⟩
  | cons e es ih =>
    rw [Memory.scanEntries, Core.scanEntries, lastIndex_core, core_commitIndex]
    by_cases hidx : idx ≤ m.lastIndex
    · rw [if_pos hidx, h.termAt_eq, ok_bind]
      by_cases hterm : m.core.termAt idx = e.term
      · rw [if_pos hterm, if_pos ⟨hidx, hterm⟩]
        exact ih (idx + 1)
      · have hdiffers : ¬ (idx ≤ m.lastIndex ∧ m.core.termAt idx = e.term) := fun hc => hterm hc.2
        rw [if_neg hterm, if_neg hdiffers, if_pos hidx]
        split
        case isTrue => exact rfl
        case isFalse => exact ⟨_, rfl, rfl⟩
    · have hbeyond : ¬ (idx ≤ m.lastIndex ∧ m.core.termAt idx = e.term) := fun hc => hidx hc.1
      rw [if_neg hidx, if_neg hbeyond, if_neg hidx]
      exact ⟨_, rfl, rfl⟩

theorem Formed.activateFromAppendedEntries (h : m.Formed) (entries : List Entry) :
    Refines Holds (m.activateFromAppendedEntries entries)
      (m.core.activateFromAppendedEntries entries) := by
  induction entries generalizing m with
  | nil => exact ⟨m, rfl, rfl, h⟩
  | cons e es ih =>
    rw [activateFromAppendedEntries, Core.activateFromAppendedEntries]
    cases e.type with
    | normal => exact ih h
    | config =>
      cases decodeConfigChange e.data with
      | error err => exact rfl
      | ok change =>
        cases hcfg : change.cfg with
        | none => simpa only [hcfg] using ih h
        | some cfg =>
          simp only [hcfg, core_activeConfig]
          split
          case isTrue => exact rfl
          case isFalse =>
            exact ih (m := { m with activeConfig := cfg, activeConfigIndex := e.index })
              ⟨h.log, h.leader, h.candidate⟩

theorem Formed.relogged (h : m.Formed) {kept : List Entry} (new : List Entry)
    (hkept : kept = sentinel m.snapshotIndex m.snapshotTerm :: kept.tail) :
    Holds { m with log := kept ++ new } { m.core with log := kept.tail ++ new } := by
  refine ⟨?_, ?_, h.leader, h.candidate⟩
  · unfold core
    rw [hkept]
    rfl
  · dsimp only
    rw [hkept]
    rfl

theorem Formed.appendScanned (h : m.Formed) {truncateFrom : Option Nat} (new : List Entry)
    (hrange : ∀ idx, truncateFrom = some idx → m.snapshotIndex < idx ∧ idx ≤ m.lastIndex) :
    Refines Holds (m.appendScanned truncateFrom new) (m.core.appendScanned truncateFrom new) := by
  unfold Memory.appendScanned Core.appendScanned
  cases truncateFrom with
  | none =>
    obtain ⟨hcore, hformed⟩ := h.relogged new h.log
    have := hformed.activateFromAppendedEntries new
    rw [hcore] at this
    exact this
  | some idx =>
    obtain ⟨hlt, hle⟩ := hrange idx rfl
    have hlen := h.length_log
    unfold lastIndex at hle
    have hpos : (m.pos idx).toNat = idx - m.snapshotIndex - 1 + 1 := by
      unfold pos
      omega
    have hcut : (cut m.log 0 (m.pos idx) : Checked Panic (List Entry)) =
        .ok (sentinel m.snapshotIndex m.snapshotTerm ::
          m.core.log.take (idx - m.snapshotIndex - 1)) := by
      rw [cut_of_le le_rfl (by unfold pos; omega) (by unfold pos; omega), hpos, h.log,
        take_succ_cons]
      rfl
    have hformed : Formed { m.invalidatePendingFrom idx with
        log := sentinel m.snapshotIndex m.snapshotTerm ::
          m.core.log.take (idx - m.snapshotIndex - 1) ++ new } :=
      ⟨rfl, h.leader, h.candidate⟩
    refine Refines.andThen (R := Eq) ⟨_, hcut, rfl⟩ ?_
    rintro _ rfl
    refine Refines.andThen (R := Eq) ⟨_, hformed.configAt_eq _, rfl⟩ ?_
    rintro _ rfl
    exact ⟨_, rfl, rfl, hformed.log, hformed.leader, hformed.candidate⟩

theorem Formed.acknowledgeAppend (h : m.Formed) (hboundary : m.snapshotIndex ≤ m.commitIndex)
    (msg : Message) (lastNew leaderCommit : Nat) (needPersist : Bool) (out : Output) :
    Refines Returns (m.acknowledgeAppend msg lastNew leaderCommit needPersist out)
      (.ok (m.core.acknowledgeAppend msg lastNew leaderCommit needPersist out)) := by
  unfold Memory.acknowledgeAppend Core.acknowledgeAppend
  cases needPersist with
  | true =>
    simp only [h.termAt_eq, ok_bind, core_commitIndex, ↓reduceIte]
    split <;> exact ⟨_, rfl, ⟨rfl, h.log, h.leader, h.candidate⟩, rfl⟩
  | false =>
    refine (h.advanceFollowerCommit hboundary _ out).andThen ?_
    rintro ⟨m₁, out₁⟩ ⟨hholds, rfl⟩
    exact ⟨_, rfl, hholds, rfl⟩

theorem Formed.storeScanned (h : m.Formed) (hboundary : m.snapshotIndex ≤ m.commitIndex)
    (msg : Message) (lastNew leaderCommit : Nat) (changed : Bool)
    (scanned : Option Nat × List Entry) (out : Output) :
    Refines Returns (m.storeScanned msg lastNew leaderCommit changed scanned out)
      (.ok (m.core.storeScanned msg lastNew leaderCommit changed scanned out)) := by
  unfold Memory.storeScanned Core.storeScanned
  cases changed || scanned.1.isSome || !scanned.2.isEmpty with
  | true =>
    exact Formed.acknowledgeAppend (m := m.nextPersistSeq) ⟨h.log, h.leader, h.candidate⟩
      hboundary _ _ _ _ _
  | false => exact h.acknowledgeAppend hboundary _ _ _ _ _

theorem Formed.handleAppendEntriesRequest (h : m.Formed)
    (hboundary : m.snapshotIndex ≤ m.commitIndex) (msg : Message)
    (prev prevTerm : Nat) (entries : List Entry) (commit : Nat) :
    Refines Returns (m.handleAppendEntriesRequest msg prev prevTerm entries commit)
      (m.core.handleAppendEntriesRequest msg prev prevTerm entries commit) := by
  obtain ⟨hcore, hformed⟩ := h.recognizeLeader msg
  have hsame : (m.recognizeLeader msg).snapshotIndex = m.snapshotIndex ∧
      (m.recognizeLeader msg).commitIndex = m.commitIndex := by
    unfold Memory.recognizeLeader
    dsimp only
    split <;> exact ⟨rfl, rfl⟩
  rw [← hsame.1, ← hsame.2] at hboundary
  have hstepped : m.core.leadsOrCampaigns = m.leadsOrCampaigns := rfl
  by_cases hterm : msg.term < m.currentTerm
  · unfold Memory.handleAppendEntriesRequest Core.handleAppendEntriesRequest
    simp only [core_currentTerm, if_pos hterm]
    exact ⟨_, rfl, ⟨rfl, h⟩, rfl⟩
  · by_cases hprev : prev < (m.recognizeLeader msg).snapshotIndex
    · unfold Memory.handleAppendEntriesRequest Core.handleAppendEntriesRequest
      simp only [← hcore, core_currentTerm, core_snapshotIndex, if_neg hterm, if_pos hprev]
      exact ⟨_, rfl, hformed.replyAndStore _ _⟩
    · by_cases hmismatch : prev > (m.recognizeLeader msg).core.lastIndex ∨
          (m.recognizeLeader msg).core.termAt prev ≠ prevTerm
      · unfold Memory.handleAppendEntriesRequest Core.handleAppendEntriesRequest
        simp only [← hcore, core_currentTerm, core_snapshotIndex, if_neg hterm, if_neg hprev,
          if_pos hmismatch, hformed.mismatches_eq, hformed.conflictHint_eq, ok_bind,
          decide_eq_true hmismatch, ↓reduceIte]
        exact ⟨_, rfl, hformed.replyAndStore _ _⟩
      · rw [Core.handleAppendEntriesRequest_eq hterm (by rwa [← hcore]) (by rwa [← hcore]), ← hcore]
        unfold Memory.handleAppendEntriesRequest
        simp only [core_currentTerm, if_neg hterm, if_neg hprev, hformed.mismatches_eq, ok_bind,
          decide_eq_false hmismatch, Bool.false_eq_true, ↓reduceIte]
        refine (hformed.scanEntries _ _).bind ?_
        rintro scanned _ hscan rfl
        obtain ⟨kept, hscanned⟩ := Core.scanEntries_spec hscan
        refine (hformed.appendScanned scanned.2 fun idx hidx => ?_).bind ?_
        · obtain ⟨-, hle, hlt, -⟩ := hscanned.conflict idx hidx
          rw [lastIndex_core] at hle
          rw [core_commitIndex] at hlt
          exact ⟨by omega, hle⟩
        · rintro m' c' happended ⟨rfl, hformed'⟩
          obtain ⟨pending, active, index, hc', -⟩ := Core.appendScanned_core happended
          refine hformed'.storeScanned ?_ _ _ _ _ _ _
          have hindex := congrArg Core.snapshotIndex hc'
          have hcommit := congrArg Core.commitIndex hc'
          simp only [core_snapshotIndex, core_commitIndex] at hindex hcommit
          omega

/-! ## Replication, on the leader -/

theorem Formed.continueReplication (h : m.Formed) (peer : NodeID) (out : Output) :
    Refines Returns (m.continueReplication peer out)
      (.ok (m.core.continueReplication peer out)) := by
  unfold Memory.continueReplication Core.continueReplication
  simp only [core_role, core_activeConfig, core_nextIndex, lastIndex_core]
  split
  case isTrue hlead =>
    refine (h.appendEntriesMessage hlead.1 peer).andThen ?_
    rintro ⟨m₁, sent⟩ ⟨hholds, rfl⟩
    exact ⟨_, rfl, hholds, rfl⟩
  case isFalse => exact ⟨_, rfl, ⟨rfl, h⟩, rfl⟩

theorem core_matchIndex_if (m : Memory) (p : Prop) [Decidable p] (mx : IndexMap) :
    (if p then { m.core with matchIndex := mx } else m.core) =
      ({ m with matchIndex := some (if p then mx else m.matchIndex.getD []) } : Memory).core := by
  split <;> rfl

theorem core_nextIndex_if (m : Memory) (p : Prop) [Decidable p] (nx : IndexMap) :
    (if p then { m.core with nextIndex := nx } else m.core) =
      ({ m with nextIndex := some (if p then nx else m.nextIndex.getD []) } : Memory).core := by
  split <;> rfl

theorem Formed.recordMatch (h : m.Formed) (hrole : m.role = .leader)
    (hboundary : m.snapshotIndex ≤ m.commitIndex) (peer : NodeID) (index : Nat) :
    Refines Returns (m.recordMatch peer index) (.ok (m.core.recordMatch peer index)) := by
  unfold Memory.recordMatch Core.recordMatch
  rw [write_if (h.leader hrole).2 _ _ [], ok_bind]
  dsimp only
  rw [write_if (h.leader hrole).1 _ _ [], ok_bind, core_matchIndex_if, core_nextIndex_if]
  refine (Formed.advanceLeaderCommit ?_ ?_ {}).andThen ?_
  · exact ⟨h.log, fun _ => ⟨rfl, rfl⟩, h.candidate⟩
  · exact hboundary
  · rintro r ⟨⟨hcore, hformed⟩, hout⟩
    have hsent := hformed.continueReplication peer r.2
    rw [hcore, hout] at hsent
    rw [hout]
    exact hsent

theorem Formed.lastOfTerm_eq (h : m.Formed) (t i : Nat) :
    m.lastOfTerm t i = .ok (m.core.lastOfTerm t i) := by
  induction i with
  | zero => rfl
  | succ i ih =>
    rw [lastOfTerm, Core.lastOfTerm, h.termAt_eq, ok_bind, ih]
    split <;> rfl

theorem Formed.resumeIndex_eq (h : m.Formed) (i t : Nat) :
    m.resumeIndex i t = .ok (m.core.resumeIndex i t) := by
  unfold resumeIndex Core.resumeIndex
  rw [h.lastOfTerm_eq, ok_bind, lastIndex_core]
  split
  · rfl
  · cases m.core.lastOfTerm t m.lastIndex <;> rfl

theorem Formed.resend (h : m.Formed) (hrole : m.role = .leader) (peer : NodeID) :
    Refines Returns
      (if m.activeConfig.isMember peer then do
        let sent ← m.appendEntriesMessage peer
        .ok (sent.1, { messages := [sent.2] })
      else .ok (m, {}))
      (.ok (if m.core.activeConfig.isMember peer then
          let sent := m.core.appendEntriesMessage peer
          (sent.1, ({ messages := [sent.2] } : Output))
        else (m.core, {}))) := by
  rw [core_activeConfig]
  split
  case isTrue =>
    refine (h.appendEntriesMessage hrole peer).andThen ?_
    rintro ⟨m₁, sent⟩ ⟨hholds, rfl⟩
    exact ⟨_, rfl, hholds, rfl⟩
  case isFalse => exact ⟨_, rfl, ⟨rfl, h⟩, rfl⟩

theorem Formed.handleAppendEntriesResponse (h : m.Formed)
    (hboundary : m.snapshotIndex ≤ m.commitIndex) (msg : Message) (success : Bool)
    (index conflictIndex conflictTerm : Nat) :
    Refines Returns (m.handleAppendEntriesResponse msg success index conflictIndex conflictTerm)
      (.ok (m.core.handleAppendEntriesResponse msg success index conflictIndex conflictTerm)) := by
  unfold Memory.handleAppendEntriesResponse Core.handleAppendEntriesResponse
  by_cases hterm : msg.term > m.currentTerm
  · rw [if_pos hterm, if_pos (show msg.term > m.core.currentTerm from hterm)]
    exact ⟨_, rfl, h.handleHigherTerm msg.term⟩
  rw [if_neg hterm, if_neg (show ¬ msg.term > m.core.currentTerm from hterm)]
  by_cases hstale : m.role ≠ .leader ∨ msg.term ≠ m.currentTerm
  · rw [if_pos hstale, if_pos (show m.core.role ≠ .leader ∨ msg.term ≠ m.core.currentTerm from hstale)]
    exact ⟨_, rfl, ⟨rfl, h⟩, rfl⟩
  rw [if_neg hstale, if_neg (show ¬ (m.core.role ≠ .leader ∨ msg.term ≠ m.core.currentTerm) from hstale)]
  have hrole : m.role = .leader := by tauto
  split
  case isTrue => exact h.recordMatch hrole hboundary msg.sender index
  case isFalse =>
    rw [h.resumeIndex_eq, ok_bind, write_if (h.leader hrole).1 _ _ [], ok_bind]
    dsimp only
    rw [core_nextIndex_if]
    exact Formed.resend (m := { m with
      nextIndex := some (if m.core.resumeIndex conflictIndex conflictTerm <
          (m.nextIndex.getD []).get msg.sender then
        (m.nextIndex.getD []).set msg.sender (m.core.resumeIndex conflictIndex conflictTerm)
      else m.nextIndex.getD []) })
      ⟨h.log, fun _ => ⟨rfl, (h.leader hrole).2⟩, h.candidate⟩ hrole msg.sender

/-! ## Snapshots -/

theorem Formed.setApplied (h : m.Formed) (index : Nat) :
    (m.setApplied index).Holds (m.core.setApplied index) := by
  unfold Memory.setApplied Core.setApplied
  rw [core_appliedIndex]
  split
  · exact ⟨rfl, h.log, h.leader, h.candidate⟩
  · exact ⟨rfl, h⟩

theorem Formed.handleInstallSnapshotRequest (h : m.Formed) (msg : Message) (index term : Nat)
    (cfg : Configuration) (hasCfg : Bool) :
    Returns (m.handleInstallSnapshotRequest msg index term cfg hasCfg)
      (m.core.handleInstallSnapshotRequest msg index term cfg hasCfg) := by
  obtain ⟨hcore, hformed⟩ := h.recognizeLeader msg
  unfold Memory.handleInstallSnapshotRequest Core.handleInstallSnapshotRequest
  by_cases hterm : msg.term < m.currentTerm
  · rw [if_pos hterm, if_pos (show msg.term < m.core.currentTerm from hterm)]
    exact ⟨⟨rfl, h⟩, rfl⟩
  · rw [if_neg hterm, if_neg (show ¬ msg.term < m.core.currentTerm from hterm)]
    dsimp only
    rw [← hcore, core_snapshotIndex, core_commitIndex]
    split
    case isTrue => exact hformed.replyAndStore _ _
    case isFalse =>
      unfold Memory.setApplied Core.setApplied Memory.replyAndStore Core.replyAndStore
      simp only [core_appliedIndex, core_currentTerm, core_cfg]
      split <;> split <;> exact ⟨⟨rfl, rfl, hformed.leader, hformed.candidate⟩, rfl⟩

theorem Formed.handleInstallSnapshotResponse (h : m.Formed)
    (hboundary : m.snapshotIndex ≤ m.commitIndex) (msg : Message) (success : Bool)
    (index : Nat) :
    Refines Returns (m.handleInstallSnapshotResponse msg success index)
      (.ok (m.core.handleInstallSnapshotResponse msg success index)) := by
  unfold Memory.handleInstallSnapshotResponse Core.handleInstallSnapshotResponse
  simp only [core_currentTerm, core_role]
  split
  case isTrue => exact ⟨_, rfl, h.handleHigherTerm msg.term⟩
  case isFalse =>
    split
    case isTrue => exact ⟨_, rfl, ⟨rfl, h⟩, rfl⟩
    case isFalse hopen => exact h.recordMatch (by tauto) hboundary msg.sender index

/-! ## Completed writes -/

theorem Formed.entryStillPresent_eq (h : m.Formed) (index term : Nat) :
    m.entryStillPresent index term = .ok (m.core.entryStillPresent index term) := by
  have hlen := h.length_log
  have hlast : m.core.lastIndex = m.snapshotIndex + m.core.log.length := rfl
  unfold entryStillPresent Core.entryStillPresent
  by_cases hin : m.pos index ≥ 0 ∧ m.pos index < m.log.length
  · have hterm : (element m.log (m.pos index) >>= fun e => .ok e.term : Checked Panic Nat) =
        .ok (m.core.termAt index) := by
      rw [← h.termAt_eq, termAt]
      unfold pos at hin
      rw [if_neg (by omega), if_neg (by unfold pos; omega)]
    rw [if_pos hin]
    unfold pos at hin
    cases helement : (element m.log (m.pos index) : Checked Panic Entry) with
    | error e =>
      rw [helement] at hterm
      cases hterm
    | ok e =>
      rw [helement] at hterm
      have hterm : e.term = m.core.termAt index := Except.ok.inj hterm
      rw [ok_bind, hterm, core_snapshotIndex,
        decide_eq_true (show m.snapshotIndex ≤ index by omega),
        decide_eq_true (show index ≤ m.core.lastIndex by omega), Bool.true_and, Bool.true_and]
  · rw [if_neg hin]
    unfold pos at hin
    rw [core_snapshotIndex]
    by_cases hlow : m.snapshotIndex ≤ index
    · rw [decide_eq_false (show ¬ index ≤ m.core.lastIndex by omega), Bool.and_false,
        Bool.false_and]
    · rw [decide_eq_false hlow, Bool.false_and, Bool.false_and]

theorem Formed.releaseItem (h : m.Formed) (hboundary : m.snapshotIndex ≤ m.commitIndex)
    (out : Output) (p : PendingItem) :
    Refines Returns (Memory.releaseItem (m, out) p) (.ok (Core.releaseItem (m.core, out) p)) := by
  unfold Memory.releaseItem Core.releaseItem
  dsimp only
  cases p.kind with
  | voteGrant candidate =>
    simp only [core_currentTerm, core_votedFor]
    split <;> exact ⟨_, rfl, ⟨rfl, h⟩, rfl⟩
  | appendAck receiver index term =>
    simp only [h.entryStillPresent_eq, ok_bind]
    split <;> exact ⟨_, rfl, ⟨rfl, h⟩, rfl⟩
  | commitAdvance index term =>
    simp only [h.entryStillPresent_eq, ok_bind]
    split
    · exact h.advanceFollowerCommit hboundary index out
    · exact ⟨_, rfl, ⟨rfl, h⟩, rfl⟩
  | selfMatch index term =>
    dsimp only
    by_cases hlead : m.role = .leader ∧ m.currentTerm = p.term
    · rw [if_pos hlead, h.entryStillPresent_eq, ok_bind]
      by_cases hpresent : m.core.entryStillPresent index term = true
      · rw [if_pos hpresent, if_pos (show m.core.role = .leader ∧ m.core.currentTerm = p.term ∧
            m.core.entryStillPresent index term = true from ⟨hlead.1, hlead.2, hpresent⟩),
          write_if (h.leader hlead.1).2 _ _ [], ok_bind, core_matchIndex_if]
        refine Formed.advanceLeaderCommit ?_ ?_ out
        · exact ⟨h.log, fun _ => ⟨(h.leader hlead.1).1, rfl⟩, h.candidate⟩
        · exact hboundary
      · rw [if_neg hpresent, if_neg (show ¬ (m.core.role = .leader ∧ m.core.currentTerm = p.term ∧
          m.core.entryStillPresent index term = true) from fun hc => hpresent hc.2.2)]
        exact ⟨_, rfl, ⟨rfl, h⟩, rfl⟩
    · rw [if_neg hlead, if_neg (show ¬ (m.core.role = .leader ∧ m.core.currentTerm = p.term ∧
        m.core.entryStillPresent index term = true) from fun hc => hlead ⟨hc.1, hc.2.1⟩)]
      exact ⟨_, rfl, ⟨rfl, h⟩, rfl⟩

theorem Formed.foldlM_releaseItem (items : List PendingItem) {r : Memory × Output}
    (h : r.1.Formed) (hboundary : r.1.snapshotIndex ≤ r.1.commitIndex) :
    Refines Returns (items.foldlM Memory.releaseItem r)
      (.ok (items.foldl Core.releaseItem (r.1.core, r.2))) := by
  induction items generalizing r with
  | nil => exact ⟨r, rfl, ⟨rfl, h⟩, rfl⟩
  | cons p items ih =>
    rw [foldlM_cons, foldl_cons]
    refine (h.releaseItem hboundary r.2 p).andThen ?_
    rintro r₁ ⟨⟨hcore, hformed⟩, hout⟩
    have hreleases := Core.releaseItem_releases (r.1.core, r.2) p
    have hindex := hreleases.frame.boundary.index
    have hcommit := hreleases.advances.within
    rw [← hcore] at hindex hcommit
    simp only [core_snapshotIndex, core_commitIndex] at hindex hcommit
    have hnext := ih hformed (by omega)
    rw [hcore, hout] at hnext
    exact hnext

theorem Formed.handlePersistenceComplete (h : m.Formed)
    (hboundary : m.snapshotIndex ≤ m.commitIndex) (seq : Nat) :
    Refines Returns (m.handlePersistenceComplete seq)
      (.ok (m.core.handlePersistenceComplete seq)) := by
  unfold Memory.handlePersistenceComplete Core.handlePersistenceComplete
  refine (Formed.foldlM_releaseItem _ ?_ ?_).andThen ?_
  · exact ⟨h.log, h.leader, h.candidate⟩
  · exact hboundary
  · rintro r ⟨⟨hcore, hformed⟩, hout⟩
    refine ⟨_, rfl, ⟨?_, hformed.log, hformed.leader, hformed.candidate⟩, hout⟩
    exact congrArg (fun c : Core => { c with
      pending := m.pending.filter fun p => max m.persistedSeq seq < p.seq }) hcore

theorem Formed.step (h : m.Formed) (hboundary : m.snapshotIndex ≤ m.commitIndex) (input : Input) :
    Refines Returns (m.step input) (m.core.step input) := by
  cases input with
  | electionTimeout => exact h.handleElectionTimeout
  | heartbeatTimeout => exact h.handleHeartbeatTimeout
  | propose data => exact h.handlePropose data
  | persistenceComplete seq => exact h.handlePersistenceComplete hboundary seq
  | message msg =>
    obtain ⟨sender, receiver, term, body⟩ := msg
    cases body with
    | requestVoteRequest i t => exact h.handleRequestVoteRequest _ i t
    | requestVoteResponse granted => exact h.handleRequestVoteResponse _ granted
    | appendEntriesRequest prev t entries commit =>
      exact h.handleAppendEntriesRequest hboundary _ prev t entries commit
    | appendEntriesResponse success i ci ct =>
      exact h.handleAppendEntriesResponse hboundary _ success i ci ct
    | installSnapshotRequest i t cfg hasCfg =>
      exact ⟨_, rfl, h.handleInstallSnapshotRequest _ i t cfg hasCfg⟩
    | installSnapshotResponse success i =>
      exact h.handleInstallSnapshotResponse hboundary _ success i

/-! ## Construction and compaction -/

theorem newCoreFromSnapshot_eq (cfg : Config) (hs : HardState) (index term : Nat)
    (snapshotConfig : Configuration) (hasCfg : Bool) (entries : List Entry) :
    ∃ made, newCoreFromSnapshot cfg hs index term snapshotConfig hasCfg entries = .ok made ∧
      made.map core = Core.newCoreFromSnapshot cfg hs index term snapshotConfig hasCfg entries ∧
      ∀ m, made = some m → m.Formed := by
  unfold newCoreFromSnapshot Core.newCoreFromSnapshot
  split
  case isTrue => exact ⟨none, rfl, rfl, fun m hm => (nomatch hm)⟩
  case isFalse =>
    dsimp only
    rw [Formed.configAt_eq, ok_bind]
    · exact ⟨_, rfl, rfl, by
        rintro m ⟨⟩
        exact ⟨rfl, nofun, nofun⟩⟩
    · exact ⟨rfl, nofun, nofun⟩

theorem Formed.compact (h : m.Formed) (hwithin : m.appliedIndex ≤ m.lastIndex) (upto : Nat) :
    ∃ made, m.compact upto = .ok made ∧ made.map core = m.core.compact upto ∧
      ∀ m', made = some m' → m'.Formed := by
  unfold Memory.compact Core.compact
  simp only [core_snapshotIndex, core_appliedIndex]
  split
  case isTrue => exact ⟨none, rfl, rfl, fun m hm => (nomatch hm)⟩
  case isFalse hrange =>
    have hlen := h.length_log
    have hlast : m.lastIndex = m.snapshotIndex + m.core.log.length := (lastIndex_core m).symm
    obtain ⟨e, he⟩ : ∃ e, m.core.log[upto - m.snapshotIndex - 1]? = some e :=
      ⟨_, getElem?_eq_getElem (by omega)⟩
    have hterm : m.core.termAt upto = e.term := by
      unfold Core.termAt
      rw [core_snapshotIndex, if_neg (by omega), if_neg (by omega), he]
    have hpos : (m.pos upto + 1).toNat = upto - m.snapshotIndex + 1 := by
      unfold pos
      omega
    have hcut : (cut m.log (m.pos upto + 1) m.log.length : Checked Panic (List Entry)) =
        .ok (m.core.log.drop (upto - m.snapshotIndex)) := by
      rw [cut_of_le (by unfold pos; omega) (by unfold pos; omega) le_rfl, hpos, Int.toNat_natCast,
        take_length, h.log, drop_succ_cons]
      rfl
    rw [h.configAt_eq, ok_bind, h.element_above (by omega) he, ok_bind, hcut, ok_bind, hterm]
    refine ⟨_, rfl, rfl, ?_⟩
    rintro m' ⟨⟩
    exact ⟨rfl, h.leader, h.candidate⟩

end Memory

end ChronicleDB.Raft
