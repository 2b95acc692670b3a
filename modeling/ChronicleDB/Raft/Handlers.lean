import ChronicleDB.Raft.Core
import Mathlib.Data.List.Infix
import Mathlib.Tactic.Cases

/-!
# What the parts of a step leave alone

The helpers that several handlers of the core share change a few fields each.
Here this is said once, so that later proofs need not look into them.
-/

namespace ChronicleDB.Raft.Core

open Foundation

/-! ## Replication messages -/

theorem appendEntriesMessage_core (c : Core) (peer : NodeID) :
    ∃ nx, (c.appendEntriesMessage peer).1 = { c with nextIndex := nx } := by
  unfold appendEntriesMessage
  dsimp only
  split
  · exact ⟨c.nextIndex, rfl⟩
  · exact ⟨_, rfl⟩

/-- `m` is a request that `c` may send to a peer in its present state. -/
structure Replicates (c : Core) (m : Message) : Prop where
  sender : m.sender = c.cfg.id
  term : m.term = c.currentTerm
  body : (∃ next, c.snapshotIndex < next ∧ m.body = .appendEntriesRequest (next - 1)
        (c.termAt (next - 1)) (if next ≤ c.lastIndex then c.slice next c.lastIndex else [])
        c.commitIndex) ∨
    m.body = .installSnapshotRequest c.snapshotIndex c.snapshotTerm c.snapshotConfig
      c.snapshotHasConfig ∧ 0 < c.snapshotIndex

theorem Replicates.of_nextIndex {c : Core} {m : Message} {nx : IndexMap}
    (h : { c with nextIndex := nx }.Replicates m) : c.Replicates m := ⟨h.sender, h.term, h.body⟩

theorem appendEntriesMessage_replicates (c : Core) (peer : NodeID) :
    c.Replicates (c.appendEntriesMessage peer).2 := by
  unfold appendEntriesMessage
  dsimp only
  split
  case isTrue h => exact ⟨rfl, rfl, .inr ⟨rfl, by omega⟩⟩
  case isFalse h => exact ⟨rfl, rfl, .inl ⟨_, by omega, rfl⟩⟩

theorem replicateTo_spec (c : Core) (peers : List NodeID) :
    ∃ nx ms, c.replicateTo peers = ({ c with nextIndex := nx }, ms) ∧ ∀ m ∈ ms, c.Replicates m := by
  induction peers generalizing c with
  | nil => exact ⟨c.nextIndex, [], rfl, by simp⟩
  | cons peer peers ih =>
    obtain ⟨nx, hnx⟩ := c.appendEntriesMessage_core peer
    obtain ⟨nx', ms, hrest, hms⟩ := ih (c.appendEntriesMessage peer).1
    refine ⟨nx', (c.appendEntriesMessage peer).2 :: ms, ?_, fun m hm => ?_⟩
    · rw [replicateTo, hrest, hnx]
    · rcases List.mem_cons.mp hm with rfl | hm
      · exact c.appendEntriesMessage_replicates peer
      · exact (hnx ▸ hms m hm).of_nextIndex

theorem continueReplication_spec (c : Core) (peer : NodeID) (out : Output) :
    ∃ nx ms, c.continueReplication peer out =
        ({ c with nextIndex := nx }, { out with messages := out.messages ++ ms }) ∧
      ∀ m ∈ ms, c.role = .leader ∧ c.Replicates m := by
  unfold continueReplication
  split
  case isTrue h =>
    obtain ⟨nx, hnx⟩ := c.appendEntriesMessage_core peer
    refine ⟨nx, [_], Prod.ext hnx rfl, fun m hm => ?_⟩
    rw [List.mem_singleton.mp hm]
    exact ⟨h.1, c.appendEntriesMessage_replicates peer⟩
  case isFalse => exact ⟨c.nextIndex, [], by simp, by simp⟩

def leading (c : Core) (nx : IndexMap) : Core :=
  { c with
    role := .leader, leaderID := c.cfg.id, votesReceived := [], pendingConfIndex := c.lastIndex
    nextIndex := nx
    matchIndex := IndexMap.set ((c.activeConfig.voterIDs ++
      c.activeConfig.learners.map (·.id)).map fun id => (id, 0)) c.cfg.id c.lastIndex }

theorem becomeLeader_spec (c : Core) (out : Output) :
    ∃ nx ms, c.becomeLeader out = (c.leading nx, { out with
        becameLeader := true, resetHeartbeatTimer := true, messages := out.messages ++ ms }) ∧
      ∀ m ∈ ms, (c.leading nx).Replicates m := by
  let first := (c.activeConfig.voterIDs ++ c.activeConfig.learners.map (·.id)).map fun id =>
    (id, c.lastIndex + 1)
  obtain ⟨nx, ms, hsent, hms⟩ := replicateTo_spec (c.leading first) c.peers
  have hcore := congrArg Prod.fst hsent
  refine ⟨nx, ms, Prod.ext hcore ?_, fun m hm => ?_⟩
  · exact congrArg (fun sent => ({ out with
      becameLeader := true, resetHeartbeatTimer := true
      messages := out.messages ++ sent.2 } : Output)) hsent
  · exact ⟨(hms m hm).sender, (hms m hm).term, (hms m hm).body⟩

/-! ## The commit index -/

theorem commitCandidate_spec {c : Core} : ∀ {last n : Nat}, c.commitCandidate last = some n →
    c.commitIndex < n ∧ n ≤ last ∧ c.termAt n = c.currentTerm ∧
      c.activeConfig.majority ≤ c.matchCount n
  | 0, n, h => by simp [commitCandidate] at h
  | last + 1, n, h => by
    rw [commitCandidate] at h
    split at h
    · cases h
    · split at h
      · cases h
        exact ⟨by omega, le_refl _, by tauto⟩
      · have := commitCandidate_spec h
        exact ⟨this.1, by omega, this.2.2⟩

/-- The log holds `e` above the boundary and the commit index, at most at `n`. -/
def Between (c : Core) (n : Nat) (e : Entry) : Prop :=
  ∃ i, c.snapshotIndex < i ∧ c.commitIndex < i ∧ i ≤ n ∧ c.log[i - c.snapshotIndex - 1]? = some e

theorem mem_newlyCommitted {c : Core} {n : Nat} {e : Entry} :
    e ∈ c.newlyCommitted n ↔ c.Between n e := by
  simp only [newlyCommitted, slice, Between, List.mem_iff_getElem?, List.getElem?_drop,
    List.getElem?_take]
  constructor
  · rintro ⟨k, hk⟩
    split at hk
    case isTrue hlt =>
      refine ⟨max (c.commitIndex + 1) (c.snapshotIndex + 1) + k, by omega, by omega, by omega, ?_⟩
      rw [← hk]
      congr 1
      omega
    case isFalse => cases hk
  · rintro ⟨i, hi, hi', hn, he⟩
    refine ⟨i - max (c.commitIndex + 1) (c.snapshotIndex + 1), ?_⟩
    rw [if_pos (by omega), ← he]
    congr 1
    omega

theorem maybeStepDown_cases (c : Core) (out : Output) :
    c.maybeStepDownAfterSelfRemoval out = (c, out) ∨
      (c.role = .leader ∧ c.activeConfig.isVoter c.cfg.id = false ∧
        c.maybeStepDownAfterSelfRemoval out =
          ({ c with role := .follower, leaderID := noVote, nextIndex := [], matchIndex := [],
                    votesReceived := [] },
            { out with steppedDown := true })) := by
  unfold maybeStepDownAfterSelfRemoval
  split
  case isTrue => exact .inl rfl
  case isFalse h =>
    simp only [not_or, Bool.not_eq_true] at h
    exact .inr ⟨not_not.mp h.1, h.2.1, rfl⟩

theorem advanceFollowerCommit_cases (c : Core) (n : Nat) (out : Output) :
    (min n c.lastIndex ≤ c.commitIndex ∧ c.advanceFollowerCommit n out = (c, out)) ∨
      (c.commitIndex < min n c.lastIndex ∧ c.advanceFollowerCommit n out =
        ({ c with commitIndex := min n c.lastIndex }, { out with
          committedEntries := out.committedEntries ++
            c.newlyCommitted (min n c.lastIndex) })) := by
  unfold advanceFollowerCommit
  dsimp only
  split
  case isTrue h => exact .inl ⟨h, rfl⟩
  case isFalse h => exact .inr ⟨by omega, rfl⟩

theorem advanceLeaderCommit_cases (c : Core) (out : Output) :
    c.advanceLeaderCommit out = (c, out) ∨
      ∃ n, c.commitIndex < n ∧ n ≤ c.lastIndex ∧ c.termAt n = c.currentTerm ∧
        c.activeConfig.majority ≤ c.matchCount n ∧
        c.advanceLeaderCommit out = maybeStepDownAfterSelfRemoval { c with commitIndex := n }
          { out with committedEntries := out.committedEntries ++ c.newlyCommitted n } := by
  unfold advanceLeaderCommit
  split
  case h_1 => exact .inl rfl
  case h_2 n h =>
    obtain ⟨h1, h2, h3, h4⟩ := commitCandidate_spec h
    exact .inr ⟨n, h1, h2, h3, h4, rfl⟩

end ChronicleDB.Raft.Core
