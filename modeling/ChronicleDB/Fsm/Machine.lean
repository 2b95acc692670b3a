import ChronicleDB.Foundation.Sha256
import ChronicleDB.Fsm.Command

/-!
# The replicated state machine

`internal/fsm/fsm.go`, `outcome.go`, and the apply parts of `clusterversion.go`,
`gc.go` and `membership.go`.  An index and a sequence number are `uint64`s, a
generation a `uint32`; only the additions of the source wrap.
-/

namespace ChronicleDB.Fsm

open Foundation Mvcc

variable {cmd : CommitTxnCommand} {index : Nat}

inductive Status where
  | committed
  | aborted
  | abortedStale
  deriving DecidableEq, Repr

structure Outcome where
  requestID : RequestID
  status : Status
  commitSeq : Nat
  conflictKey : Bytes
  conflictLatestSeq : Nat
  deriving DecidableEq, Repr

namespace Outcome

def committed (id : RequestID) (commitSeq : Nat) : Outcome := ⟨id, .committed, commitSeq, [], 0⟩

def aborted (id : RequestID) : Outcome := ⟨id, .aborted, 0, [], 0⟩

def conflict (id : RequestID) (key : Bytes) (latest : Nat) : Outcome :=
  ⟨id, .aborted, 0, key, latest⟩

def abortedStale (id : RequestID) : Outcome := ⟨id, .abortedStale, 0, [], 0⟩

end Outcome

def fingerprintOf (cmd : CommitTxnCommand) : Bytes := sum256 (encodeCommitBody cmd)

structure OutcomeEntry where
  outcome : Outcome
  fingerprint : Bytes
  deriving DecidableEq, Repr

inductive MembershipKind where
  | addLearner
  | promoteVoter
  | removeServer
  deriving DecidableEq, Repr

def MembershipKind.byte : MembershipKind → UInt8
  | .addLearner => 16
  | .promoteVoter => 17
  | .removeServer => 18

def membershipFingerprintOf (kind : MembershipKind) (nodeID address : Bytes) : Bytes :=
  sum256 (kind.byte :: (putString nodeID ++ putString address))

structure FSM where
  store : Store
  outcomes : SortedMap RequestID OutcomeEntry
  clusterGeneration : Nat
  controlOutcomes : SortedMap RequestID Outcome
  membershipOutcomes : SortedMap RequestID OutcomeEntry
  gcWatermark : Nat
  gcCursor : Bytes
  gcPasses : Nat
  gcPassSeq : Nat
  deriving DecidableEq

variable {f : FSM}

inductive ApplyError where
  | requestIDUnknown
  | requestIDPayloadMismatch (id : RequestID)
  | requestIDConflict (id : RequestID)
  | store (index : Nat) (e : StoreError)
  deriving DecidableEq, Repr

namespace FSM

def new (store : Store) : FSM := ⟨store, .empty, 0, .empty, .empty, 0, [], 0, 0⟩

/-! ## Transaction commits -/

def precheck (f : FSM) (cmd : CommitTxnCommand) : Except ApplyError Outcome :=
  match f.outcomes.get cmd.requestID with
  | none => .error .requestIDUnknown
  | some entry =>
    if entry.fingerprint ≠ fingerprintOf cmd then
      .error (.requestIDPayloadMismatch cmd.requestID)
    else .ok entry.outcome

def getOutcome (f : FSM) (id : RequestID) : Option Outcome :=
  (f.outcomes.get id).map (·.outcome)

def decision (f : FSM) (index : Nat) (cmd : CommitTxnCommand) :
    Except ApplyError (Store × Outcome) :=
  if cmd.startSeq < f.gcWatermark then .ok (f.store, .abortedStale cmd.requestID)
  else
    match f.store.checkConflicts cmd.startSeq cmd.mutations with
    | some (key, latest) => .ok (f.store, .conflict cmd.requestID key latest)
    | none =>
      match f.store.applyCommit index cmd.mutations with
      | .error e => .error (.store index e)
      | .ok store => .ok (store, .committed cmd.requestID index)

def record (f : FSM) (cmd : CommitTxnCommand) (store : Store) (outcome : Outcome) : FSM :=
  { f with
    store
    outcomes := f.outcomes.insert cmd.requestID ⟨outcome, fingerprintOf cmd⟩ }

def apply (f : FSM) (index : Nat) (cmd : CommitTxnCommand) :
    Except ApplyError (FSM × Outcome) :=
  match f.precheck cmd with
  | .ok outcome => .ok (f, outcome)
  | .error .requestIDUnknown =>
    match f.decision index cmd with
    | .error e => .error e
    | .ok (store, outcome) => .ok (f.record cmd store outcome, outcome)
  | .error e => .error e

/-! ## Control commands -/

def applySetClusterVersion (f : FSM) (index : Nat) (cmd : SetClusterVersionCommand) :
    FSM × Outcome :=
  match f.controlOutcomes.get cmd.requestID with
  | some outcome => (f, outcome)
  | none =>
    if cmd.targetGeneration ≠ (f.clusterGeneration + 1) % 2 ^ 32 then
      let outcome := .aborted cmd.requestID
      ({ f with controlOutcomes := f.controlOutcomes.insert cmd.requestID outcome }, outcome)
    else
      let outcome := .committed cmd.requestID index
      ({ f with
          clusterGeneration := cmd.targetGeneration
          controlOutcomes := f.controlOutcomes.insert cmd.requestID outcome }, outcome)

/-- What the walk over a batch of keys has done: the store, the versions removed,
the last key examined, and whether the version budget stopped it early. -/
structure Walk where
  store : Store
  removed : Nat
  lastExamined : Bytes
  stopped : Bool

def walk (w maxVersions : Nat) : Walk → List Bytes → Walk
  | acc, [] => acc
  | acc, k :: ks =>
    if acc.removed ≥ maxVersions then { acc with stopped := true }
    else
      let (store, n) := acc.store.reclaimKey k w (maxVersions - acc.removed)
      walk w maxVersions ⟨store, acc.removed + n, k, acc.stopped⟩ ks

def collect (f : FSM) (w maxVersions maxKeys : Nat) : FSM :=
  if maxKeys > 0 then
    let keys := f.store.keysFrom f.gcCursor maxKeys
    let r := walk w maxVersions ⟨f.store, 0, [], false⟩ keys
    if r.stopped = false ∧ keys.length < maxKeys then
      { f with store := r.store, gcCursor := [], gcPasses := (f.gcPasses + 1) % 2 ^ 64 }
    else if r.lastExamined ≠ [] then { f with store := r.store, gcCursor := r.lastExamined }
    else { f with store := r.store }
  else f

def applyAdvanceGCWatermark (f : FSM) (index : Nat) (cmd : AdvanceGCWatermarkCommand) :
    FSM × Outcome :=
  match f.controlOutcomes.get cmd.requestID with
  | some outcome => (f, outcome)
  | none =>
    let w := if cmd.watermark > f.gcWatermark then cmd.watermark else f.gcWatermark
    let f := collect { f with gcWatermark := w } w cmd.maxVersions cmd.maxKeys
    let outcome := .committed cmd.requestID index
    ({ f with
        gcPassSeq := (f.gcPassSeq + 1) % 2 ^ 64
        controlOutcomes := f.controlOutcomes.insert cmd.requestID outcome
        store := f.store.setGCWatermark w }, outcome)

/-! ## Membership outcomes -/

def recordMembershipOutcome (f : FSM) (id : RequestID) (kind : MembershipKind)
    (nodeID address : Bytes) (outcome : Outcome) : Except ApplyError (FSM × Outcome) :=
  let fp := membershipFingerprintOf kind nodeID address
  match f.membershipOutcomes.get id with
  | some e =>
    if e.fingerprint ≠ fp then .error (.requestIDConflict id) else .ok (f, e.outcome)
  | none =>
    .ok ({ f with membershipOutcomes := f.membershipOutcomes.insert id ⟨outcome, fp⟩ },
      outcome)

def getMembershipOutcome (f : FSM) (id : RequestID) (kind : MembershipKind)
    (nodeID address : Bytes) : Except ApplyError Outcome :=
  match f.membershipOutcomes.get id with
  | none => .error .requestIDUnknown
  | some e =>
    if e.fingerprint ≠ membershipFingerprintOf kind nodeID address then
      .error (.requestIDConflict id)
    else .ok e.outcome

/-! ## Applying a commit -/

theorem apply_of_unknown (index : Nat) (h : f.outcomes.get cmd.requestID = none) :
    f.apply index cmd =
      (f.decision index cmd).map fun d => (f.record cmd d.1 d.2, d.2) := by
  rw [apply, precheck, h]
  cases f.decision index cmd <;> rfl

theorem apply_of_recorded {entry : OutcomeEntry}
    (index : Nat) (h : f.outcomes.get cmd.requestID = some entry) :
    f.apply index cmd =
      if entry.fingerprint = fingerprintOf cmd then .ok (f, entry.outcome)
      else .error (.requestIDPayloadMismatch cmd.requestID) := by
  rw [apply, precheck, h]
  by_cases hfp : entry.fingerprint = fingerprintOf cmd
  · simp [hfp]
  · simp [hfp]

theorem apply_of_known {entry : OutcomeEntry} (index : Nat)
    (h : f.outcomes.get cmd.requestID = some entry) (hfp : entry.fingerprint = fingerprintOf cmd) :
    f.apply index cmd = .ok (f, entry.outcome) := by
  rw [apply_of_recorded index h, if_pos hfp]

theorem decision_stale (index : Nat) (h : cmd.startSeq < f.gcWatermark) :
    f.decision index cmd = .ok (f.store, .abortedStale cmd.requestID) := if_pos h

theorem decision_conflict {key : Bytes} {latest : Nat}
    (index : Nat) (hmark : f.gcWatermark ≤ cmd.startSeq)
    (h : f.store.checkConflicts cmd.startSeq cmd.mutations = some (key, latest)) :
    f.decision index cmd = .ok (f.store, .conflict cmd.requestID key latest) := by
  rw [decision, if_neg (Nat.not_lt.mpr hmark), h]

theorem decision_free (hmark : f.gcWatermark ≤ cmd.startSeq) (hbelow : f.store.Below index)
    (h : f.store.checkConflicts cmd.startSeq cmd.mutations = none) :
    f.decision index cmd = .ok (cmd.mutations.foldl (Store.push index) f.store,
      .committed cmd.requestID index) := by
  rw [decision, if_neg (Nat.not_lt.mpr hmark), h]
  simp only [Store.applyCommit_of_below hbelow]

theorem decision_of_below (h : f.store.Below index) (cmd : CommitTxnCommand) :
    ∃ store outcome, f.decision index cmd = .ok (store, outcome) ∧ store.Below (index + 1) := by
  have hsame := h.mono (Nat.le_succ index)
  rw [decision]
  split
  · exact ⟨_, _, rfl, hsame⟩
  · split
    · exact ⟨_, _, rfl, hsame⟩
    · rw [Store.applyCommit_of_below h]
      exact ⟨_, _, rfl, h.foldl_push cmd.mutations⟩

theorem apply_cases {f' : FSM} {o : Outcome} (h : f.apply index cmd = .ok (f', o)) :
    (f' = f ∧ f.outcomes.get cmd.requestID = some ⟨o, fingerprintOf cmd⟩) ∨
      (f.outcomes.get cmd.requestID = none ∧ f'.gcWatermark = f.gcWatermark ∧
        f'.outcomes = f.outcomes.insert cmd.requestID ⟨o, fingerprintOf cmd⟩ ∧
        (o.status = .committed → o.commitSeq = index) ∧
        (o.status = .abortedStale → cmd.startSeq < f.gcWatermark)) := by
  cases hget : f.outcomes.get cmd.requestID with
  | some entry =>
    rw [apply_of_recorded index hget] at h
    split at h
    · rename_i hfp
      cases h
      exact .inl ⟨rfl, by rw [← hfp]⟩
    · cases h
  | none =>
    rw [apply_of_unknown index hget] at h
    cases hd : f.decision index cmd with
    | error e => simp [hd, Except.map] at h
    | ok d =>
      rw [hd] at h
      cases h
      refine .inr ⟨rfl, rfl, rfl, ?_⟩
      rw [decision] at hd
      split at hd
      · cases hd
        exact ⟨fun hstatus => (by cases hstatus), fun _ => ‹_›⟩
      split at hd
      · cases hd
        exact ⟨fun hstatus => (by cases hstatus), fun hstatus => (by cases hstatus)⟩
      split at hd
      · cases hd
      · cases hd
        exact ⟨fun _ => rfl, fun hstatus => (by cases hstatus)⟩

/-! ## Commands that leave the outcomes of commits alone -/

theorem outcomes_applySetClusterVersion (f : FSM) (index : Nat) (cmd : SetClusterVersionCommand) :
    (f.applySetClusterVersion index cmd).1.outcomes = f.outcomes := by
  rw [applySetClusterVersion]
  split
  · rfl
  · split <;> rfl

theorem outcomes_collect (f : FSM) (w maxVersions maxKeys : Nat) :
    (f.collect w maxVersions maxKeys).outcomes = f.outcomes := by
  rw [collect]
  split
  · dsimp only
    split
    · rfl
    · split <;> rfl
  · rfl

theorem outcomes_applyAdvanceGCWatermark (f : FSM) (index : Nat)
    (cmd : AdvanceGCWatermarkCommand) :
    (f.applyAdvanceGCWatermark index cmd).1.outcomes = f.outcomes := by
  rw [applyAdvanceGCWatermark]
  split
  · rfl
  · exact outcomes_collect _ _ _ _

theorem outcomes_recordMembershipOutcome {f' : FSM} {id : RequestID} {kind : MembershipKind}
    {nodeID address : Bytes} {o o' : Outcome}
    (h : f.recordMembershipOutcome id kind nodeID address o = .ok (f', o')) :
    f'.outcomes = f.outcomes := by
  rw [recordMembershipOutcome] at h
  split at h
  · split at h <;> cases h
    rfl
  · cases h
    rfl

end FSM

end ChronicleDB.Fsm
