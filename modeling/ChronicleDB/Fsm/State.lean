import ChronicleDB.Fsm.Machine
import ChronicleDB.Snapshot.Codec

/-!
# The state of the state machine as bytes

`internal/fsm/snapshot.go`.  What follows the outcomes depends on the cluster
generation: nothing at 0, the control outcomes from 1, the membership outcomes
from 2 and the collection state from 3 on.  The decoder bounds each count by the
bytes that remain, in 32 bits.
-/

namespace ChronicleDB.Fsm

open Foundation Foundation.Decoder Mvcc

def fsmStateVersion : UInt8 := 1
def fingerprintSize : Nat := 32

namespace Status

def byte : Status → UInt8
  | .committed => 0
  | .aborted => 1
  | .abortedStale => 2

def ofByte : UInt8 → Option Status
  | 0 => some .committed
  | 1 => some .aborted
  | 2 => some .abortedStale
  | _ => none

theorem ofByte_byte (s : Status) : ofByte s.byte = some s := by cases s <;> rfl

end Status

/-! ## Encoding -/

def putVersion (v : Version) : Bytes := putUint 8 v.commitSeq ++ putValue v.value

def putChain (c : Bytes × List Version) : Bytes :=
  putString c.1 ++ (putUint 4 c.2.length ++ c.2.flatMap putVersion)

def putOutcome (e : RequestID × OutcomeEntry) : Bytes :=
  putString e.1 ++ (e.2.fingerprint ++ e.2.outcome.status.byte ::
    (putUint 8 e.2.outcome.commitSeq ++ (putString e.2.outcome.conflictKey ++
      putUint 8 e.2.outcome.conflictLatestSeq)))

def putControlOutcome (e : RequestID × Outcome) : Bytes :=
  putString e.1 ++ e.2.status.byte :: putUint 8 e.2.commitSeq

def putMembershipOutcome (e : RequestID × OutcomeEntry) : Bytes :=
  putString e.1 ++ (e.2.fingerprint ++ e.2.outcome.status.byte ::
    putUint 8 e.2.outcome.commitSeq)

def putCounted {α : Type} (put : α → Bytes) (xs : List α) : Bytes :=
  putUint 4 xs.length ++ xs.flatMap put

namespace FSM

def membershipBlock (f : FSM) : Bytes :=
  if f.clusterGeneration ≥ 2 then putCounted putMembershipOutcome f.membershipOutcomes.entries
  else []

def gcBlock (f : FSM) : Bytes :=
  if f.clusterGeneration ≥ 3 then
    putUint 8 f.gcWatermark ++ (putUint 8 f.gcPasses ++ (putUint 8 f.gcPassSeq ++
      putString f.gcCursor))
  else []

def trailingBlock (f : FSM) : Bytes :=
  if f.clusterGeneration > 0 then
    putUint 4 f.clusterGeneration ++ (putCounted putControlOutcome f.controlOutcomes.entries ++
      (f.membershipBlock ++ f.gcBlock))
  else []

def encodeState (f : FSM) : Bytes :=
  fsmStateVersion :: (putCounted putChain f.store.keyChains ++
    (putCounted putOutcome f.outcomes.entries ++ f.trailingBlock))

end FSM

/-! ## Decoding -/

inductive StateField where
  | chain (i : Nat)
  | version (i j : Nat)
  | outcome (i : Nat)
  | controlOutcome (i : Nat)
  | membershipOutcome (i : Nat)
  deriving DecidableEq, Repr

inductive StateError where
  | tooShort (length : Nat)
  | unsupportedVersion (version expected : UInt8)
  | count (of : StateField) (declared remaining : Nat)
  | truncated (field : StateField)
  | truncatedString (field : StateField) (declared remaining : Nat)
  | truncatedOutcomeCount
  | truncatedMembershipCount
  | truncatedTrailingBlock
  | truncatedGCBlock
  | truncatedGCCursor (declared remaining : Nat)
  | status (field : StateField) (b : UInt8)
  | trailingBytes (extra : Nat)
  deriving DecidableEq, Repr

def getStatus (field : StateField) : Decoder StateError Status := do
  let b ← byte
  match Status.ofByte b with
  | none => throw (.status field b)
  | some s => pure s

def getVersion (i j : Nat) : Decoder StateError Version := do
  need 9 fun _ => .truncated (.version i j)
  let seq ← uint 8
  let tombstone ← byte
  if tombstone ≠ 0 then pure ⟨seq, none⟩
  else
    need 4 fun _ => .truncated (.version i j)
    let value ← string (.truncatedString (.version i j))
    pure ⟨seq, some value⟩

def getChain (i : Nat) : Decoder StateError (Bytes × List Version) := do
  need 4 fun _ => .truncated (.chain i)
  let key ← string (.truncatedString (.chain i))
  need 4 fun _ => .truncated (.chain i)
  let numVersions ← uint 4
  checkCount numVersions 9 (.count (.version i 0))
  let versions ← times (getVersion i) numVersions 0
  pure (key, versions)

def decodedSeq (status : Status) (commitSeq : Nat) : Nat :=
  if status = .committed then commitSeq else 0

def getOutcomeEntry (i : Nat) : Decoder StateError (RequestID × OutcomeEntry) := do
  need 4 fun _ => .truncated (.outcome i)
  let id ← string (.truncatedString (.outcome i))
  need (fingerprintSize + 1 + 8 + 4) fun _ => .truncated (.outcome i)
  let fingerprint ← bytes fingerprintSize
  let status ← getStatus (.outcome i)
  let commitSeq ← uint 8
  let conflictKey ← string (.truncatedString (.outcome i))
  need 8 fun _ => .truncated (.outcome i)
  let conflictLatestSeq ← uint 8
  pure (id, ⟨⟨id, status, decodedSeq status commitSeq, conflictKey, conflictLatestSeq⟩,
    fingerprint⟩)

def getControlOutcome (i : Nat) : Decoder StateError (RequestID × Outcome) := do
  need 4 fun _ => .truncated (.controlOutcome i)
  let id ← string (.truncatedString (.controlOutcome i))
  need (1 + 8) fun _ => .truncated (.controlOutcome i)
  let status ← getStatus (.controlOutcome i)
  let commitSeq ← uint 8
  pure (id, ⟨id, status, decodedSeq status commitSeq, [], 0⟩)

def getMembershipEntry (i : Nat) : Decoder StateError (RequestID × OutcomeEntry) := do
  need 4 fun _ => .truncated (.membershipOutcome i)
  let id ← string (.truncatedString (.membershipOutcome i))
  need (fingerprintSize + 1 + 8) fun _ => .truncated (.membershipOutcome i)
  let fingerprint ← bytes fingerprintSize
  let status ← getStatus (.membershipOutcome i)
  let commitSeq ← uint 8
  pure (id, ⟨⟨id, status, decodedSeq status commitSeq, [], 0⟩, fingerprint⟩)

structure Trailer where
  clusterGeneration : Nat
  controlOutcomes : List (RequestID × Outcome)
  membershipOutcomes : List (RequestID × OutcomeEntry)
  gcWatermark : Nat
  gcPasses : Nat
  gcPassSeq : Nat
  gcCursor : Bytes

def Trailer.none : Trailer := ⟨0, [], [], 0, 0, 0, []⟩

def getMembershipBlock (clusterGeneration : Nat) :
    Decoder StateError (List (RequestID × OutcomeEntry)) :=
  if clusterGeneration ≥ 2 then do
    need 4 fun _ => .truncatedMembershipCount
    let count ← uint 4
    checkCount count (4 + fingerprintSize + 1 + 8) (.count (.membershipOutcome 0))
    times getMembershipEntry count 0
  else pure []

def getGCBlock (clusterGeneration : Nat) : Decoder StateError (Nat × Nat × Nat × Bytes) :=
  if clusterGeneration ≥ 3 then do
    need (8 + 8 + 8 + 4) fun _ => .truncatedGCBlock
    let watermark ← uint 8
    let passes ← uint 8
    let passSeq ← uint 8
    let cursor ← string .truncatedGCCursor
    pure (watermark, passes, passSeq, cursor)
  else pure (0, 0, 0, [])

def getTrailer : Decoder StateError Trailer := do
  need 8 fun _ => .truncatedTrailingBlock
  let clusterGeneration ← uint 4
  let numControlOutcomes ← uint 4
  checkCount numControlOutcomes (4 + 1 + 8) (.count (.controlOutcome 0))
  let controlOutcomes ← times getControlOutcome numControlOutcomes 0
  let membershipOutcomes ← getMembershipBlock clusterGeneration
  let gc ← getGCBlock clusterGeneration
  finished .trailingBytes
  pure ⟨clusterGeneration, controlOutcomes, membershipOutcomes, gc.1, gc.2.1, gc.2.2.1, gc.2.2.2⟩

def getTrailingBlock : Decoder StateError Trailer := fun b =>
  if b.length > 0 then getTrailer b else .ok (.none, b)

def maxSeqOf (chains : List (Bytes × List Version)) (outcomes : List Outcome) : Nat :=
  ((chains.flatMap fun c => c.2.map (·.commitSeq)) ++ outcomes.map (·.commitSeq)).foldl max 0

def restore (chains : List (Bytes × List Version)) (outcomes : List (RequestID × OutcomeEntry))
    (t : Trailer) : FSM where
  store := .restoreStore chains t.gcWatermark
  outcomes := SortedMap.empty.insertAll outcomes
  clusterGeneration := t.clusterGeneration
  controlOutcomes := SortedMap.empty.insertAll t.controlOutcomes
  membershipOutcomes := SortedMap.empty.insertAll t.membershipOutcomes
  gcWatermark := t.gcWatermark
  gcCursor := t.gcCursor
  gcPasses := t.gcPasses
  gcPassSeq := t.gcPassSeq

def getState : Decoder StateError (FSM × Nat) := do
  need 5 .tooShort
  let version ← byte
  check (version = fsmStateVersion) (.unsupportedVersion version fsmStateVersion)
  let numChains ← uint 4
  checkCount numChains 8 (.count (.chain 0))
  let chains ← times getChain numChains 0
  need 4 fun _ => .truncatedOutcomeCount
  let numOutcomes ← uint 4
  checkCount numOutcomes (4 + fingerprintSize + 1 + 8 + 4 + 8) (.count (.outcome 0))
  let outcomes ← times getOutcomeEntry numOutcomes 0
  let t ← getTrailingBlock
  pure (restore chains outcomes t,
    maxSeqOf chains (outcomes.map (·.2.outcome) ++ (t.controlOutcomes.map (·.2) ++
      t.membershipOutcomes.map (·.2.outcome))))

def decodeState (data : Bytes) : Except StateError (FSM × Nat) := (getState data).map (·.1)

def FSM.maxSeq (f : FSM) : Nat :=
  maxSeqOf f.store.keyChains (f.outcomes.entries.map (·.2.outcome) ++
    (f.controlOutcomes.entries.map (·.2) ++ f.membershipOutcomes.entries.map (·.2.outcome)))

end ChronicleDB.Fsm
