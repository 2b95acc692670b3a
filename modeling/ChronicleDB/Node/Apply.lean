import ChronicleDB.Fsm.Machine
import ChronicleDB.Raft.Membership
import ChronicleDB.Wal.Metadata

/-!
# Applying committed entries

`applyCommitted` of `internal/node/node.go` with `applyControlEntry` and
`applyConfigEntry`: what a committed entry does to the state machine of a node,
and what stops the node.  The dial table and the metrics are left out.
-/

namespace ChronicleDB.Node

open Foundation Fsm
open Raft (Entry EntryType ConfigChangeError decodeConfigChange NodeID)

/-- The part of a node that applies entries. `clusterGeneration` is the copy of the
state machine's generation that the node keeps. -/
structure Applier where
  fsm : FSM
  appliedIndex : Nat
  clusterGeneration : Nat
  deriving DecidableEq

def Applier.fresh : Applier := ⟨.new .new, 0, 0⟩

inductive ApplyFailure where
  | decodeConfig (index : Nat) (e : ConfigChangeError)
  | configGeneration (index generation : Nat)
  | membershipOutcome (index : Nat) (e : ApplyError)
  | controlKindMissing (index : Nat)
  | unknownControlKind (index : Nat) (kind : UInt8)
  | decodeControl (index : Nat) (e : CommandError)
  | unsupportedGeneration (index target : Nat)
  | gcGeneration (index generation : Nat)
  | decode (index : Nat) (e : CommandError)
  | apply (index : Nat) (e : ApplyError)
  deriving DecidableEq, Repr

/-- The state after an entry, and what its waiter is resolved with: the RequestID at
that index and its outcome. -/
abbrev Applied := Except ApplyFailure (Applier × Option (RequestID × Outcome))

def fsmMembershipKind (wire : UInt8) : MembershipKind :=
  if wire = Raft.membershipKindAddLearner then .addLearner
  else if wire = Raft.membershipKindPromoteVoter then .promoteVoter
  else .removeServer

namespace Applier

def applyConfigEntry (a : Applier) (e : Entry) : Applied :=
  match decodeConfigChange e.data with
  | .error err => .error (.decodeConfig e.index err)
  | .ok change =>
    let a := { a with appliedIndex := e.index }
    match change.cfg with
    | none => .ok (a, none)
    | some _ =>
      if a.clusterGeneration < 2 then
        .error (.configGeneration e.index a.clusterGeneration)
      else
        match a.fsm.recordMembershipOutcome change.requestID (fsmMembershipKind change.kind)
            change.targetID change.targetAddr (.committed change.requestID e.index) with
        | .error err => .error (.membershipOutcome e.index err)
        | .ok (fsm, outcome) => .ok ({ a with fsm := fsm }, some (change.requestID, outcome))

def applySetClusterVersionEntry (a : Applier) (e : Entry) : Applied :=
  match decodeSetClusterVersion e.data with
  | .error err => .error (.decodeControl e.index err)
  | .ok cmd =>
    if cmd.targetGeneration > Wal.maxSupportedGeneration then
      .error (.unsupportedGeneration e.index cmd.targetGeneration)
    else
      let (fsm, outcome) := a.fsm.applySetClusterVersion e.index cmd
      .ok (⟨fsm, e.index,
        if outcome.status = .committed then cmd.targetGeneration else a.clusterGeneration⟩,
        some (cmd.requestID, outcome))

def applyAdvanceGCWatermarkEntry (a : Applier) (e : Entry) : Applied :=
  if a.clusterGeneration < 3 then .error (.gcGeneration e.index a.clusterGeneration)
  else
    match decodeAdvanceGCWatermark e.data with
    | .error err => .error (.decodeControl e.index err)
    | .ok cmd =>
      let (fsm, outcome) := a.fsm.applyAdvanceGCWatermark e.index cmd
      .ok ({ a with fsm := fsm, appliedIndex := e.index }, some (cmd.requestID, outcome))

def applyControlEntry (a : Applier) (e : Entry) : Applied :=
  match controlKind e.data with
  | none => .error (.controlKindMissing e.index)
  | some kind =>
    if kind = controlKindSetClusterVersion then a.applySetClusterVersionEntry e
    else if kind = controlKindAdvanceGCWatermark then a.applyAdvanceGCWatermarkEntry e
    else .error (.unknownControlKind e.index kind)

def applyCommitEntry (a : Applier) (e : Entry) : Applied :=
  match decodeCommitTxn e.data with
  | .error err => .error (.decode e.index err)
  | .ok cmd =>
    match a.fsm.apply e.index cmd with
    | .error err => .error (.apply e.index err)
    | .ok (fsm, outcome) =>
      .ok ({ a with fsm := fsm, appliedIndex := e.index }, some (cmd.requestID, outcome))

def applyEntry (a : Applier) (e : Entry) : Applied :=
  if e.index ≤ a.appliedIndex then .ok (a, none)
  else
    match e.type with
    | .config => a.applyConfigEntry e
    | .normal => if isControlCommand e.data then a.applyControlEntry e else a.applyCommitEntry e

def applyCommitted (a : Applier) : List Entry → Except ApplyFailure Applier
  | [] => .ok a
  | e :: es =>
    match a.applyEntry e with
    | .error f => .error f
    | .ok (a, _) => applyCommitted a es

/-! ## Transaction commits -/

theorem applyEntry_commit {a : Applier} {e : Entry} {cmd : CommitTxnCommand}
    (hnew : a.appliedIndex < e.index) (htype : e.type = .normal)
    (hdata : e.data = encodeCommitTxn cmd) (hfits : cmd.Fits) :
    a.applyEntry e =
      match a.fsm.apply e.index cmd with
      | .error err => .error (.apply e.index err)
      | .ok (fsm, outcome) =>
        .ok ({ a with fsm := fsm, appliedIndex := e.index }, some (cmd.requestID, outcome)) := by
  rw [applyEntry, if_neg (Nat.not_le.mpr hnew), htype]
  simp only [hdata, isControlCommand_encodeCommitTxn, Bool.false_eq_true, if_false,
    applyCommitEntry, decodeCommitTxn_encode hfits]

end Applier

end ChronicleDB.Node
