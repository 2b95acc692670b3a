import ChronicleDB.Snapshot.Codec

/-!
# Configuration changes

`internal/raft/membership.go` without its parts on `Core`: the payload of a
configuration entry and the four single-server transitions.  The configuration
inside a payload has the layout that the snapshot files use, and is read by the
same reader.
-/

namespace ChronicleDB.Raft

open Foundation
open Snapshots (encodeConfiguration decodeConfiguration getString)

def controlCommandMarkerMirror : UInt8 := 0xF0

def membershipKindAddLearner : UInt8 := 16
def membershipKindPromoteVoter : UInt8 := 17
def membershipKindRemoveServer : UInt8 := 18
def membershipKindVoided : UInt8 := 19

inductive MembershipChangeKind where
  | addLearner
  | promoteToVoter
  | removeServer
  deriving DecidableEq, Repr

def wireKindFor : MembershipChangeKind → UInt8
  | .addLearner => membershipKindAddLearner
  | .promoteToVoter => membershipKindPromoteVoter
  | .removeServer => membershipKindRemoveServer

/-! ## Payloads of configuration entries -/

inductive ConfigChangeError where
  | malformed
  | unknownKind (kind : UInt8)
  deriving DecidableEq, Repr

def putLenPrefixed (b : Bytes) : Bytes := putUint 4 b.length ++ b

def getLenPrefixed (b : Bytes) : Except ConfigChangeError (Bytes × Bytes) :=
  match getString b with
  | .error _ => .error .malformed
  | .ok r => .ok r

def encodeConfigChange (kind : UInt8) (requestID targetID targetAddr : Bytes)
    (cfg : Configuration) : Bytes :=
  controlCommandMarkerMirror :: kind :: (putLenPrefixed requestID ++
    (putLenPrefixed targetID ++ (putLenPrefixed targetAddr ++
      putLenPrefixed (encodeConfiguration cfg))))

def encodeVoidedEntryConfigPayload : Bytes :=
  controlCommandMarkerMirror :: membershipKindVoided :: (putUint 4 0 ++ (putUint 4 0 ++
    (putUint 4 0 ++ putUint 4 0)))

structure ConfigChange where
  kind : UInt8
  requestID : Bytes
  targetID : Bytes
  targetAddr : Bytes
  /-- `none` for a voided entry, which establishes no configuration. -/
  cfg : Option Configuration
  deriving DecidableEq, Repr

def checkConfigChange (kind : UInt8) (requestID targetID targetAddr cfgB : Bytes) :
    Except ConfigChangeError ConfigChange :=
  if kind = membershipKindAddLearner ∨ kind = membershipKindPromoteVoter ∨
      kind = membershipKindRemoveServer then
    match decodeConfiguration cfgB with
    | .error _ => .error .malformed
    | .ok cfg =>
      if cfg.voters.length = 0 then .error .malformed
      else .ok ⟨kind, requestID, targetID, targetAddr, some cfg⟩
  else if kind = membershipKindVoided then
    if cfgB.length ≠ 0 ∨ requestID.length ≠ 0 ∨ targetID.length ≠ 0 ∨ targetAddr.length ≠ 0 then
      .error .malformed
    else .ok ⟨kind, requestID, targetID, targetAddr, none⟩
  else .error (.unknownKind kind)

def decodeConfigChange (b : Bytes) : Except ConfigChangeError ConfigChange :=
  match b with
  | marker :: kind :: b =>
    if marker ≠ controlCommandMarkerMirror then .error .malformed
    else match getLenPrefixed b with
      | .error e => .error e
      | .ok (requestID, b) =>
        match getLenPrefixed b with
        | .error e => .error e
        | .ok (targetID, b) =>
          match getLenPrefixed b with
          | .error e => .error e
          | .ok (targetAddr, b) =>
            match getLenPrefixed b with
            | .error e => .error e
            | .ok (cfgB, b) =>
              if b.length ≠ 0 then .error .malformed
              else checkConfigChange kind requestID targetID targetAddr cfgB
  | _ => .error .malformed

def Entry.configuration? (e : Entry) : Option Configuration :=
  match e.type with
  | .normal => none
  | .config =>
    match decodeConfigChange e.data with
    | .error _ => none
    | .ok change => change.cfg

/-! ## The four transitions -/

def toMemberSet (members : List Member) : List NodeID := (members.map (·.id)).dedup

def sameMemberIDs (a b : List NodeID) : Bool := a.length = b.length ∧ ∀ id ∈ a, id ∈ b

/-- A member of `new` that is not in `old`, if `new` is larger by one.  The source
takes the first one in the unspecified order of a map; of the configurations that
`buildNewConfiguration` makes there is only one. -/
def oneAdded (old new : List NodeID) : Option NodeID :=
  if new.length ≠ old.length + 1 then none else new.find? (· ∉ old)

def oneRemoved (old new : List NodeID) : Option NodeID := oneAdded new old

/-- Whether `new` follows `old` by one of the four single-server changes. -/
def classifyTransition (old new : Configuration) : Bool :=
  let oldV := toMemberSet old.voters
  let newV := toMemberSet new.voters
  let oldL := toMemberSet old.learners
  let newL := toMemberSet new.learners
  if newV.any (· ∈ newL) then false
  else if newV.length = oldV.length ∧ newL.length = oldL.length + 1 then
    sameMemberIDs oldV newV && match oneAdded oldL newL with
      | none => false
      | some added => added ∉ oldV
  else if newV.length = oldV.length + 1 ∧ newL.length + 1 = oldL.length then
    match oneAdded oldV newV, oneRemoved oldL newL with
    | some added, some removed => added = removed && oldV.all (· ∈ newV)
    | _, _ => false
  else if newV.length + 1 = oldV.length ∧ newL.length = oldL.length then
    !(newV.length < 1) && sameMemberIDs oldL newL && (oneRemoved oldV newV).isSome
  else if newV.length = oldV.length ∧ newL.length + 1 = oldL.length then
    sameMemberIDs oldV newV && (oneRemoved oldL newL).isSome
  else false

/-! ## The configuration after a change -/

inductive ProposeError where
  | notLeader
  | inheritedSuffixUncommitted
  | noCurrentTermCommit
  | changeInProgress
  | invalidTransition
  | lastVoterRemoval
  | unknownMember
  | memberAlreadyExists
  deriving DecidableEq, Repr

def removeMemberByID (members : List Member) (id : NodeID) : List Member :=
  members.filter (·.id ≠ id)

def appendMember (members : List Member) (m : Member) : List Member := members ++ [m]

def findMemberByID (members : List Member) (id : NodeID) : Option Member :=
  members.find? (·.id = id)

def buildNewConfiguration (cur : Configuration) (kind : MembershipChangeKind)
    (targetID : NodeID) (targetAddr : Bytes) : Except ProposeError Configuration :=
  match kind with
  | .addLearner =>
    if cur.isMember targetID then .error .memberAlreadyExists
    else .ok ⟨cur.voters, appendMember cur.learners ⟨targetID, targetAddr⟩⟩
  | .promoteToVoter =>
    match findMemberByID cur.learners targetID with
    | none => .error .unknownMember
    | some m => .ok ⟨appendMember cur.voters m, removeMemberByID cur.learners targetID⟩
  | .removeServer =>
    if cur.isVoter targetID then
      .ok ⟨removeMemberByID cur.voters targetID, cur.learners⟩
    else if cur.isLearner targetID then
      .ok ⟨cur.voters, removeMemberByID cur.learners targetID⟩
    else .error .unknownMember

end ChronicleDB.Raft
