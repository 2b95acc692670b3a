import ChronicleDB.Foundation.Bytes

/-!
# Basic types of the Raft core

`internal/raft/types.go`.  Go strings are byte sequences, so node ids and
addresses are byte strings here.  Terms and indices are natural numbers.
-/

namespace ChronicleDB.Raft

open Foundation

abbrev NodeID := Bytes

def noVote : NodeID := []

inductive Role where
  | follower
  | candidate
  | leader
  deriving DecidableEq, Repr

inductive EntryType where
  | normal
  | config
  deriving DecidableEq, Repr

def EntryType.code : EntryType → UInt8
  | .normal => 0
  | .config => 1

structure Entry where
  index : Nat
  term : Nat
  type : EntryType
  data : Bytes
  deriving DecidableEq, Repr

structure HardState where
  currentTerm : Nat
  votedFor : NodeID
  deriving DecidableEq, Repr

def HardState.zero : HardState := ⟨0, noVote⟩

structure Member where
  id : NodeID
  address : Bytes
  deriving DecidableEq, Repr

structure Configuration where
  voters : List Member
  learners : List Member
  deriving DecidableEq, Repr

namespace Configuration

def zero : Configuration := ⟨[], []⟩

def voterIDs (c : Configuration) : List NodeID := c.voters.map (·.id)

def majority (c : Configuration) : Nat := c.voters.length / 2 + 1

def isVoter (c : Configuration) (id : NodeID) : Bool := c.voters.any (·.id = id)

def isLearner (c : Configuration) (id : NodeID) : Bool := c.learners.any (·.id = id)

def isMember (c : Configuration) (id : NodeID) : Bool := c.isVoter id || c.isLearner id

def isZero (c : Configuration) : Bool := c.voters.isEmpty && c.learners.isEmpty

end Configuration

end ChronicleDB.Raft
