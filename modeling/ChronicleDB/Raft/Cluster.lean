import ChronicleDB.Node.Storage
import ChronicleDB.Raft.Core
import Mathlib.Logic.Function.Basic
import Mathlib.Logic.Relation

/-!
# Clusters of cores

A cluster is a set of replicas with a network between them.  A replica handles
one input at a time in the order of `processOutput` in `internal/node/node.go`:
the messages of a step leave first, then the writes of its `PersistRequest` are
made one by one (`ApplyPersistRequest` in `storage.go`), then the core learns
that they are complete.  A replica may crash between any two of these.

The network remembers every message that was ever sent, and delivers any of them
at any time: a message may be lost, delayed and delivered more than once.
-/

namespace ChronicleDB.Raft

open Foundation

/-! ## Storage -/

structure Store where
  hardState : HardState
  boundaryIndex : Nat
  boundaryTerm : Nat
  boundaryConfig : Configuration
  boundaryHasConfig : Bool
  entries : List Entry
  deriving DecidableEq, Repr

def Store.fresh : Store := ⟨.zero, 0, 0, .zero, false, []⟩

inductive StoreOp where
  | truncate (fromIndex : Nat)
  | append (entries : List Entry)
  | setHardState (hs : HardState)
  deriving DecidableEq, Repr

def StoreOp.apply (s : Store) : StoreOp → Store
  | .truncate fromIndex => { s with entries := s.entries.take (fromIndex - s.boundaryIndex - 1) }
  | .append entries => { s with entries := s.entries ++ entries }
  | .setHardState hs => { s with hardState := hs }

def PersistRequest.ops (pr : PersistRequest) : List StoreOp :=
  pr.truncateFrom.toList.map .truncate ++
    ((if pr.entries.isEmpty then [] else [.append pr.entries]) ++
      pr.hardState.toList.map .setHardState)

/-- `InstallSnapshot` of the storage: the boundary moves, the log is discarded. -/
def Store.install (s : Store) (index term : Nat) (cfg : Configuration) (hasCfg : Bool) : Store :=
  { s with boundaryIndex := index, boundaryTerm := term, boundaryConfig := cfg
           boundaryHasConfig := hasCfg, entries := [] }

def Store.compactTo (s : Store) (c : Core) : Store :=
  { s with boundaryIndex := c.snapshotIndex, boundaryTerm := c.snapshotTerm
           boundaryConfig := c.snapshotConfig, boundaryHasConfig := c.snapshotHasConfig
           entries := s.entries.drop (c.snapshotIndex - s.boundaryIndex) }

def Store.open (s : Store) (cfg : Config) : Option Core :=
  Core.newCoreFromSnapshot cfg s.hardState s.boundaryIndex s.boundaryTerm s.boundaryConfig
    s.boundaryHasConfig s.entries

/-! ## Clusters -/

/-- `core` is `none` while the node is down.  `writing` holds the sequence number
and the writes left of the request being stored. -/
structure Replica where
  core : Option Core
  store : Store
  writing : Option (Nat × List StoreOp)
  deriving DecidableEq, Repr

/-- An entry that `node` has put in `CommittedEntries` while in `term`. -/
structure Report where
  node : NodeID
  term : Nat
  entry : Entry
  deriving DecidableEq, Repr

structure Cluster where
  replicas : NodeID → Replica
  net : List Message
  reports : List Report
  panics : List (NodeID × Panic)

inductive Act where
  | start (n : NodeID)
  | crash (n : NodeID)
  | electionTimeout (n : NodeID)
  | heartbeatTimeout (n : NodeID)
  | deliver (msg : Message)
  | propose (n : NodeID) (data : Bytes)
  | proposeConfig (n : NodeID) (kind : MembershipChangeKind) (requestID : Bytes)
      (targetID : NodeID) (targetAddr : Bytes)
  | persist (n : NodeID)
  | apply (n : NodeID) (index : Nat)
  | compact (n : NodeID) (index : Nat)
  deriving DecidableEq, Repr

namespace Cluster

def fresh : Cluster := ⟨fun _ => ⟨none, .fresh, none⟩, [], [], []⟩

def idle (s : Cluster) (n : NodeID) : Option Core :=
  match (s.replicas n).writing with
  | some _ => none
  | none => (s.replicas n).core

def update (s : Cluster) (n : NodeID) (r : Replica) : Cluster :=
  { s with replicas := Function.update s.replicas n r }

def processOutput (s : Cluster) (n : NodeID) (store : Store) (r : Core × Output) : Cluster :=
  { s.update n ⟨some r.1, store, r.2.persistRequest.map fun pr => (pr.seq, pr.ops)⟩ with
    net := s.net ++ r.2.messages
    reports := s.reports ++ r.2.committedEntries.map fun e => ⟨n, r.1.currentTerm, e⟩ }

def panicked (s : Cluster) (n : NodeID) (store : Store) (p : Panic) : Cluster :=
  { s.update n ⟨none, store, none⟩ with panics := s.panics ++ [(n, p)] }

def feed (s : Cluster) (n : NodeID) (store : Store) (c : Core) (input : Input) : Cluster :=
  match c.step input with
  | .error p => s.panicked n store p
  | .ok r => s.processOutput n store r

/-- The store when the core gets `msg`: `handleInstallSnapshot` installs a
snapshot that the core is going to adopt before it hands over the message. -/
def storeFor (store : Store) (c : Core) (msg : Message) : Store :=
  match msg.body with
  | .installSnapshotRequest index term cfg hasCfg =>
    if msg.term ≥ c.currentTerm ∧ index > c.snapshotIndex ∧ index > c.commitIndex then
      store.install index term cfg hasCfg
    else store
  | _ => store

/-- Whether the storage accepts an entry with this payload.  A node stops when
its storage refuses an entry. -/
def fits (data : Bytes) : Bool :=
  (Node.encodeEntryPayload 0 .config data).length ≤ Wal.maxRecordPayloadSize

def step (boot : NodeID → Configuration) (s : Cluster) : Act → Option Cluster
  | .start n =>
    if (s.replicas n).core.isSome then none
    else match (s.replicas n).store.open ⟨n, boot n⟩ with
      | none => none
      | some c => some (s.update n ⟨some c, (s.replicas n).store, none⟩)
  | .crash n => some (s.update n ⟨none, (s.replicas n).store, none⟩)
  | .electionTimeout n =>
    (s.idle n).map fun c => s.feed n (s.replicas n).store c .electionTimeout
  | .heartbeatTimeout n =>
    (s.idle n).map fun c => s.feed n (s.replicas n).store c .heartbeatTimeout
  | .deliver msg =>
    if msg ∉ s.net then none
    else (s.idle msg.receiver).map fun c =>
      s.feed msg.receiver (storeFor (s.replicas msg.receiver).store c msg) c (.message msg)
  | .propose n data =>
    (s.idle n).map fun c => s.feed n (s.replicas n).store c (.propose data)
  | .proposeConfig n kind requestID targetID targetAddr =>
    match s.idle n with
    | none => none
    | some c =>
      match c.proposeConfigChange kind requestID targetID targetAddr with
      | .error (.error _) => none
      | .error (.panic p) => some (s.panicked n (s.replicas n).store p)
      | .ok r =>
        if (r.2.persistRequest.map fun pr => pr.entries.all (fits ·.data)) = some true then
          some (s.processOutput n (s.replicas n).store r)
        else none
  | .persist n =>
    match (s.replicas n).writing, (s.replicas n).core with
    | some (seq, op :: ops), some c =>
      some (s.update n ⟨some c, op.apply (s.replicas n).store, some (seq, ops)⟩)
    | some (seq, []), some c =>
      some (s.feed n (s.replicas n).store c (.persistenceComplete seq))
    | _, _ => none
  | .apply n index =>
    match s.idle n with
    | none => none
    | some c =>
      if index ≤ c.commitIndex then
        some (s.update n ⟨some (c.setApplied index), (s.replicas n).store, none⟩)
      else none
  | .compact n index =>
    match s.idle n with
    | none => none
    | some c => (c.compact index).map fun c =>
      s.update n ⟨some c, (s.replicas n).store.compactTo c, none⟩

/-! ## Runs -/

def Step (boot : NodeID → Configuration) (allowed : Cluster → Act → Prop)
    (s s' : Cluster) : Prop :=
  ∃ a, allowed s a ∧ s.step boot a = some s'

def Run (boot : NodeID → Configuration) (allowed : Cluster → Act → Prop) :
    Cluster → Cluster → Prop :=
  Relation.ReflTransGen (Step boot allowed)

def exec (boot : NodeID → Configuration) (s : Cluster) (acts : List Act) : Option Cluster :=
  acts.foldlM (fun s a => s.step boot a) s

end Cluster

end ChronicleDB.Raft
