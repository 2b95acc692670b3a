import ChronicleDB.Fsm.Machine
import ChronicleDB.Wal.Recovery
import Mathlib.Logic.Function.Basic

/-!
# The transaction manager

`internal/txn/txn.go`: sessions with their local writes, the commit path over the
write-ahead log and the state machine, and recovery.  A commit takes the failure
of its append (nothing is written) or of its sync (the record stays in the file)
as an argument.  The metrics are left out.
-/

namespace ChronicleDB.Transactions

open Foundation Mvcc Fsm Wal

/-! ## The manager -/

structure Manager where
  walog : WAL
  fsm : FSM
  lastSeq : Nat
  nextTxnID : Nat

inductive Fault where
  | append
  | sync
  deriving DecidableEq, Repr

inductive CommitError where
  | append (e : Option WALError)
  | sync
  | apply (e : ApplyError)
  | requestID (e : ApplyError)
  | conflict (key : Bytes) (latest startSeq : Nat)
  deriving DecidableEq, Repr

/-- The end of `commit`: an aborted outcome is returned as `ErrConflict`. -/
def conclude (startSeq : Nat) (outcome : Outcome) : Except CommitError Outcome :=
  if outcome.status = .aborted then
    .error (.conflict outcome.conflictKey outcome.conflictLatestSeq startSeq)
  else .ok outcome

namespace Manager

def submit (m : Manager) (cmd : CommitTxnCommand) (fault : Option Fault) :
    Manager × Except CommitError Outcome :=
  if fault = some .append then (m, .error (.append none))
  else
    match m.walog.appendLogEntry (encodeCommitTxn cmd) with
    | .error e => (m, .error (.append (some e)))
    | .ok (_, w, idx) =>
      if fault = some .sync then ({ m with walog := w }, .error .sync)
      else
        match m.fsm.apply idx cmd with
        | .error e => ({ m with walog := w.sync.2 }, .error (.apply e))
        | .ok (fsm, outcome) =>
          ({ m with walog := w.sync.2, fsm := fsm, lastSeq := idx },
            conclude cmd.startSeq outcome)

def commit (m : Manager) (cmd : CommitTxnCommand) (fault : Option Fault) :
    Manager × Except CommitError Outcome :=
  if cmd.mutations = [] then (m, .ok (.committed cmd.requestID m.lastSeq))
  else
    match m.fsm.precheck cmd with
    | .ok outcome => (m, conclude cmd.startSeq outcome)
    | .error .requestIDUnknown => m.submit cmd fault
    | .error e => (m, .error (.requestID e))

def getRequestOutcome (m : Manager) (id : RequestID) : Option Outcome := m.fsm.getOutcome id

end Manager

/-! ## Recovery -/

inductive RecoverError where
  | openWAL (e : OpenError)
  | replay (e : FrameError)
  | decode (index : Nat) (e : CommandError)
  | apply (index : Nat) (e : ApplyError)
  deriving DecidableEq, Repr

def recover : FSM → Nat → List Record → Except RecoverError (FSM × Nat)
  | fsm, lastSeq, [] => .ok (fsm, lastSeq)
  | fsm, lastSeq, rec :: recs =>
    match decodeCommitTxn rec.payload with
    | .error e => .error (.decode rec.index e)
    | .ok cmd =>
      match fsm.apply rec.index cmd with
      | .error e => .error (.apply rec.index e)
      | .ok (fsm, _) =>
        recover fsm (if rec.index > lastSeq then rec.index else lastSeq) recs

def newManager (w : WAL) : Except RecoverError Manager :=
  match w.replay 1 with
  | .error e => .error (.replay e)
  | .ok recs =>
    match recover (.new .new) 0 recs with
    | .error e => .error e
    | .ok (fsm, lastSeq) => .ok ⟨w, fsm, lastSeq, 0⟩

def openManager (d : Dir) (maxSize : Nat) (nodeID : Bytes) : Except RecoverError Manager :=
  match openWAL d maxSize nodeID with
  | .error e => .error (.openWAL e)
  | .ok (w, _) => newManager w

/-! ## Sessions -/

inductive TxnState where
  | active
  | committed
  | aborted
  deriving DecidableEq, Repr

structure Txn where
  id : Nat
  startSeq : Nat
  state : TxnState
  writes : SortedMap Bytes Mutation
  order : List Bytes

namespace Txn

/-- The write set in the order of the first writes. -/
def localWrites (t : Txn) : List Mutation :=
  t.order.map fun k => (t.writes.get k).getD ⟨[], some []⟩

def recordWriteLocked (t : Txn) (key : Bytes) (value : Option Bytes) : Txn :=
  { t with
    order := if (t.writes.get key).isSome then t.order else t.order ++ [key]
    writes := t.writes.insert key ⟨key, value⟩ }

def close (t : Txn) (state : TxnState) : Txn := { t with state, writes := .empty, order := [] }

end Txn

structure Engine where
  manager : Manager
  txns : Nat → Option Txn

inductive Call where
  | start
  | read (id : Nat) (key : Bytes)
  | write (id : Nat) (key value : Bytes)
  | delete (id : Nat) (key : Bytes)
  | commit (id : Nat) (requestID : RequestID) (fault : Option Fault)
  | abort (id : Nat)
  | reopen (nodeID : Bytes)
  deriving DecidableEq, Repr

inductive Reply where
  | started (id startSeq : Nat)
  | value (r : Except StoreError (Option Bytes))
  | done
  | committed (commitSeq : Nat)
  | failed (e : CommitError)
  | terminal (state : TxnState)
  | noSuchTxn
  | opened
  | openFailed (e : RecoverError)

namespace Engine

def onTxn (e : Engine) (id : Nat) (f : Txn → Engine × Reply) : Engine × Reply :=
  match e.txns id with
  | none => (e, .noSuchTxn)
  | some t => if t.state = .active then f t else (e, .terminal t.state)

def set (e : Engine) (id : Nat) (t : Txn) : Engine :=
  { e with txns := Function.update e.txns id (some t) }

def start (e : Engine) : Engine × Reply :=
  let id := e.manager.nextTxnID + 1
  let startSeq := e.manager.lastSeq
  ({ e with manager := { e.manager with nextTxnID := id } }.set id
    ⟨id, startSeq, .active, .empty, []⟩, .started id startSeq)

def read (e : Engine) (id : Nat) (key : Bytes) : Engine × Reply :=
  e.onTxn id fun t =>
    match t.writes.get key with
    | some m => (e, .value (.ok m.value))
    | none => (e, .value (e.manager.fsm.store.visible key t.startSeq))

def write (e : Engine) (id : Nat) (key : Bytes) (value : Option Bytes) : Engine × Reply :=
  e.onTxn id fun t => (e.set id (t.recordWriteLocked key value), .done)

def commit (e : Engine) (id : Nat) (requestID : RequestID) (fault : Option Fault) :
    Engine × Reply :=
  e.onTxn id fun t =>
    let cmd : CommitTxnCommand := ⟨requestID, t.id, t.startSeq, t.localWrites⟩
    match e.manager.commit cmd fault with
    | (m, .error err) => ({ e with manager := m }.set id (t.close .aborted), .failed err)
    | (m, .ok outcome) =>
      ({ e with manager := m }.set id (t.close .committed), .committed outcome.commitSeq)

def abort (e : Engine) (id : Nat) : Engine × Reply :=
  e.onTxn id fun t => (e.set id (t.close .aborted), .done)

/-- The log is closed, or the process crashes, and a manager is opened over the same
files; the old sessions are gone. -/
def reopen (e : Engine) (nodeID : Bytes) : Engine × Reply :=
  match openManager e.manager.walog.dir e.manager.walog.segmentMaxSize nodeID with
  | .error err => (e, .openFailed err)
  | .ok m => (⟨m, fun _ => none⟩, .opened)

def call (e : Engine) : Call → Engine × Reply
  | .start => e.start
  | .read id key => e.read id key
  | .write id key value => e.write id key (some value)
  | .delete id key => e.write id key none
  | .commit id requestID fault => e.commit id requestID fault
  | .abort id => e.abort id
  | .reopen nodeID => e.reopen nodeID

def run : Engine → List Call → Engine × List (Call × Reply)
  | e, [] => (e, [])
  | e, c :: cs =>
    let (e', r) := e.call c
    let (e'', replies) := run e' cs
    (e'', (c, r) :: replies)

end Engine

end ChronicleDB.Transactions
