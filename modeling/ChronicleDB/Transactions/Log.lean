import ChronicleDB.Transactions.Manager
import ChronicleDB.Wal.Truncate

/-!
# The log of the transaction manager

The write-ahead log of a manager holds the commands of its commits at the indices
1, 2, 3 and so on, and nothing else but its metadata.
-/

namespace ChronicleDB.Transactions

open Foundation Fsm Wal

def commandRecord (index : Nat) (cmd : CommitTxnCommand) : Record :=
  ⟨.logEntry, index, encodeCommitTxn cmd⟩

def commandRecords (cmds : List CommitTxnCommand) : List Record :=
  cmds.mapIdx fun i cmd => commandRecord (i + 1) cmd

@[simp] theorem commandRecords_concat (cmds : List CommitTxnCommand) (cmd : CommitTxnCommand) :
    commandRecords (cmds ++ [cmd]) =
      commandRecords cmds ++ [commandRecord (cmds.length + 1) cmd] := by
  simp [commandRecords, List.mapIdx_concat]

structure Logged (w : WAL) (cmds : List CommitTxnCommand) : Prop where
  coherent : ∃ L, Coherent w L ∧ served 1 L.items = commandRecords cmds
  pointer : w.metadata.latestSnapshotIndex = 0
  next : w.nextLogIndex = cmds.length + 1
  fit : ∀ cmd ∈ cmds, cmd.Fits

theorem logged_fresh {maxSize : Nat} {nodeID : Bytes} {w : WAL} {report : RecoveryReport}
    (hid : nodeID.length < 2 ^ 16) (hopen : openWAL [] maxSize nodeID = .ok (w, report)) :
    Logged w [] := by
  obtain ⟨hcoherent, hnext⟩ := openWAL_fresh_coherent hid hopen
  have hmeta : (⟨nodeID, formatVersion, 0, 0⟩ : Metadata) = w.metadata := by
    simpa [lastMetadata, Item.metadata?] using hcoherent.metadata
  exact ⟨⟨_, hcoherent, rfl⟩, by rw [← hmeta], hnext, by simp⟩

/-- A command that can be logged: its numbers are `uint64`s and it fits in a record. -/
structure Loggable (cmd : CommitTxnCommand) : Prop where
  txnID_lt : cmd.txnID < 2 ^ 64
  startSeq_lt : cmd.startSeq < 2 ^ 64
  size_le : (encodeCommitTxn cmd).length ≤ maxRecordPayloadSize

theorem Loggable.fits {cmd : CommitTxnCommand} (h : Loggable cmd) : cmd.Fits :=
  ⟨h.txnID_lt, h.startSeq_lt, lt_of_le_of_lt h.size_le (by decide)⟩

namespace Logged

variable {w : WAL} {cmds : List CommitTxnCommand}

theorem append (h : Logged w cmds) {cmd : CommitTxnCommand} (hcmd : Loggable cmd)
    (hlength : cmds.length + 1 < 2 ^ 64) :
    ∃ ops w', w.appendLogEntry (encodeCommitTxn cmd) = .ok (ops, w', cmds.length + 1) ∧
      Logged w' (cmds ++ [cmd]) := by
  obtain ⟨L, hcoherent, hserved⟩ := h.coherent
  have hit : (Item.entry w.nextLogIndex (encodeCommitTxn cmd)).Fits :=
    Item.fits_entry (by rw [h.next]; exact hlength) hcmd.size_le
  have happend := appendLogEntry_eq hcoherent.toLaidOut hit
  have happended := hcoherent.appendLogEntry hit
  rw [h.next] at happend happended
  refine ⟨_, _, happend, ⟨_, happended, ?_⟩, h.pointer, by simp, ?_⟩
  · rw [hcoherent.toLaidOut.items_appended, served_append, hserved, commandRecords_concat]
    simp [served, Item.record, commandRecord]
  · simpa [or_imp, forall_and] using ⟨h.fit, hcmd.fits⟩

theorem append_tooLarge (w : WAL) {cmd : CommitTxnCommand}
    (hcmd : maxRecordPayloadSize < (encodeCommitTxn cmd).length) :
    w.appendLogEntry (encodeCommitTxn cmd) =
      .error (.recordTooLarge (encodeCommitTxn cmd).length) := by
  rw [WAL.appendLogEntry, appendLocked_tooLarge w .logEntry hcmd]
  rfl

theorem sync (h : Logged w cmds) : Logged w.sync.2 cmds := by
  obtain ⟨L, hcoherent, hserved⟩ := h.coherent
  exact ⟨⟨L, hcoherent.sync, hserved⟩, h.pointer, h.next, h.fit⟩

theorem replay_eq (h : Logged w cmds) : w.replay 1 = .ok (commandRecords cmds) := by
  obtain ⟨L, hcoherent, hserved⟩ := h.coherent
  rw [WAL.replay, replay_written hcoherent.written hcoherent.fit, hserved]

theorem reopen (h : Logged w cmds) (nodeID : Bytes) :
    ∃ report, openWAL w.dir w.segmentMaxSize nodeID = .ok (w, report) := by
  obtain ⟨L, hcoherent, -⟩ := h.coherent
  obtain ⟨c, k, report, hlast, hlive, hopen⟩ :=
    openWAL_holds hcoherent.toHolds hcoherent.consistent hcoherent.sized nodeID
  refine ⟨report, hopen.trans ?_⟩
  obtain rfl : c = w.current := Option.some.inj (hlast.symm.trans hcoherent.current)
  have hk : k = cmds.length := by
    have := congrArg List.length (hlive.symm.trans hcoherent.live)
    simpa [h.pointer, h.next] using this
  rw [hk, hcoherent.hardState]
  have hfirst := hcoherent.first
  have hnext := h.next
  rw [h.pointer] at hfirst ⊢
  obtain ⟨dir, size, current, info, next, first, hs⟩ := w
  simp only at hfirst hnext
  rw [hfirst, hnext, Nat.zero_add, Nat.zero_add]

end Logged

/-! ## Recovery -/

theorem recover_append (fsm : FSM) (lastSeq : Nat) (recs : List Record) (rec : Record) :
    recover fsm lastSeq (recs ++ [rec]) =
      match recover fsm lastSeq recs with
      | .error e => .error e
      | .ok (fsm, lastSeq) => recover fsm lastSeq [rec] := by
  induction recs generalizing fsm lastSeq with
  | nil => rfl
  | cons r recs ih =>
    rw [List.cons_append, recover, recover]
    split
    · rfl
    · split
      · rfl
      · exact ih _ _

/-- What a restart makes of the commands `cmds`. -/
def Replays (cmds : List CommitTxnCommand) (fsm : FSM) : Prop :=
  recover (.new .new) 0 (commandRecords cmds) = .ok (fsm, cmds.length)

theorem replays_nil : Replays [] (.new .new) := rfl

theorem Replays.concat {cmds : List CommitTxnCommand} {fsm fsm' : FSM} {cmd : CommitTxnCommand}
    {outcome : Outcome} (h : Replays cmds fsm) (hfits : cmd.Fits)
    (happly : fsm.apply (cmds.length + 1) cmd = .ok (fsm', outcome)) :
    Replays (cmds ++ [cmd]) fsm' := by
  rw [Replays, commandRecords_concat, recover_append, h]
  simp [recover, commandRecord, decodeCommitTxn_encode hfits, happly]

theorem Logged.openManager {w : WAL} {cmds : List CommitTxnCommand} {fsm : FSM}
    (h : Logged w cmds) (hfsm : Replays cmds fsm) (nodeID : Bytes) :
    openManager w.dir w.segmentMaxSize nodeID = .ok ⟨w, fsm, cmds.length, 0⟩ := by
  obtain ⟨report, hopen⟩ := h.reopen nodeID
  rw [Transactions.openManager, hopen]
  simp only [newManager, h.replay_eq]
  rw [hfsm]

end ChronicleDB.Transactions
