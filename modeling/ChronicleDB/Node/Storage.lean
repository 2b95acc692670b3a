import ChronicleDB.Raft.Types
import ChronicleDB.Wal.Truncate

/-!
# Raft storage on the write-ahead log

`internal/node/storage.go`: the payload encodings of hard states and log
entries, and `WALStorage`, which keeps an in-memory mirror of what it has
written.  As for the WAL itself, a call returns the file operations it issues.
-/

namespace ChronicleDB.Node

open Foundation Raft Wal

/-! ## Payload encodings -/

def entryPayloadTypeSentinel : UInt8 := 0xFF

def encodeEntryPayload (term : Nat) (typ : EntryType) (data : Bytes) : Bytes :=
  match typ with
  | .normal => putUint 8 term ++ data
  | .config => putUint 8 term ++ entryPayloadTypeSentinel :: typ.code :: data

inductive StorageError where
  | wal (e : WALError)
  | replay (e : FrameError)
  | malformedEntryPayload (length : Nat)
  | unknownEntryType (code : UInt8)
  | hardStateTooShort (length : Nat)
  | hardStateTruncated (declared available : Nat)
  | nonContiguous (got want : Nat)
  | indexMismatch (assigned index : Nat)
  deriving DecidableEq, Repr

def decodeEntryPayload (b : Bytes) : Except StorageError (Nat × EntryType × Bytes) :=
  if b.length < 8 then .error (.malformedEntryPayload b.length)
  else
    let term := getUint (b.take 8)
    match b.drop 8 with
    | sentinel :: code :: data =>
      if sentinel = entryPayloadTypeSentinel then
        if code = EntryType.config.code then .ok (term, .config, data)
        else .error (.unknownEntryType code)
      else .ok (term, .normal, sentinel :: code :: data)
    | data => .ok (term, .normal, data)

def encodeHardState (hs : HardState) : Bytes :=
  putUint 8 hs.currentTerm ++ (putUint 4 hs.votedFor.length ++ hs.votedFor)

def decodeHardState (b : Bytes) : Except StorageError HardState :=
  if b.length < 12 then .error (.hardStateTooShort b.length)
  else
    let term := getUint (b.take 8)
    let idLen := getUint ((b.drop 8).take 4)
    if idLen > b.length - 12 then .error (.hardStateTruncated idLen (b.length - 12))
    else .ok ⟨term, (b.drop 12).take idLen⟩

/-! ## The storage -/

structure WALStorage where
  w : WAL
  hs : HardState
  baseIndex : Nat
  entries : List Entry
  deriving DecidableEq, Repr

def decodeRecord (rec : Record) : Except StorageError Entry :=
  match decodeEntryPayload rec.payload with
  | .error e => .error e
  | .ok (term, typ, data) => .ok ⟨rec.index, term, typ, data⟩

def decodeRecords : List Record → Except StorageError (List Entry)
  | [] => .ok []
  | rec :: recs =>
    match decodeRecord rec with
    | .error e => .error e
    | .ok e =>
      match decodeRecords recs with
      | .error e => .error e
      | .ok es => .ok (e :: es)

def initialHardState : Option Bytes → Except StorageError HardState
  | none => .ok .zero
  | some raw => if raw = [] then .ok .zero else decodeHardState raw

def openWALStorage (w : WAL) : Except StorageError WALStorage :=
  match initialHardState w.latestHardState with
  | .error e => .error e
  | .ok hs =>
    match w.replay w.firstLogIndex with
    | .error e => .error (.replay e)
    | .ok recs =>
      match decodeRecords recs with
      | .error e => .error e
      | .ok entries => .ok ⟨w, hs, w.firstLogIndex - 1, entries⟩

namespace WALStorage

def lastIndex (s : WALStorage) : Nat := s.baseIndex + s.entries.length

def setHardState (s : WALStorage) (hs : HardState) :
    Except StorageError (List FileOp × WALStorage) :=
  match s.w.appendHardState (encodeHardState hs) with
  | .error e => .error (.wal e)
  | .ok (ops, w) => .ok (ops ++ w.syncOps, { s with w := w.perform w.syncOps, hs := hs })

def reaffirm (s : WALStorage) : Except StorageError (List FileOp × WALStorage) :=
  s.setHardState s.hs

def compact (s : WALStorage) (uptoIndex : Nat) : WALStorage :=
  if uptoIndex ≤ s.baseIndex then s
  else { s with
    entries := s.entries.drop (uptoIndex - s.baseIndex), baseIndex := uptoIndex }

def truncate (s : WALStorage) (fromIndex : Nat) :
    Except StorageError (List FileOp × WALStorage) :=
  match s.w.truncate fromIndex with
  | .error e => .error (.wal e)
  | .ok (ops, w) =>
    -- the position is unsigned: at or below the base it wraps past the mirror's end
    let entries :=
      if fromIndex ≤ s.baseIndex then s.entries
      else s.entries.take (fromIndex - s.baseIndex - 1)
    .ok (ops, { s with w := w, entries := entries })

def checkContiguous : Nat → List Entry → Except StorageError Unit
  | _, [] => .ok ()
  | want, e :: es =>
    if e.index ≠ want then .error (.nonContiguous e.index want)
    else checkContiguous (want + 1) es

def appendEntries (w : WAL) : List Entry → Except StorageError (List FileOp × WAL)
  | [] => .ok ([], w)
  | e :: es =>
    match w.appendLogEntry (encodeEntryPayload e.term e.type e.data) with
    | .error err => .error (.wal err)
    | .ok (ops, w, idx) =>
      if e.index ≠ idx then .error (.indexMismatch idx e.index)
      else match appendEntries w es with
        | .error err => .error err
        | .ok (more, w) => .ok (ops ++ more, w)

def append (s : WALStorage) (entries : List Entry) :
    Except StorageError (List FileOp × WALStorage) :=
  if entries = [] then .ok ([], s)
  else match checkContiguous (s.lastIndex + 1) entries with
    | .error e => .error e
    | .ok () =>
      match appendEntries s.w entries with
      | .error e => .error e
      | .ok (ops, w) =>
        .ok (ops ++ w.syncOps,
          { s with w := w.perform w.syncOps, entries := s.entries ++ entries })

def installSnapshot (s : WALStorage) (uptoIndex : Nat) :
    Except StorageError (List FileOp × WALStorage) :=
  match s.w.appendMetadataSnapshot uptoIndex with
  | .error e => .error (.wal e)
  | .ok (pointerOps, w) =>
    match ({ s with w := w } : WALStorage).reaffirm with
    | .error e => .error e
    | .ok (reaffirmOps, s) =>
      match s.w.truncate (uptoIndex + 1) with
      | .error e => .error (.wal e)
      | .ok (truncateOps, w) =>
        match w.compactBefore uptoIndex with
        | .error e => .error (.wal e)
        | .ok (compactOps, w) =>
          .ok (pointerOps ++ (reaffirmOps ++ (truncateOps ++ compactOps)),
            { s with w := w, entries := [], baseIndex := uptoIndex })

end WALStorage

end ChronicleDB.Node
