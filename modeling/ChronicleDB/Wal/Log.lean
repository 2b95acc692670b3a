import ChronicleDB.Foundation.Crash
import ChronicleDB.Wal.Metadata

/-!
# The write-ahead log

The functions of `internal/wal/wal.go` and `internal/wal/replay.go` over a
directory of segment files, for an open WAL and without I/O errors.  A call
that changes files returns the file operations it issues, in order, beside the
WAL it leaves, so that a crash between any two of them can be looked at.
-/

namespace ChronicleDB.Wal

open Foundation

/-! ## Segment files -/

/-- `synced` counts the bytes present at the file's last fsync. -/
structure SegmentFile where
  id : Nat
  data : Bytes
  synced : Nat
  deriving DecidableEq, Repr

/-- Ascending by id, as `storage.ListSegmentIDs` returns them. -/
abbrev Dir := List SegmentFile

inductive FileOp where
  | create (id : Nat)
  | append (id : Nat) (bytes : Bytes)
  | sync (id : Nat)
  | shrink (id size : Nat)
  | remove (id : Nat)
  deriving DecidableEq, Repr

def onFile (id : Nat) (f : SegmentFile → SegmentFile) (d : Dir) : Dir :=
  d.map fun s => if s.id = id then f s else s

def applyOp (d : Dir) : FileOp → Dir
  | .create id =>
    d.takeWhile (·.id < id) ++ ⟨id, [], 0⟩ :: d.dropWhile (·.id < id)
  | .append id bytes => onFile id (fun s => { s with data := s.data ++ bytes }) d
  | .sync id => onFile id (fun s => { s with synced := s.data.length }) d
  | .shrink id size =>
    onFile id (fun s => ⟨s.id, s.data.take size, min s.synced size⟩) d
  | .remove id => d.filter (·.id ≠ id)

def fileSize (d : Dir) (id : Nat) : Nat :=
  match d.find? (·.id = id) with
  | some s => s.data.length
  | none => 0

/-! ## State and errors -/

structure WAL where
  dir : Dir
  segmentMaxSize : Nat
  current : Nat
  metadata : Metadata
  nextLogIndex : Nat
  firstLogIndex : Nat
  latestHardState : Option Bytes
  deriving DecidableEq, Repr

def WAL.perform (w : WAL) (ops : List FileOp) : WAL :=
  { w with dir := Foundation.perform applyOp w.dir ops }

inductive WALError where
  | recordTooLarge (length : Nat)
  | segmentExists (id : Nat)
  | frame (e : FrameError)
  | truncateBelowOne
  | indexNotFound (fromIndex nextLogIndex : Nat)
  | behindSnapshot (uptoIndex pointer : Nat)
  | unsupportedGeneration (generation : Nat)
  | negativeRetention
  deriving DecidableEq, Repr

inductive OpenError where
  | frame (e : FrameError)
  | tornNonFinal (id : Nat)
  | badMetadata (e : MetadataError)
  | noMetadata
  | unsupportedVersion (version : UInt8)
  | unsupportedGeneration (generation : Nat)
  | gap (index boundary : Nat)
  | outOfOrder (got want : Nat)
  | write (e : WALError)
  -- a scan that its step bound cut off; never the result of a real scan
  | unfinished
  deriving DecidableEq, Repr

/-! ## Appending -/

/-- Size threshold only; a segment without log progress is never left. -/
def WAL.maybeRotateLocked (w : WAL) (nextFrameSize : Nat) :
    Except WALError (List FileOp × WAL) :=
  let size := fileSize w.dir w.current
  if size = 0 ∨ size + nextFrameSize ≤ w.segmentMaxSize then .ok ([], w)
  else
    let newID := w.nextLogIndex
    if newID ≤ w.current then .ok ([], w)
    else if newID ∈ w.dir.map (·.id) then .error (.segmentExists newID)
    else
      -- the old segment is closed without an fsync of its own
      let ops := [.create newID, .sync newID]
      .ok (ops, { w.perform ops with current := newID })

def WAL.appendLocked (w : WAL) (rt : RecordType) (payload : Bytes) :
    Except WALError (List FileOp × WAL) :=
  if payload.length > maxRecordPayloadSize then
    .error (.recordTooLarge payload.length)
  else do
    let index := if rt = .logEntry then w.nextLogIndex else 0
    let frame := encodeRecord rt index payload
    let (rotate, w) ← w.maybeRotateLocked frame.length
    let write := [FileOp.append w.current frame]
    return (rotate ++ write, w.perform write)

def WAL.appendLogEntry (w : WAL) (payload : Bytes) :
    Except WALError (List FileOp × WAL × Nat) := do
  let idx := w.nextLogIndex
  let (ops, w) ← w.appendLocked .logEntry payload
  return (ops, { w with nextLogIndex := w.nextLogIndex + 1 }, idx)

theorem WAL.maybeRotateLocked_nextLogIndex {w w' : WAL} {n : Nat} {ops : List FileOp}
    (h : w.maybeRotateLocked n = .ok (ops, w')) : w'.nextLogIndex = w.nextLogIndex := by
  simp only [maybeRotateLocked] at h
  split at h
  · cases h
    rfl
  split at h
  · cases h
    rfl
  split at h
  · cases h
  · cases h
    rfl

theorem WAL.appendLocked_nextLogIndex {w w' : WAL} {rt : RecordType} {payload : Bytes}
    {ops : List FileOp} (h : w.appendLocked rt payload = .ok (ops, w')) :
    w'.nextLogIndex = w.nextLogIndex := by
  rw [appendLocked] at h
  split at h
  · cases h
  · simp only [bind, Except.bind] at h
    split at h
    · cases h
    · rename_i rotated hrotate
      cases h
      exact (maybeRotateLocked_nextLogIndex hrotate : rotated.2.nextLogIndex = _)

theorem WAL.appendLogEntry_nextLogIndex {w w' : WAL} {payload : Bytes} {ops : List FileOp}
    {idx : Nat} (h : w.appendLogEntry payload = .ok (ops, w', idx)) :
    idx = w.nextLogIndex ∧ w'.nextLogIndex = w.nextLogIndex + 1 := by
  simp only [appendLogEntry, bind, Except.bind] at h
  split at h
  · cases h
  · rename_i appended happend
    cases h
    exact ⟨rfl, congrArg (· + 1) (appendLocked_nextLogIndex happend : appended.2.nextLogIndex = _)⟩

def WAL.appendHardState (w : WAL) (payload : Bytes) :
    Except WALError (List FileOp × WAL) := do
  let (ops, w) ← w.appendLocked .hardState payload
  return (ops, { w with latestHardState := some payload })

def WAL.syncOps (w : WAL) : List FileOp := [.sync w.current]

def WAL.sync (w : WAL) : List FileOp × WAL := (w.syncOps, w.perform w.syncOps)

def WAL.appendMetadata (w : WAL) (m : Metadata) :
    Except WALError (List FileOp × WAL) := do
  let (ops, w) ← w.appendLocked .metadata (encodeMetadata m)
  return (ops ++ w.syncOps, { w.perform w.syncOps with metadata := m })

/-- Does not touch `nextLogIndex`, also when `uptoIndex` is past it. -/
def WAL.appendMetadataSnapshot (w : WAL) (uptoIndex : Nat) :
    Except WALError (List FileOp × WAL) :=
  if uptoIndex < w.metadata.latestSnapshotIndex then
    .error (.behindSnapshot uptoIndex w.metadata.latestSnapshotIndex)
  else do
    let (ops, w) ← w.appendMetadata { w.metadata with latestSnapshotIndex := uptoIndex }
    return (ops, { w with firstLogIndex := uptoIndex + 1 })

def WAL.setClusterGeneration (w : WAL) (generation : Nat) :
    Except WALError (List FileOp × WAL) :=
  if generation ≤ w.metadata.clusterGeneration then .ok ([], w)
  else if generation > maxSupportedGeneration then
    .error (.unsupportedGeneration generation)
  else w.appendMetadata { w.metadata with clusterGeneration := generation }

/-! ## Truncation and compaction -/

def locateFrame (seg : Bytes) (target : Nat) :
    Nat → Nat → Except FrameError (Option Nat)
  | 0, _ => .ok none
  | fuel + 1, off =>
    match readFrame seg off with
    | .error .tornTail => .ok none
    | .error e => .error e
    | .ok none => .ok none
    | .ok (some (rec, frameLen)) =>
      if rec.type = .logEntry ∧ rec.index = target then .ok (some off)
      else locateFrame seg target fuel (off + frameLen)

def locateLogIndex (target : Nat) : Dir → Except FrameError (Option (Nat × Nat))
  | [] => .ok none
  | s :: rest =>
    match locateFrame s.data target (s.data.length + 1) 0 with
    | .error e => .error e
    | .ok (some off) => .ok (some (s.id, off))
    | .ok none => locateLogIndex target rest

def WAL.truncate (w : WAL) (fromIndex : Nat) :
    Except WALError (List FileOp × WAL) :=
  if fromIndex < 1 then .error .truncateBelowOne
  else if fromIndex ≥ w.nextLogIndex then .ok ([], { w with nextLogIndex := fromIndex })
  else match locateLogIndex fromIndex w.dir with
    | .error e => .error (.frame e)
    | .ok none => .error (.indexNotFound fromIndex w.nextLogIndex)
    | .ok (some (targetID, targetOffset)) =>
      -- segments newer than the target go first, the highest id first
      let newer := (w.dir.map (·.id)).reverse.takeWhile (targetID < ·)
      let ops := newer.map FileOp.remove ++
        [.shrink targetID targetOffset, .sync targetID]
      .ok (ops, { w.perform ops with current := targetID, nextLogIndex := fromIndex })

/-- Segment ids alone decide: a segment ends where its successor starts. -/
def eligible (currentID uptoIndex : Nat) : List Nat → List Nat
  | id :: next :: rest =>
    if id = currentID then []
    else if next - 1 > uptoIndex then []
    else id :: eligible currentID uptoIndex (next :: rest)
  | _ => []

def WAL.compactBeforeRetaining (w : WAL) (uptoIndex : Nat)
    (retainExtraSegments : Int) : Except WALError (List FileOp × WAL) :=
  if retainExtraSegments < 0 then .error .negativeRetention
  else
    let ids := eligible w.current uptoIndex (w.dir.map (·.id))
    let ops := (ids.take (ids.length - retainExtraSegments.toNat)).map FileOp.remove
    .ok (ops, w.perform ops)

def WAL.compactBefore (w : WAL) (uptoIndex : Nat) :
    Except WALError (List FileOp × WAL) :=
  w.compactBeforeRetaining uptoIndex 0

end ChronicleDB.Wal
