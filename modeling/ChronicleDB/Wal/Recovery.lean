import ChronicleDB.Wal.Log

/-!
# Recovery of the write-ahead log

`Open` scans every frame of every segment, keeps the last metadata and hard
state records it meets, cuts a torn tail off the final segment, and checks that
the log indices above the snapshot pointer are contiguous
(`internal/wal/wal.go`).  `Replay` serves the log records from an index on
(`internal/wal/replay.go`).
-/

namespace ChronicleDB.Wal

open Foundation

/-! ## The scan -/

structure Scan where
  metadata : Option Metadata
  latestHardState : Option Bytes
  logIndices : List Nat
  deriving DecidableEq, Repr

def Scan.add (s : Scan) (rec : Record) : Except OpenError Scan :=
  match rec.type with
  | .logEntry => .ok { s with logIndices := s.logIndices ++ [rec.index] }
  | .metadata =>
    match decodeMetadata rec.payload with
    | .error e => .error (.badMetadata e)
    | .ok m => .ok { s with metadata := some m }
  | .hardState => .ok { s with latestHardState := some rec.payload }

/-- The second component is the offset of a torn tail, if there is one. -/
def scanFrames (seg : Bytes) :
    Nat → Nat → Scan → Except OpenError (Scan × Option Nat)
  | 0, _, _ => .error .unfinished
  | fuel + 1, offset, s =>
    match readFrame seg offset with
    | .error .tornTail => .ok (s, some offset)
    | .error e => .error (.frame e)
    | .ok none => .ok (s, none)
    | .ok (some (rec, frameLen)) =>
      match s.add rec with
      | .error e => .error e
      | .ok s => scanFrames seg fuel (offset + frameLen) s

def scanSegments : Dir → Scan → Except OpenError (Scan × Option Nat)
  | [], s => .ok (s, none)
  | [last], s => scanFrames last.data (last.data.length + 1) 0 s
  | f :: rest, s =>
    match scanFrames f.data (f.data.length + 1) 0 s with
    | .error e => .error e
    | .ok (_, some _) => .error (.tornNonFinal f.id)
    | .ok (s, none) => scanSegments rest s

/-- Indices at or below the boundary are superseded and skipped. -/
def checkLive (boundary : Nat) :
    List Nat → Nat → Bool → Except OpenError Nat
  | [], lastLogIndex, _ => .ok lastLogIndex
  | idx :: rest, lastLogIndex, haveLiveEntry =>
    if idx ≤ boundary then checkLive boundary rest lastLogIndex haveLiveEntry
    else if haveLiveEntry then
      if idx ≠ lastLogIndex + 1 then .error (.outOfOrder idx (lastLogIndex + 1))
      else checkLive boundary rest idx true
    else if idx ≠ boundary + 1 then .error (.gap idx boundary)
    else checkLive boundary rest idx true

/-! ## Open -/

structure RecoveryReport where
  segmentsScanned : Nat
  lastLogIndex : Nat
  tornTailTruncated : Bool
  truncatedBytes : Nat
  firstLogIndex : Nat
  deriving DecidableEq, Repr

def defaultSegmentMaxSize : Nat := 16 * 1024 * 1024

/-- `nodeID` stands for the random identity of a fresh log. -/
def openFresh (segmentMaxSize : Nat) (nodeID : Bytes) :
    Except OpenError (WAL × RecoveryReport) :=
  let m : Metadata := ⟨nodeID, formatVersion, 0, 0⟩
  let w : WAL := ⟨applyOp [] (.create 1), segmentMaxSize, 1, m, 1, 1, none⟩
  match w.appendLocked .metadata (encodeMetadata m) with
  | .error e => .error (.write e)
  | .ok (_, w) => .ok (w.perform w.syncOps, ⟨1, 0, false, 0, 1⟩)

def repairTail (dir : Dir) (id : Nat) : Option Nat → Dir
  | none => dir
  | some offset => perform applyOp dir [.shrink id offset, .sync id]

def openExisting (dir : Dir) (lastID segmentMaxSize : Nat) :
    Except OpenError (WAL × RecoveryReport) :=
  match scanSegments dir ⟨none, none, []⟩ with
  | .error e => .error e
  | .ok (scan, torn) =>
    match scan.metadata with
    | none => .error .noMetadata
    | some m =>
      if m.formatVersion ≠ formatVersion then
        .error (.unsupportedVersion m.formatVersion)
      else if m.clusterGeneration > maxSupportedGeneration then
        .error (.unsupportedGeneration m.clusterGeneration)
      else
        let boundary := m.latestSnapshotIndex
        match checkLive boundary scan.logIndices boundary false with
        | .error e => .error e
        | .ok lastLogIndex =>
          .ok (⟨repairTail dir lastID torn, segmentMaxSize, lastID, m,
              lastLogIndex + 1, boundary + 1, scan.latestHardState⟩,
            ⟨dir.length, lastLogIndex, torn.isSome,
              torn.elim 0 (fileSize dir lastID - ·), boundary + 1⟩)

def openWAL (dir : Dir) (maxSize : Nat) (nodeID : Bytes) :
    Except OpenError (WAL × RecoveryReport) :=
  let segmentMaxSize := if maxSize = 0 then defaultSegmentMaxSize else maxSize
  match dir.getLast? with
  | none => openFresh segmentMaxSize nodeID
  | some last => openExisting dir last.id segmentMaxSize

/-! ## Replay -/

def replayFrames (seg : Bytes) (fromIndex : Nat) :
    Nat → Nat → Except FrameError (List Record)
  | 0, _ => .ok []
  | fuel + 1, offset =>
    match readFrame seg offset with
    | .error .tornTail => .ok []
    | .error e => .error e
    | .ok none => .ok []
    | .ok (some (rec, frameLen)) =>
      match replayFrames seg fromIndex fuel (offset + frameLen) with
      | .error e => .error e
      | .ok rest =>
        if rec.type ≠ .logEntry ∨ rec.index < fromIndex then .ok rest
        else .ok (rec :: rest)

def replay (fromIndex : Nat) : Dir → Except FrameError (List Record)
  | [] => .ok []
  | s :: rest =>
    match replayFrames s.data fromIndex (s.data.length + 1) 0 with
    | .error e => .error e
    | .ok recs =>
      match replay fromIndex rest with
      | .error e => .error e
      | .ok more => .ok (recs ++ more)

def WAL.replay (w : WAL) (fromIndex : Nat) : Except FrameError (List Record) :=
  Wal.replay fromIndex w.dir

/-- A record that `Replay` from `fromIndex` on can serve. -/
structure Servable (fromIndex : Nat) (rec : Record) : Prop where
  type : rec.type = .logEntry
  index_ge : fromIndex ≤ rec.index
  index_lt : rec.index < 2 ^ 64

theorem servable_of_replayFrames {seg : Bytes} {fromIndex fuel offset : Nat}
    {recs : List Record} (h : replayFrames seg fromIndex fuel offset = .ok recs) :
    ∀ rec ∈ recs, Servable fromIndex rec := by
  induction fuel generalizing offset recs with
  | zero =>
    cases h
    exact fun rec hrec => absurd hrec List.not_mem_nil
  | succ fuel ih =>
    rw [replayFrames] at h
    split at h
    · cases h
      exact fun rec hrec => absurd hrec List.not_mem_nil
    · cases h
    · cases h
      exact fun rec hrec => absurd hrec List.not_mem_nil
    rename_i rec frameLen hread
    split at h
    · cases h
    rename_i rest hrest
    split at h
    · cases h
      exact ih hrest
    · rename_i hkeep
      cases h
      rw [not_or, not_not, not_lt] at hkeep
      intro r hr
      rcases List.mem_cons.mp hr with rfl | hr
      · exact ⟨hkeep.1, hkeep.2, index_lt_of_readFrame hread⟩
      · exact ih hrest r hr

theorem servable_of_replay {fromIndex : Nat} {d : Dir} {recs : List Record}
    (h : Wal.replay fromIndex d = .ok recs) : ∀ rec ∈ recs, Servable fromIndex rec := by
  induction d generalizing recs with
  | nil =>
    cases h
    exact fun rec hrec => absurd hrec List.not_mem_nil
  | cons s d ih =>
    rw [Wal.replay] at h
    split at h
    · cases h
    rename_i here hhere
    split at h
    · cases h
    rename_i more hmore
    cases h
    intro rec hrec
    rcases List.mem_append.mp hrec with hrec | hrec
    · exact servable_of_replayFrames hhere rec hrec
    · exact ih hmore rec hrec

end ChronicleDB.Wal
