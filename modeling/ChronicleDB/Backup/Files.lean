import ChronicleDB.Fsm.Transparency
import ChronicleDB.Node.Snapshot
import ChronicleDB.Raft.Core

/-!
# Backups as files

`Export` and `Restore` of `internal/backup` down to the bytes of the snapshot and
of the WAL segments, and what `Open` of `internal/node/node.go` makes of a restored
directory.  The manifest is kept as a value: its JSON text is left out.
-/

namespace ChronicleDB.Backup.Files

open Foundation List
open Fsm (FSM fsmFormat)
open Node
open Raft (Configuration Core Entry EntryType HardState)
open Snapshots
open Wal (Dir FileOp Layout Metadata OpenError Record WAL WALError openWAL)

variable {w w' : WAL} {recs : List Record} {n next : Nat} {L : Layout} {m : Metadata}

/-! ## Payloads of configuration entries -/

def entryTypeConfigByte : UInt8 := 1
def entryPayloadTypedHeaderLen : Nat := 8 + 1 + 1

/-- The marker, the kind of a voided change and four empty fields. -/
def voidedConfigChangePayload : Bytes := [0xF0, 19, 0, 0, 0, 0, 0, 0, 0, 0, 0, 0, 0, 0, 0, 0, 0, 0]

def voidConfigEntryPayload (payload : Bytes) : Bytes :=
  if payload.length < entryPayloadTypedHeaderLen then payload
  else if payload.getD 8 0 ≠ entryPayloadTypeSentinel ∨ payload.getD 9 0 ≠ entryTypeConfigByte then
    payload
  else payload.take entryPayloadTypedHeaderLen ++ voidedConfigChangePayload

/-! ## Copying a log -/

inductive BackupError where
  | untilBeforeBase (untilIndex baseIndex : Nat)
  -- `Encode` panics on a write version that it does not know
  | writeVersion (version : UInt8)
  | openWAL (e : OpenError)
  | wal (e : WALError)
  | replay (e : Wal.FrameError)
  | indexMismatch (assigned source : Nat)
  | missingSnapshot
  | corruptSnapshot
  | invalidSnapshot (e : SnapshotError)
  | boundaryMismatch
  | missingSegment (id : Nat)
  | corruptSegment (id : Nat)
  | invalidBoundary (untilIndex first last : Nat)
  | targetNotClean
  deriving DecidableEq

def newBaseWAL (nodeID : Bytes) (baseIndex : Nat) : Except BackupError WAL :=
  match openWAL [] 0 nodeID with
  | .error e => .error (.openWAL e)
  | .ok (w, _) =>
    match w.appendMetadataSnapshot baseIndex with
    | .error e => .error (.wal e)
    | .ok (_, w) =>
      match w.truncate ((baseIndex + 1) % 2 ^ 64) with
      | .error e => .error (.wal e)
      | .ok (_, w) => .ok w

def copyRecords (untilIndex : Option Nat) (transform : Bytes → Bytes) :
    List Record → WAL → Nat → Except BackupError (WAL × Nat)
  | [], dst, last => .ok (dst, last)
  | rec :: recs, dst, last =>
    if untilIndex.any (· < rec.index) then .ok (dst, last)
    else match dst.appendLogEntry (transform rec.payload) with
      | .error e => .error (.wal e)
      | .ok (_, dst, idx) =>
        if idx ≠ rec.index then .error (.indexMismatch idx rec.index)
        else copyRecords untilIndex transform recs dst rec.index

def copyWALSuffix (src dst : WAL) (baseIndex : Nat) (untilIndex : Option Nat)
    (transform : Bytes → Bytes) : Except BackupError (WAL × Nat) :=
  match src.replay (baseIndex + 1) with
  | .error e => .error (.replay e)
  | .ok recs => copyRecords untilIndex transform recs dst baseIndex

/-! ## Export -/

structure Source where
  info : Meta
  fsm : FSM
  wal : WAL
  snapshotWriteVersion : UInt8

structure WALSegmentInfo where
  id : Nat
  size : Nat
  checksum : Nat
  deriving DecidableEq

structure Manifest where
  lastIncludedIndex : Nat
  lastIncludedTerm : Nat
  snapshotFile : Nat
  snapshotSize : Nat
  snapshotChecksum : Nat
  walFromIndex : Nat
  walUntilIndex : Nat
  walSegments : List WALSegmentInfo
  deriving DecidableEq

structure Archive where
  manifest : Manifest
  snapshots : Snapshots.Files
  wal : Dir
  deriving DecidableEq

def describeWALSegments (dir : Dir) : List WALSegmentInfo :=
  dir.map fun s => ⟨s.id, s.data.length, checksumIEEE s.data⟩

def exportSource (src : Source) (untilIndex : Option Nat) (nodeID : Bytes) :
    Except BackupError Archive :=
  let base := src.info.lastIncludedIndex
  if untilIndex.any (· < base) then .error (.untilBeforeBase (untilIndex.getD 0) base)
  else
    let writeVersion :=
      if src.snapshotWriteVersion = 0 then minReadVersion else src.snapshotWriteVersion
    match encode fsmFormat src.info src.fsm writeVersion with
    | none => .error (.writeVersion writeVersion)
    | some snapBytes =>
      match newBaseWAL nodeID base with
      | .error e => .error e
      | .ok bw =>
        match copyWALSuffix src.wal bw base untilIndex id with
        | .error e => .error e
        | .ok (bw, walUntil) =>
          let dir := bw.sync.2.dir
          .ok ⟨⟨base, src.info.lastIncludedTerm, base, snapBytes.length,
            checksumIEEE snapBytes, base + 1, walUntil, describeWALSegments dir⟩,
            Snapshots.applyOp [] (.write base snapBytes), dir⟩

/-! ## Restore -/

def verifySnapshotComponent (a : Archive) : Except BackupError Bytes :=
  match a.snapshots.find? (·.1 = a.manifest.snapshotFile) with
  | none => .error .missingSnapshot
  | some (_, data) =>
    if data.length ≠ a.manifest.snapshotSize ∨ checksumIEEE data ≠ a.manifest.snapshotChecksum then
      .error .corruptSnapshot
    else match decode fsmFormat data with
      | .error e => .error (.invalidSnapshot e)
      | .ok snap =>
        if snap.info.lastIncludedIndex ≠ a.manifest.lastIncludedIndex ∨
            snap.info.lastIncludedTerm ≠ a.manifest.lastIncludedTerm then
          .error .boundaryMismatch
        else .ok data

def verifyWALSegmentComponents (dir : Dir) : List WALSegmentInfo → Except BackupError Unit
  | [] => .ok ()
  | seg :: segs =>
    match dir.find? (·.id = seg.id) with
    | none => .error (.missingSegment seg.id)
    | some s =>
      if s.data.length ≠ seg.size ∨ checksumIEEE s.data ≠ seg.checksum then
        .error (.corruptSegment seg.id)
      else verifyWALSegmentComponents dir segs

def stripSnapshotConfiguration (snapBytes : Bytes) : Except BackupError Bytes :=
  match decode fsmFormat snapBytes with
  | .error e => .error (.invalidSnapshot e)
  | .ok snap =>
    if !snap.info.hasConfiguration then .ok snapBytes
    else
      match encode fsmFormat { snap.info with hasConfiguration := false, configuration := .zero }
          snap.fsm formatVersion with
      | none => .error (.writeVersion formatVersion)
      | some data => .ok data

def buildStaging (a : Archive) (snapBytes : Bytes) (untilIndex : Nat) (nodeID : Bytes) :
    Except BackupError Disk :=
  let base := a.manifest.lastIncludedIndex
  match stripSnapshotConfiguration snapBytes with
  | .error e => .error e
  | .ok staged =>
    match decode fsmFormat staged with
    | .error e => .error (.invalidSnapshot e)
    | .ok installed =>
      let snaps := Snapshots.applyOp [] (.write installed.info.lastIncludedIndex staged)
      match newBaseWAL nodeID base with
      | .error e => .error e
      | .ok sw =>
        match sw.setClusterGeneration installed.fsm.clusterGeneration with
        | .error e => .error (.wal e)
        | .ok (_, sw) =>
          match openWAL a.wal 0 nodeID with
          | .error e => .error (.openWAL e)
          | .ok (srcWAL, _) =>
            match copyWALSuffix srcWAL sw base (some untilIndex)
                voidConfigEntryPayload with
            | .error e => .error e
            | .ok (sw, _) => .ok ⟨sw.sync.2.dir, snaps⟩

structure RestoreOptions where
  untilIndex : Option Nat
  force : Bool

/-- `Restore` of a backup into a directory that is empty or not; with the directory comes the
index up to which the log was restored. -/
def restore (a : Archive) (clean : Bool) (opts : RestoreOptions) (nodeID : Bytes) :
    Except BackupError (Disk × Nat) :=
  match verifySnapshotComponent a with
  | .error e => .error e
  | .ok snapBytes =>
    match verifyWALSegmentComponents a.wal a.manifest.walSegments with
    | .error e => .error e
    | .ok () =>
      let untilIndex := opts.untilIndex.getD a.manifest.walUntilIndex
      if untilIndex < a.manifest.lastIncludedIndex ∨
          untilIndex > a.manifest.walUntilIndex then
        .error (.invalidBoundary untilIndex a.manifest.lastIncludedIndex
          a.manifest.walUntilIndex)
      else if !clean && !opts.force then .error .targetNotClean
      else match buildStaging a snapBytes untilIndex nodeID with
        | .error e => .error e
        | .ok disk => .ok (disk, untilIndex)

/-! ## Opening the restored directory -/

def openDataDir (d : Disk) (maxSize : Nat) (nodeID : Bytes) : Except NodeError (Opened FSM) :=
  match openWAL d.wal maxSize nodeID with
  | .error e => .error (.wal e)
  | .ok (w, _) =>
    let pointer := w.metadata.latestSnapshotIndex
    let snap := load fsmFormat pointer d.snaps
    let baseIndex := snap.elim 0 (·.info.lastIncludedIndex)
    let baseTerm := snap.elim 0 (·.info.lastIncludedTerm)
    if w.firstLogIndex > baseIndex + 1 then .error (.recoveryGap w.firstLogIndex baseIndex)
    else match openWALStorage w with
      | .error e => .error (.storage e)
      | .ok st =>
        .ok ⟨st, pointer, snap, baseIndex, baseTerm, st.hs,
          st.entries.drop (baseIndex - st.baseIndex)⟩

def openedFSM (o : Opened FSM) : FSM := o.snapshot.elim (.new .new) (·.fsm)

def openedCore (o : Opened FSM) (cfg : Raft.Config) : Option Core :=
  Core.newCoreFromSnapshot cfg o.hs o.baseIndex o.baseTerm
    (o.snapshot.elim .zero (·.info.configuration)) (o.snapshot.elim false (·.info.hasConfiguration))
    o.entries

/-! ## Copied logs -/

open Wal

theorem payload_le_of_appendLogEntry {payload : Bytes}
    {r : List Wal.FileOp × WAL × Nat} (h : w.appendLogEntry payload = .ok r) :
    payload.length ≤ maxRecordPayloadSize := by
  by_contra hlong
  rw [not_le] at hlong
  simp [WAL.appendLogEntry, WAL.appendLocked, hlong, bind, Except.bind] at h

def upTo (untilIndex : Option Nat) (recs : List Record) : List Record :=
  recs.takeWhile fun rec => !untilIndex.any (· < rec.index)

def asItem (transform : Bytes → Bytes) (rec : Record) : Item :=
  .entry rec.index (transform rec.payload)

def Contiguous (n : Nat) (recs : List Record) : Prop :=
  ∀ k rec, recs[k]? = some rec → rec.index = n + k

theorem Contiguous.tail {rec : Record}
    (h : Contiguous n (rec :: recs)) : rec.index = n ∧ Contiguous (n + 1) recs := by
  refine ⟨h 0 rec rfl, fun k r hr => ?_⟩
  have := h (k + 1) r (by simpa using hr)
  omega

theorem copyRecords_spec {untilIndex : Option Nat} {transform : Bytes → Bytes}
    {last last' : Nat} (h : Coherent w L)
    (hcontiguous : Contiguous w.nextLogIndex recs) (hlt : ∀ rec ∈ recs, rec.index < 2 ^ 64)
    (hlast : last + 1 = w.nextLogIndex)
    (hcopy : copyRecords untilIndex transform recs w last = .ok (w', last')) :
    ∃ L', Coherent w' L' ∧
      L'.items = L.items ++ (upTo untilIndex recs).map (asItem transform) ∧
      w'.metadata = w.metadata ∧ w'.latestHardState = w.latestHardState ∧
      last' + 1 = w'.nextLogIndex ∧
      w'.nextLogIndex = w.nextLogIndex + (upTo untilIndex recs).length := by
  induction recs generalizing w L last with
  | nil =>
    cases hcopy
    exact ⟨L, h, by simp [upTo], rfl, rfl, hlast, rfl⟩
  | cons rec recs ih =>
    obtain ⟨hindex, hrest⟩ := hcontiguous.tail
    rw [copyRecords] at hcopy
    split at hcopy
    · rename_i hstop
      cases hcopy
      exact ⟨L, h, by simp [upTo, hstop], rfl, rfl, hlast, by simp [upTo, hstop]⟩
    rename_i hgo
    split at hcopy
    · cases hcopy
    rename_i ops dst idx happend
    have hfits : (Item.entry w.nextLogIndex (transform rec.payload)).Fits :=
      Item.fits_entry (hindex ▸ hlt rec mem_cons_self) (payload_le_of_appendLogEntry happend)
    rw [appendLogEntry_eq h.toLaidOut hfits] at happend
    cases happend
    split at hcopy
    · cases hcopy
    obtain ⟨L', hcoherent, hitems, hmeta, hhard, hlast', hnext⟩ := ih (h.appendLogEntry hfits) hrest
      (fun r hr => hlt r (mem_cons_of_mem _ hr)) (congrArg (· + 1) hindex) hcopy
    have hcons : upTo untilIndex (rec :: recs) = rec :: upTo untilIndex recs := by
      simp [upTo, hgo]
    refine ⟨L', hcoherent, ?_, hmeta, hhard, hlast', ?_⟩
    · rw [hitems, h.toLaidOut.items_appended, hcons, map_cons, asItem, hindex]
      simp
    · rw [hnext, hcons, length_cons]
      exact Nat.add_right_comm ..

structure Empty (w : WAL) (L : Layout) (m : Metadata) (next : Nat) : Prop extends
    Coherent w L where
  none : logIndices L.items = []
  pointer : w.metadata = m
  next : w.nextLogIndex = next
  unvoted : w.latestHardState = Option.none

theorem Empty.appendMetadata {m' : Metadata}
    {ops : List Wal.FileOp} (h : Empty w L m next) (hfits : m'.Fits)
    (hsnap : m.latestSnapshotIndex ≤ m'.latestSnapshotIndex)
    (hversion : m'.formatVersion = Wal.formatVersion)
    (hgen : m'.clusterGeneration ≤ maxSupportedGeneration)
    (happend : w.appendMetadata m' = .ok (ops, w')) :
    w'.firstLogIndex = w.firstLogIndex ∧
      ∃ L', Empty { w' with firstLogIndex := m'.latestSnapshotIndex + 1 } L' m' next := by
  rw [appendMetadata_eq h.toLaidOut (Item.fits_metadata hfits)] at happend
  cases happend
  have hcoherent := (h.toCoherent.appendMetadata (Item.fits_metadata hfits)
    (by rw [h.pointer]; exact hsnap) hversion hgen).sync
  refine ⟨rfl, _, hcoherent, ?_, rfl, h.next, h.unvoted⟩
  rw [h.toLaidOut.items_appended, logIndices_append, h.none]
  rfl

theorem Empty.rebase (h : Empty w L m next) :
    Empty { w with nextLogIndex := m.latestSnapshotIndex + 1 } L m
      (m.latestSnapshotIndex + 1) where
  toCoherent :=
    ⟨⟨h.toHolds, h.current⟩, h.metadata, h.hardState, h.first, h.version, h.generation, h.nodeID,
      h.increasing, by rw [h.none]; exact fun i hi => absurd hi not_mem_nil,
      by rw [h.none, h.pointer, Nat.sub_self]; rfl, h.sized⟩
  none := h.none
  pointer := h.pointer
  next := rfl
  unvoted := h.unvoted

theorem newBaseWAL_spec {nodeID : Bytes} {baseIndex : Nat} (hid : nodeID.length < 2 ^ 16)
    (hbase : baseIndex < 2 ^ 64) (h : newBaseWAL nodeID baseIndex = .ok w) :
    baseIndex + 1 < 2 ^ 64 ∧
      ∃ L, Empty w L ⟨nodeID, Wal.formatVersion, baseIndex, 0⟩ (baseIndex + 1) := by
  rw [newBaseWAL] at h
  split at h
  · cases h
  rename_i w₀ report hopen
  obtain ⟨hfresh, hone⟩ := openWAL_fresh_coherent hid hopen
  have hmeta : w₀.metadata = ⟨nodeID, Wal.formatVersion, 0, 0⟩ := by
    have := hfresh.metadata
    exact (Option.some.inj this).symm
  have hstart : Empty w₀ _ ⟨nodeID, Wal.formatVersion, 0, 0⟩ 1 :=
    ⟨hfresh, rfl, hmeta, hone, hfresh.hardState.symm⟩
  split at h
  · cases h
  rename_i ops w₁ hpointer
  rw [WAL.appendMetadataSnapshot, if_neg (by simp [hmeta])] at hpointer
  simp only [bind, Except.bind] at hpointer
  split at hpointer
  · cases hpointer
  rename_i appended happend
  cases hpointer
  rw [hmeta] at happend
  have hfits : Metadata.Fits ⟨nodeID, Wal.formatVersion, baseIndex, 0⟩ := ⟨hid, hbase, by simp⟩
  obtain ⟨-, L, hbased⟩ := hstart.appendMetadata hfits (Nat.zero_le _) rfl (Nat.zero_le _) happend
  split at h
  · cases h
  rename_i ops' w₂ htruncate
  cases h
  have hlt : baseIndex + 1 < 2 ^ 64 := by
    by_contra hover
    have hwrap : (baseIndex + 1) % 2 ^ 64 = 0 := by omega
    rw [WAL.truncate, if_pos (by omega)] at htruncate
    cases htruncate
  have hnext := hbased.next
  rw [Nat.mod_eq_of_lt hlt, WAL.truncate, if_neg (by omega),
    if_pos (by rw [hnext]; omega)] at htruncate
  cases htruncate
  exact ⟨hlt, L, hbased.rebase⟩

theorem setClusterGeneration_spec {generation : Nat}
    {ops : List Wal.FileOp} (h : Empty w L m next) (hfits : m.Fits) (hzero : m.clusterGeneration = 0)
    (hset : w.setClusterGeneration generation = .ok (ops, w')) :
    ∃ L', Empty w' L' { m with clusterGeneration := generation } next := by
  rw [WAL.setClusterGeneration, h.pointer, hzero] at hset
  split at hset
  · rename_i hle
    cases hset
    have hsame : { m with clusterGeneration := generation } = m := by
      rw [Nat.le_zero.mp hle, ← hzero]
    rw [hsame]
    exact ⟨L, h⟩
  split at hset
  · cases hset
  rename_i hsupported
  have hmax : maxSupportedGeneration < 2 ^ 32 := by decide
  have hfits' : Metadata.Fits { m with clusterGeneration := generation } :=
    ⟨hfits.nodeID_lt, hfits.2, by simp only; omega⟩
  have hversion : m.formatVersion = Wal.formatVersion := by rw [← h.pointer, h.version]
  obtain ⟨hfirst, L', hset'⟩ := h.appendMetadata hfits' le_rfl hversion (by simp only; omega) hset
  rw [h.first, h.pointer] at hfirst
  rw [← hfirst] at hset'
  exact ⟨L', hset'⟩

/-! ## Logs that are opened again -/

theorem openWAL_coherent (h : Coherent w L) (maxSize : Nat)
    (nodeID : Bytes) : ∃ w' report, openWAL w.dir maxSize nodeID = .ok (w', report) ∧
      w'.dir = w.dir ∧ w'.metadata = w.metadata ∧ w'.latestHardState = w.latestHardState ∧
      w'.firstLogIndex = w.metadata.latestSnapshotIndex + 1 := by
  have hdefault : openWAL w.dir 0 nodeID = openWAL w.dir defaultSegmentMaxSize nodeID := by
    simp [openWAL, defaultSegmentMaxSize]
  have hsized : ∀ size, size ≠ 0 → ∃ w' report, openWAL w.dir size nodeID = .ok (w', report) ∧
      w'.dir = w.dir ∧ w'.metadata = w.metadata ∧ w'.latestHardState = w.latestHardState ∧
      w'.firstLogIndex = w.metadata.latestSnapshotIndex + 1 := by
    intro size hsize
    obtain ⟨c, k, report, -, -, hopen⟩ := openWAL_holds h.toHolds h.consistent hsize nodeID
    exact ⟨_, report, hopen, rfl, rfl, h.hardState, rfl⟩
  by_cases hzero : maxSize = 0
  · rw [hzero, hdefault]
    exact hsized _ (by decide)
  · exact hsized maxSize hzero

def moved (transform : Bytes → Bytes) (rec : Record) : Record :=
  { rec with payload := transform rec.payload }

theorem served_of_logIndices_nil {its : List Item} (h : logIndices its = []) (fromIndex : Nat) :
    served fromIndex its = [] := by
  rw [served, filter_eq_nil_iff]
  intro rec hrec hlog
  obtain ⟨it, hit, rfl⟩ := mem_map.mp hrec
  have hindex := filterMap_eq_nil_iff.mp h it hit
  cases it with
  | entry => cases hindex
  | hardState => simp [Item.record] at hlog
  | metadata => simp [Item.record] at hlog

theorem served_copied {its : List Item} (hnone : logIndices its = []) {fromIndex : Nat}
    (hrecs : ∀ rec ∈ recs, Servable fromIndex rec) (transform : Bytes → Bytes) :
    served fromIndex (its ++ recs.map (asItem transform)) = recs.map (moved transform) := by
  rw [served_append, served_of_logIndices_nil hnone, nil_append, served, map_map]
  have hmap : recs.map (Item.record ∘ asItem transform) = recs.map (moved transform) := by
    refine map_congr_left fun rec hrec => ?_
    have := (hrecs rec hrec).type
    simp [asItem, Item.record, moved, this]
  rw [hmap, filter_eq_self]
  intro r hr
  obtain ⟨rec, hrec, rfl⟩ := mem_map.mp hr
  have hserv := hrecs rec hrec
  simp [moved, hserv.type, hserv.index_ge]

/-- What a log holds that was copied into a new one, as it is and when it is read again. -/
structure Copied (w : WAL) (m : Metadata) (recs : List Record) : Prop where
  coherent : ∃ L, Coherent w L
  metadata : w.metadata = m
  unvoted : w.latestHardState = none
  replay : Wal.replay (m.latestSnapshotIndex + 1) w.dir = .ok recs

theorem Copied.sync (h : Copied w m recs) :
    Copied w.sync.2 m recs := by
  obtain ⟨L, hL⟩ := h.coherent
  have hreplay := h.replay
  rw [replay_written hL.written hL.fit] at hreplay
  refine ⟨⟨L, hL.sync⟩, h.metadata, h.unvoted, ?_⟩
  rw [← hreplay]
  exact replay_written hL.sync.written hL.sync.fit _

theorem copyWALSuffix_spec {src : WAL} {base last : Nat}
    {untilIndex : Option Nat} {transform : Bytes → Bytes}
    (h : Empty w L m (base + 1)) (hbase : m.latestSnapshotIndex = base)
    (hreplay : src.replay (base + 1) = .ok recs) (hcontiguous : Contiguous (base + 1) recs)
    (hcopy : copyWALSuffix src w base untilIndex transform = .ok (w', last)) :
    Copied w' m ((upTo untilIndex recs).map (moved transform)) ∧
      last = base + (upTo untilIndex recs).length := by
  have hserv := servable_of_replay hreplay
  rw [copyWALSuffix, hreplay] at hcopy
  obtain ⟨L', hcoherent, hitems, hmeta, hhard, hlast, hnext⟩ := copyRecords_spec h.toCoherent
    (h.next.symm ▸ hcontiguous) (fun rec hrec => (hserv rec hrec).index_lt) h.next.symm hcopy
  refine ⟨⟨⟨L', hcoherent⟩, hmeta.trans h.pointer, hhard.trans h.unvoted, ?_⟩, ?_⟩
  · rw [replay_written hcoherent.written hcoherent.fit, hitems, hbase]
    refine congrArg Except.ok (served_copied h.none (fun rec hrec => hserv rec ?_) transform)
    exact ( takeWhile_prefix _).subset hrec
  · rw [hnext, h.next] at hlast
    omega

/-! ## Bounds -/

theorem upTo_eq_take {bound : Nat} (h : Contiguous n recs) :
    upTo (some bound) recs = recs.take (bound + 1 - n) := by
  induction recs generalizing n with
  | nil => simp [upTo]
  | cons rec recs ih =>
    obtain ⟨hindex, hrest⟩ := h.tail
    by_cases hstop : bound < n
    · have hzero : bound + 1 - n = 0 := by omega
      simp [upTo, hindex, hstop, hzero]
    · have hsucc : bound + 1 - n = (bound + 1 - (n + 1)) + 1 := by omega
      have hhead : upTo (some bound) (rec :: recs) = rec :: upTo (some bound) recs := by
        simp [upTo, hindex, hstop]
      rw [hhead, ih hrest, hsucc, take_succ_cons]

theorem exists_upTo_eq_take (untilIndex : Option Nat) (recs : List Record) :
    ∃ k, upTo untilIndex recs = recs.take k :=
  ⟨_, (prefix_iff_eq_take.mp ( takeWhile_prefix _))⟩

theorem Contiguous.take (h : Contiguous n recs) (k : Nat) :
    Contiguous n (recs.take k) := by
  intro i rec hi
  rw [getElem?_take] at hi
  split at hi
  · exact h i rec hi
  · cases hi

end ChronicleDB.Backup.Files
