import ChronicleDB.Wal.Effects

/-!
# Coherence of a WAL with its directory

What a restart would recover from a directory, as a function of the records in
it, and the invariant under which that is what the open WAL believes: the last
metadata and hard state records are the ones in memory, and the log indices
above the snapshot pointer run without a gap up to the next index.
-/

namespace ChronicleDB.Wal

open Foundation List Item

variable {m : Metadata} {a b : List Item} {payload : Bytes}

/-! ## What a restart recovers -/

structure Recovered where
  metadata : Metadata
  hardState : Option Bytes
  entries : List Record
  deriving DecidableEq, Repr

/-- `Open`, then `Replay` from the first index served. -/
def recovered (d : Dir) (maxSize : Nat) (nodeID : Bytes) : Except OpenError Recovered :=
  match openWAL d maxSize nodeID with
  | .error e => .error e
  | .ok (w, _) =>
    match w.replay w.firstLogIndex with
    | .error e => .error (.frame e)
    | .ok entries => .ok ⟨w.metadata, w.latestHardState, entries⟩

/-- Records from which recovery succeeds with metadata `m`. -/
structure Consistent (its : List Item) (m : Metadata) : Prop where
  last : lastMetadata its = some m
  version : m.formatVersion = formatVersion
  generation : m.clusterGeneration ≤ maxSupportedGeneration
  live : ∃ k, (logIndices its).filter (m.latestSnapshotIndex < ·) =
    List.range' (m.latestSnapshotIndex + 1) k

theorem openWAL_holds {d : Dir} {L : Layout} (h : Holds d L)
    (hc : Consistent L.items m) {maxSize : Nat} (hmax : maxSize ≠ 0) (nodeID : Bytes) :
    ∃ c k report, L.ids.getLast? = some c ∧
      (logIndices L.items).filter (m.latestSnapshotIndex < ·) =
        range' (m.latestSnapshotIndex + 1) k ∧
      openWAL d maxSize nodeID =
        .ok (⟨d, maxSize, c, m, m.latestSnapshotIndex + k + 1,
          m.latestSnapshotIndex + 1, lastHardState L.items⟩, report) := by
  obtain ⟨k, hk⟩ := hc.live
  obtain ⟨A, p, rfl⟩ := (eq_nil_or_concat' L).resolve_left h.ne_nil
  have hlast : (Layout.ids (A ++ [p])).getLast? = some p.1 := by simp [Layout.ids]
  exact ⟨p.1, k, _, hlast, hk,
    openWAL_written h.written h.fit hc.last hc.version hc.generation hk hlast hmax nodeID⟩

theorem recovered_holds {d : Dir} {L : Layout} (h : Holds d L)
    (hc : Consistent L.items m) {maxSize : Nat} (hmax : maxSize ≠ 0) (nodeID : Bytes) :
    recovered d maxSize nodeID = .ok ⟨m, lastHardState L.items,
      served (m.latestSnapshotIndex + 1) L.items⟩ := by
  obtain ⟨c, k, report, -, -, hopen⟩ := openWAL_holds h hc hmax nodeID
  simp only [recovered, hopen, WAL.replay]
  rw [replay_written h.written h.fit]

/-- A front part that still ends with the same metadata is consistent too. -/
theorem Consistent.front (h : Consistent (a ++ b) m)
    (ha : lastMetadata a = some m) : Consistent a m where
  last := ha
  version := h.version
  generation := h.generation
  live := by
    obtain ⟨k, hk⟩ := h.live
    rw [logIndices_append, filter_append] at hk
    obtain ⟨j, -, hj, -⟩ := range'_eq_append_iff.mp hk.symm
    exact ⟨j, hj⟩

/-! ## Records that only carry log entries -/

def LogOnly (its : List Item) : Prop := ∀ it ∈ its, it.index?.isSome

theorem LogOnly.lastMetadata_append (h : LogOnly b) :
    lastMetadata (a ++ b) = lastMetadata a := by
  have hb : b.filterMap metadata? = [] := by
    rw [filterMap_eq_nil_iff]
    intro it hit
    have := h it hit
    cases it <;> simp_all [index?, metadata?]
  simp [lastMetadata, hb]

theorem LogOnly.lastHardState_append (h : LogOnly b) :
    lastHardState (a ++ b) = lastHardState a := by
  have hb : b.filterMap hardState? = [] := by
    rw [filterMap_eq_nil_iff]
    intro it hit
    have := h it hit
    cases it <;> simp_all [index?, hardState?]
  simp [lastHardState, hb]

/-! ## The invariant -/

structure Coherent (w : WAL) (L : Layout) : Prop extends LaidOut w L where
  metadata : lastMetadata L.items = some w.metadata
  hardState : lastHardState L.items = w.latestHardState
  first : w.firstLogIndex = w.metadata.latestSnapshotIndex + 1
  version : w.metadata.formatVersion = formatVersion
  generation : w.metadata.clusterGeneration ≤ maxSupportedGeneration
  nodeID : w.metadata.nodeID.length < 2 ^ 16
  increasing : (logIndices L.items).Pairwise (· < ·)
  below : ∀ i ∈ logIndices L.items, i < w.nextLogIndex
  live : (logIndices L.items).filter (w.metadata.latestSnapshotIndex < ·) =
    List.range' (w.metadata.latestSnapshotIndex + 1)
      (w.nextLogIndex - (w.metadata.latestSnapshotIndex + 1))
  sized : w.segmentMaxSize ≠ 0

namespace Coherent

variable {w : WAL} {L : Layout}

theorem consistent (h : Coherent w L) : Consistent L.items w.metadata :=
  ⟨h.metadata, h.version, h.generation, _, h.live⟩

theorem replay_eq (h : Coherent w L) :
    w.replay w.firstLogIndex = .ok (served (w.metadata.latestSnapshotIndex + 1) L.items) := by
  rw [WAL.replay, h.first, replay_written h.written h.fit]

theorem recovered_eq (h : Coherent w L) (nodeID : Bytes) :
    recovered w.dir w.segmentMaxSize nodeID =
      .ok ⟨w.metadata, w.latestHardState,
        served (w.metadata.latestSnapshotIndex + 1) L.items⟩ := by
  rw [recovered_holds h.toHolds h.consistent h.sized, h.hardState]

end Coherent

/-! ## Appends keep coherence -/

def WAL.afterAppend (w : WAL) (it : Item) : WAL :=
  { w.perform (w.appendOps it) with current := w.appendTarget it }

section Appends

variable {w : WAL} {L : Layout}

theorem appendLogEntry_eq (h : LaidOut w L) (hit : (entry w.nextLogIndex payload).Fits) :
    w.appendLogEntry payload = .ok (w.appendOps (.entry w.nextLogIndex payload),
      { w.afterAppend (.entry w.nextLogIndex payload) with
        nextLogIndex := w.nextLogIndex + 1 }, w.nextLogIndex) := by
  have := appendLocked_eq h hit (by simp [index?])
  simp only [record] at this
  simp only [WAL.appendLogEntry, this]
  rfl

theorem appendHardState_eq (h : LaidOut w L) (hit : (hardState payload).Fits) :
    w.appendHardState payload = .ok (w.appendOps (.hardState payload),
      { w.afterAppend (.hardState payload) with latestHardState := some payload }) := by
  have := appendLocked_eq h hit (by simp [index?])
  simp only [record] at this
  simp only [WAL.appendHardState, this]
  rfl

theorem appendMetadata_eq (h : LaidOut w L) (hit : (metadata m).Fits) :
    w.appendMetadata m = .ok
      (w.appendOps (.metadata m) ++ (w.afterAppend (.metadata m)).syncOps,
        { (w.afterAppend (.metadata m)).perform (w.afterAppend (.metadata m)).syncOps with
          metadata := m }) := by
  have := appendLocked_eq h hit (by simp [index?])
  simp only [record] at this
  simp only [WAL.appendMetadata, this]
  rfl

theorem Item.fits_entry {i : Nat} (hi : i < 2 ^ 64)
    (hp : payload.length ≤ maxRecordPayloadSize) : (entry i payload).Fits :=
  ⟨⟨hi, hp⟩, by simp⟩

theorem Item.fits_hardState
    (hp : payload.length ≤ maxRecordPayloadSize) : (hardState payload).Fits :=
  ⟨⟨by simp [record], hp⟩, by simp⟩

theorem Item.fits_metadata (hm : m.Fits) : (metadata m).Fits := by
  refine ⟨⟨by simp [record], ?_⟩, by rintro m ⟨⟩; exact hm⟩
  have hid := hm.nodeID_lt
  have hlen : (encodeMetadata m).length ≤ 15 + m.nodeID.length := by
    simp only [encodeMetadata, length_cons, length_append, length_putUint]
    split <;> simp <;> omega
  simp only [record, maxRecordPayloadSize]
  omega

theorem filter_lt_range' {a b n : Nat} (hab : a ≤ b) :
    (range' (a + 1) (n - (a + 1))).filter (b < ·) =
      range' (b + 1) (n - (b + 1)) := by
  have hsplit : n - (a + 1) = min (b - a) (n - (a + 1)) + (n - (b + 1)) := by omega
  rw [hsplit, ← range'_append_1, filter_append]
  have hfirst : (range' (a + 1) (min (b - a) (n - (a + 1)))).filter (b < ·) = [] := by
    rw [filter_eq_nil_iff]
    intro i hi
    rw [mem_range'_1] at hi
    simp only [decide_eq_true_eq]
    omega
  rw [hfirst, nil_append]
  by_cases hn : n ≤ b + 1
  · simp [show n - (b + 1) = 0 by omega]
  · rw [show a + 1 + min (b - a) (n - (a + 1)) = b + 1 by omega, filter_eq_self]
    intro i hi
    rw [mem_range'_1] at hi
    simp only [decide_eq_true_eq]
    omega

theorem Coherent.appendLogEntry (h : Coherent w L)
    (hit : (entry w.nextLogIndex payload).Fits) :
    Coherent { w.afterAppend (.entry w.nextLogIndex payload) with
        nextLogIndex := w.nextLogIndex + 1 }
      (w.appended L (.entry w.nextLogIndex payload)) := by
  have hitems := h.toLaidOut.items_appended (.entry w.nextLogIndex payload)
  have hidx : logIndices [entry w.nextLogIndex payload] = [w.nextLogIndex] := rfl
  have hlaid := h.toLaidOut.append hit
  refine ⟨⟨hlaid.toHolds, hlaid.current⟩, ?_, ?_, h.first, h.version, h.generation,
    h.nodeID, ?_, ?_, ?_, h.sized⟩
  · rw [hitems, lastMetadata_append, h.metadata]
    rfl
  · rw [hitems, lastHardState_append, h.hardState]
    rfl
  · rw [hitems, logIndices_append, hidx, pairwise_append]
    exact ⟨h.increasing, by simp, by simpa using h.below⟩
  · rw [hitems, logIndices_append, hidx]
    intro i hi
    rcases mem_append.mp hi with hi | hi
    · exact Nat.lt_succ_of_lt (h.below i hi)
    · rw [mem_singleton.mp hi]
      exact Nat.lt_succ_self _
  · rw [hitems, logIndices_append, filter_append, hidx]
    change (logIndices L.items).filter (w.metadata.latestSnapshotIndex < ·) ++
        [w.nextLogIndex].filter (w.metadata.latestSnapshotIndex < ·) =
      range' (w.metadata.latestSnapshotIndex + 1)
        (w.nextLogIndex + 1 - (w.metadata.latestSnapshotIndex + 1))
    rw [h.live]
    by_cases hnext : w.metadata.latestSnapshotIndex < w.nextLogIndex
    · rw [show w.nextLogIndex + 1 - (w.metadata.latestSnapshotIndex + 1) =
        w.nextLogIndex - (w.metadata.latestSnapshotIndex + 1) + 1 by omega,
        range'_concat, filter_cons_of_pos (by simpa using hnext)]
      congr 2
      omega
    · rw [filter_cons_of_neg (by simpa using hnext),
        show w.nextLogIndex + 1 - (w.metadata.latestSnapshotIndex + 1) = 0 by omega,
        show w.nextLogIndex - (w.metadata.latestSnapshotIndex + 1) = 0 by omega]
      rfl

theorem Coherent.appendHardState (h : Coherent w L) (hit : (Item.hardState payload).Fits) :
    Coherent { w.afterAppend (.hardState payload) with latestHardState := some payload }
      (w.appended L (.hardState payload)) := by
  have hitems := h.toLaidOut.items_appended (.hardState payload)
  have hidx : logIndices (L.items ++ [Item.hardState payload]) = logIndices L.items := by
    simp [logIndices, Item.index?]
  have hlaid := h.toLaidOut.append hit
  refine ⟨⟨hlaid.toHolds, hlaid.current⟩, ?_, ?_, h.first, h.version, h.generation,
    h.nodeID, ?_, ?_, ?_, h.sized⟩
  · rw [hitems, lastMetadata_append, h.metadata]
    rfl
  · rw [hitems, lastHardState_append]
    rfl
  all_goals rw [hitems, hidx]
  · exact h.increasing
  · exact h.below
  · exact h.live

theorem Coherent.appendMetadata (h : Coherent w L) (hit : (Item.metadata m).Fits)
    (hsnap : w.metadata.latestSnapshotIndex ≤ m.latestSnapshotIndex)
    (hversion : m.formatVersion = formatVersion)
    (hgen : m.clusterGeneration ≤ maxSupportedGeneration) :
    Coherent { w.afterAppend (.metadata m) with
        metadata := m, firstLogIndex := m.latestSnapshotIndex + 1 }
      (w.appended L (.metadata m)) := by
  have hitems := h.toLaidOut.items_appended (.metadata m)
  have hidx : logIndices (L.items ++ [Item.metadata m]) = logIndices L.items := by
    simp [logIndices, Item.index?]
  have hlaid := h.toLaidOut.append hit
  refine ⟨⟨hlaid.toHolds, hlaid.current⟩, ?_, ?_, rfl, hversion, hgen,
    (hit.metadata m rfl).nodeID_lt, ?_, ?_, ?_, h.sized⟩
  · rw [hitems, lastMetadata_append]
    rfl
  · rw [hitems, lastHardState_append, h.hardState]
    rfl
  all_goals rw [hitems, hidx]
  · exact h.increasing
  · exact h.below
  · change (logIndices L.items).filter (m.latestSnapshotIndex < ·) =
      range' (m.latestSnapshotIndex + 1)
        (w.nextLogIndex - (m.latestSnapshotIndex + 1))
    have hnested : (logIndices L.items).filter (m.latestSnapshotIndex < ·) =
        ((logIndices L.items).filter (w.metadata.latestSnapshotIndex < ·)).filter
          (m.latestSnapshotIndex < ·) := by
      rw [filter_filter]
      refine filter_congr fun i _ => ?_
      by_cases hi : m.latestSnapshotIndex < i
      · simp [hi, lt_of_le_of_lt hsnap hi]
      · simp [hi]
    rw [hnested, h.live, filter_lt_range' hsnap]

theorem Coherent.sync (h : Coherent w L) : Coherent (w.perform w.syncOps) L :=
  ⟨h.toLaidOut.sync, h.metadata, h.hardState, h.first, h.version, h.generation,
    h.nodeID, h.increasing, h.below, h.live, h.sized⟩

end Appends

end ChronicleDB.Wal
