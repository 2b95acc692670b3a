import ChronicleDB.Node.Storage
import ChronicleDB.Wal.Durability

/-!
# Batches of log entries and power failures

`WALStorage.Append` writes a batch entry by entry and syncs once at the end.  A
rotation inside the batch closes a segment that this sync does not reach.
-/

namespace ChronicleDB.Node

open Foundation Raft Wal WALStorage

def entryRecord (e : Entry) : Record :=
  ⟨.logEntry, e.index, encodeEntryPayload e.term e.type e.data⟩

section Batch

variable {w : WAL} {L : Layout}

theorem appendEntries_coherent (h : Coherent w L) {es : List Entry}
    (hrange : w.nextLogIndex + es.length ≤ 2 ^ 64) {ops : List FileOp} {w' : WAL}
    (heq : appendEntries w es = .ok (ops, w')) :
    (∃ L', Coherent w' L') ∧ w'.segmentMaxSize = w.segmentMaxSize ∧
      dirRecords w'.dir = dirRecords w.dir ++ es.map entryRecord := by
  induction es generalizing w L ops with
  | nil =>
    obtain ⟨rfl, rfl⟩ : [] = ops ∧ w = w' := by
      simpa [appendEntries] using heq
    exact ⟨⟨L, h⟩, rfl, by simp⟩
  | cons e es ih =>
    simp only [List.length_cons] at hrange
    set payload := encodeEntryPayload e.term e.type e.data with hpayload
    have hle : payload.length ≤ maxRecordPayloadSize := by
      by_contra hlong
      simp [appendEntries, WAL.appendLogEntry, ← hpayload,
        appendLocked_tooLarge w .logEntry (Nat.not_le.mp hlong), Bind.bind,
        Except.bind] at heq
    have hit : (Item.entry w.nextLogIndex payload).Fits := Item.fits_entry (by omega) hle
    simp only [appendEntries, ← hpayload, appendLogEntry_eq h.toLaidOut hit] at heq
    split at heq
    · cases heq
    · rename_i hindex
      split at heq
      · cases heq
      · rename_i more w'' hrest
        obtain ⟨rfl, rfl⟩ := Prod.mk.inj (Except.ok.inj heq)
        obtain ⟨hcoherent, hsize, hrecords⟩ := ih (h.appendLogEntry hit)
          (by
            change w.nextLogIndex + 1 + es.length ≤ 2 ^ 64
            omega) hrest
        refine ⟨hcoherent, hsize, ?_⟩
        have hone : dirRecords (w.afterAppend (.entry w.nextLogIndex payload)).dir =
            dirRecords w.dir ++ [entryRecord e] := by
          rw [h.toLaidOut.dirRecords_append hit, entryRecord, not_not.mp hindex]
          rfl
        rw [hrecords]
        change dirRecords (w.afterAppend (.entry w.nextLogIndex payload)).dir ++ _ = _
        rw [hone]
        simp

/-- A successful batch survives a power failure exactly when the segments closed
before its sync are synced. -/
theorem append_survive_iff {s s' : WALStorage} (h : Coherent s.w L) {es : List Entry}
    (hne : es ≠ []) (hrange : s.w.nextLogIndex + es.length ≤ 2 ^ 64) {ops : List FileOp}
    (heq : s.append es = .ok (ops, s')) :
    ∃ writes w', appendEntries s.w es = .ok (writes, w') ∧
      (Survive (es.map entryRecord) s'.w.dir s'.w.segmentMaxSize ↔ w'.ClosedSynced) := by
  rw [append, if_neg hne] at heq
  split at heq
  · cases heq
  · split at heq
    · cases heq
    · rename_i writes w' hwrites
      obtain ⟨-, rfl⟩ := Prod.mk.inj (Except.ok.inj heq)
      obtain ⟨⟨L', hcoherent⟩, -, hrecords⟩ := appendEntries_coherent h hrange hwrites
      refine ⟨writes, w', hwrites, hcoherent.survive_iff fun r hr => ?_⟩
      rw [hrecords]
      exact List.mem_append_right _ hr

end Batch

/-- After any run of appends a sync covers every record of the run exactly when
each segment that was left was synced up to its end, and so for the batches of
`WALStorage.Append`. -/
theorem sync_survives_iff {maxSize : Nat} {nodeID : Bytes} {w₀ : WAL}
    {report : RecoveryReport} (hid : nodeID.length < 2 ^ 16)
    (hopen : openWAL [] maxSize nodeID = .ok (w₀, report)) {calls : List Call}
    (hkeeps : w₀.KeepsAll calls) (happend : ∀ c ∈ calls, c.isTruncate = false) :
    (Survive (w₀.appendedBy calls) ((w₀.run calls).perform (w₀.run calls).syncOps).dir
        (w₀.run calls).segmentMaxSize ↔ (w₀.run calls).ClosedSynced) ∧
    ∀ (s s' : WALStorage) (es : List Entry) (ops : List FileOp), s.w = w₀.run calls →
      es ≠ [] → s.w.nextLogIndex + es.length ≤ 2 ^ 64 → s.append es = .ok (ops, s') →
      ∃ writes w', WALStorage.appendEntries s.w es = .ok (writes, w') ∧
        (Survive (es.map entryRecord) s'.w.dir s'.w.segmentMaxSize ↔ w'.ClosedSynced) := by
  have hfresh := (openWAL_fresh_coherent hid hopen).1
  obtain ⟨L, h⟩ := hfresh.run hkeeps
  refine ⟨h.survive_iff fun r hr => ?_, fun s s' es ops hs hne hrange heq => ?_⟩
  · rw [hfresh.dirRecords_run hkeeps happend]
    exact List.mem_append_right _ hr
  · exact append_survive_iff (hs ▸ h) hne hrange heq

theorem sync_two_records_survive :
    ∃ w₀ report, openWAL [] 0 [97] = .ok (w₀, report) ∧
      Survive (w₀.appendedBy [.appendLogEntry [1], .appendHardState voteForB])
        ((w₀.run [.appendLogEntry [1], .appendHardState voteForB]).perform
          (w₀.run [.appendLogEntry [1], .appendHardState voteForB]).syncOps).dir
        (w₀.run [.appendLogEntry [1], .appendHardState voteForB]).segmentMaxSize := by
  have hid : ([97] : Bytes).length < 2 ^ 16 := by decide
  refine ⟨_, _, rfl, (sync_survives_iff hid rfl ?_ ?_).1.mpr ?_⟩
  all_goals decide +kernel

/-- With segments of 50 bytes the second of two entries opens a new segment: the
sync does not reach the first one. -/
theorem sync_misses_closed_segment :
    ∃ w₀ report, openWAL [] 50 [97] = .ok (w₀, report) ∧
      ¬Survive (w₀.appendedBy [.appendLogEntry [1], .appendLogEntry [2]])
        ((w₀.run [.appendLogEntry [1], .appendLogEntry [2]]).perform
          (w₀.run [.appendLogEntry [1], .appendLogEntry [2]]).syncOps).dir
        (w₀.run [.appendLogEntry [1], .appendLogEntry [2]]).segmentMaxSize := by
  have hid : ([97] : Bytes).length < 2 ^ 16 := by decide
  refine ⟨_, _, rfl, fun hsurvive => ?_⟩
  obtain ⟨L, h⟩ := @Coherent.run _ _ (@openWAL_fresh_coherent 50 [97] _ _ hid rfl).1
    [.appendLogEntry [1], .appendLogEntry [2]] (by decide +kernel)
  exact absurd (h.closedSynced_of_survive hsurvive) (by decide +kernel)

end ChronicleDB.Node
