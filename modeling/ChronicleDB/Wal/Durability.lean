import ChronicleDB.Wal.TornTail
import ChronicleDB.Wal.Truncate
import Mathlib.Data.List.Forall2

/-!
# What a successful sync covers

A power failure keeps of each segment file at least the bytes of its last fsync
and some part of the rest.  `Sync` fsyncs the current segment only, and a
rotation closes the old segment without an fsync, so a sync covers the whole
log exactly when no segment was left with unsynced bytes in it.
-/

namespace ChronicleDB.Wal

open Foundation List

/-- `d'` is what a power failure can make of `d`. -/
def PowerFailure (d d' : Dir) : Prop :=
  List.Forall₂ (fun s s' => s'.id = s.id ∧
    ∃ n, s.synced ≤ n ∧ s'.data = s.data.take n) d d'

/-- Whatever a power failure leaves of `d` reopens with every one of `recs`. -/
def Survive (recs : List Record) (d : Dir) (maxSize : Nat) : Prop :=
  ∀ d', PowerFailure d d' → ∀ nodeID, ∃ w report,
    openWAL d' maxSize nodeID = .ok (w, report) ∧ ∀ r ∈ recs, r ∈ dirRecords w.dir

/-- Every segment but the current one was fsynced up to its end. -/
def WAL.ClosedSynced (w : WAL) : Prop :=
  ∀ s ∈ w.dir, s.id ≠ w.current → s.data.length ≤ s.synced

instance (w : WAL) : Decidable w.ClosedSynced :=
  inferInstanceAs (Decidable (∀ s ∈ _, _))

/-! ## Synced files survive -/

theorem PowerFailure.written {d d' : Dir} {L : Layout} (h : PowerFailure d d')
    (hw : Written d L) (hs : ∀ s ∈ d, s.data.length ≤ s.synced) : Written d' L := by
  rw [Written, ← hw]
  clear hw
  induction h with
  | nil => rfl
  | cons hhead _ ih =>
    obtain ⟨hid, n, hn, hdata⟩ := hhead
    have hlen := hs _ mem_cons_self
    rw [map_cons, map_cons, ih fun s hmem => hs s (mem_cons_of_mem _ hmem),
      hid, hdata, take_of_length_le (by omega)]

theorem sync_all_synced {w : WAL} (h : w.ClosedSynced) :
    ∀ s ∈ (w.perform w.syncOps).dir, s.data.length ≤ s.synced := by
  intro s hs
  obtain ⟨s₀, hs₀, rfl⟩ : ∃ s₀ ∈ w.dir, (if s₀.id = w.current then
      { s₀ with synced := s₀.data.length } else s₀) = s := by
    simpa [WAL.perform, WAL.syncOps, applyOp, onFile] using hs
  split
  · exact le_rfl
  · exact h s₀ hs₀ ‹_›

/-! ## An unsynced closed segment does not -/

private theorem frames_cut {its : List Item} (hne : frames its ≠ []) :
    ∃ pre it, its = pre ++ [it] ∧ (frames its).take ((frames its).length - 1) =
      frames pre ++ it.frame.take (it.frame.length - 1) := by
  obtain ⟨pre, it, rfl⟩ := (eq_nil_or_concat' its).resolve_left
    (by rintro rfl; exact hne rfl)
  have hpos := it.length_frame_pos
  refine ⟨pre, it, rfl, ?_⟩
  simp only [frames_append, frames_cons, frames_nil, append_nil, length_append]
  rw [show (frames pre).length + it.frame.length - 1 =
    (frames pre).length + (it.frame.length - 1) by omega, take_length_add_append]

private theorem scanSegments_tornNonFinal {a b : Dir} {A : Layout} {seg : SegmentFile}
    {pre : List Item} {tail : Bytes} (ha : Written a A) (hA : AllFit A)
    (hpre : ∀ x ∈ pre, x.Fits) (htail : Torn tail) (hne : tail ≠ [])
    (hseg : seg.data = frames pre ++ tail) (hb : b ≠ []) (s : Scan) :
    scanSegments (a ++ seg :: b) s = .error (.tornNonFinal seg.id) := by
  induction A generalizing a s with
  | nil =>
    obtain rfl := ha.eq_nil
    have hscan := scanFrames_torn htail hpre s
    rw [← hseg, tornAt, if_neg hne] at hscan
    obtain ⟨x, b', rfl⟩ := exists_cons_of_ne_nil hb
    rw [nil_append, scanSegments, hscan]
    simp
  | cons p A ih =>
    obtain ⟨f, a', rfl, -, hdata, hrest⟩ := ha.cases_cons
    have hp : ∀ x ∈ p.2, x.Fits := fun x hx => hA x (by simp [hx])
    have hscan := scanFrames_frames hp s
    rw [← hdata] at hscan
    rw [cons_append, scanSegments, hscan]
    · exact ih hrest (fun x hx => hA x (by simp [hx])) _
    · simp

theorem PowerFailure.refl (d : Dir) : PowerFailure d d := by
  refine forall₂_same.mpr fun s _ => ⟨rfl, max s.synced s.data.length, ?_, ?_⟩
  · exact Nat.le_max_left ..
  · rw [take_of_length_le (Nat.le_max_right ..)]

/-- Losing one byte of a closed segment makes the log unreadable. -/
private theorem unreadable_of_unsynced {a b : Dir} {seg : SegmentFile} {L : Layout}
    (hw : Written (a ++ seg :: b) L) (hfit : AllFit L) (hb : b ≠ [])
    (hlost : seg.synced < seg.data.length) (maxSize : Nat) (nodeID : Bytes) :
    ∃ d', PowerFailure (a ++ seg :: b) d' ∧ ∃ e, openWAL d' maxSize nodeID = .error e := by
  obtain ⟨A, M, rfl, hA, hM⟩ : ∃ A M, L = A ++ M ∧ Written a A ∧ Written (seg :: b) M := by
    have := hw
    simp only [Written, map_append] at this
    obtain ⟨A, M, hL, ha, hb⟩ := map_eq_append_iff.mp this.symm
    exact ⟨A, M, hL, ha.symm, hb.symm⟩
  obtain ⟨⟨t, its⟩, B, rfl⟩ : ∃ p B, M = p :: B := by
    cases M with
    | nil => simp [Written] at hM
    | cons p B => exact ⟨p, B, rfl⟩
  obtain ⟨-, hdata, -⟩ := written_cons.mp hM
  obtain ⟨pre, it, rfl, hcut⟩ := @frames_cut its (by
    rintro hnil
    rw [hdata, hnil] at hlost
    simp at hlost)
  -- the image that lacks the last byte of `seg`
  set torn : SegmentFile := { seg with data := seg.data.take (seg.data.length - 1) } with htorn
  have hfail : PowerFailure (a ++ seg :: b) (a ++ torn :: b) :=
    rel_append (PowerFailure.refl a)
      (.cons ⟨rfl, seg.data.length - 1, by omega, rfl⟩ (PowerFailure.refl b))
  have hpre : ∀ x ∈ pre, x.Fits := fun x hx => hfit x (by simp [hx])
  have hdataTorn : torn.data = frames pre ++ it.frame.take (it.frame.length - 1) := by
    rw [htorn, ← hcut]
    simp only [hdata]
  have hlong := it.length_frame
  rw [headerSize] at hlong
  have htail : Torn (it.frame.take (it.frame.length - 1)) :=
    .inr ⟨it, hfit it (by simp), _, by omega, by omega, rfl⟩
  have hne : it.frame.take (it.frame.length - 1) ≠ [] :=
    ne_nil_of_length_pos (by rw [length_take]; omega)
  have hscan := scanSegments_tornNonFinal hA (fun x hx => hfit x (by simp [hx])) hpre
    htail hne hdataTorn hb ⟨none, none, []⟩
  have hlast := getLast?_eq_some_getLast
    (show a ++ torn :: b ≠ [] by simp)
  exact ⟨_, hfail, .tornNonFinal torn.id, by simp only [openWAL, hlast, openExisting, hscan]⟩

theorem Coherent.closedSynced_of_survive {w : WAL} {L : Layout} (h : Coherent w L)
    {recs : List Record}
    (hsurvive : Survive recs (w.perform w.syncOps).dir w.segmentMaxSize) :
    w.ClosedSynced := by
  by_contra hopen
  simp only [WAL.ClosedSynced, not_forall, not_le] at hopen
  obtain ⟨seg, hmem, hid, hlost⟩ := hopen
  have hmem' : seg ∈ (w.perform w.syncOps).dir := by
    refine mem_map.mpr ⟨seg, hmem, ?_⟩
    rw [if_neg hid]
  obtain ⟨a, b, hab⟩ := append_of_mem hmem'
  have hlaid := h.toLaidOut.sync
  have hw := hlaid.written
  have hcurrent := hlaid.current
  rw [← hw.ids_eq] at hcurrent
  rw [hab] at hw hsurvive hcurrent
  have hb : b ≠ [] := by
    rintro rfl
    exact hid (by simpa [WAL.perform] using hcurrent)
  obtain ⟨d', hfail, e, herror⟩ :=
    unreadable_of_unsynced hw h.fit hb hlost w.segmentMaxSize []
  obtain ⟨w', report, hok, -⟩ := hsurvive d' hfail []
  rw [herror] at hok
  cases hok

/-- A sync covers the records of the log exactly when the closed segments are
synced. -/
theorem Coherent.survive_iff {w : WAL} {L : Layout} (h : Coherent w L)
    {recs : List Record} (hrecs : ∀ r ∈ recs, r ∈ dirRecords w.dir) :
    Survive recs (w.perform w.syncOps).dir w.segmentMaxSize ↔ w.ClosedSynced := by
  refine ⟨h.closedSynced_of_survive, fun hsynced d' hfail nodeID => ?_⟩
  have hlaid := h.toLaidOut.sync
  have hw := hfail.written hlaid.written (sync_all_synced hsynced)
  have hholds : Holds d' L := ⟨hw, h.fit, h.ascending, h.ne_nil⟩
  obtain ⟨c, k, report, -, -, hreopen⟩ :=
    openWAL_holds hholds h.consistent h.sized nodeID
  refine ⟨_, report, hreopen, fun r hr => ?_⟩
  rw [dirRecords_written hw h.fit, ← dirRecords_written h.written h.fit]
  exact hrecs r hr

/-! ## The records of a run -/

def Call.isTruncate : Call → Bool
  | .truncate _ => true
  | _ => false

def Call.appends (w : WAL) : Call → List Record
  | .appendLogEntry payload =>
    if payload.length ≤ maxRecordPayloadSize then [⟨.logEntry, w.nextLogIndex, payload⟩]
    else []
  | .appendHardState payload =>
    if payload.length ≤ maxRecordPayloadSize then [⟨.hardState, 0, payload⟩] else []
  | .appendMetadataSnapshot u =>
    if u < w.metadata.latestSnapshotIndex then []
    else [⟨.metadata, 0, encodeMetadata { w.metadata with latestSnapshotIndex := u }⟩]
  | .setClusterGeneration g =>
    if g ≤ w.metadata.clusterGeneration ∨ g > maxSupportedGeneration then []
    else [⟨.metadata, 0, encodeMetadata { w.metadata with clusterGeneration := g }⟩]
  | .sync => []
  | .truncate _ => []

def WAL.appendedBy : WAL → List Call → List Record
  | _, [] => []
  | w, c :: calls => c.appends w ++ (w.after c).appendedBy calls

section Records

variable {w : WAL} {L : Layout}

theorem LaidOut.dirRecords_append (h : LaidOut w L) {it : Item} (hit : it.Fits) :
    dirRecords (w.afterAppend it).dir = dirRecords w.dir ++ [it.record] := by
  have h' := h.append hit
  rw [dirRecords_written h.written h.fit, WAL.afterAppend,
    dirRecords_written h'.written h'.fit, h.items_appended]
  simp

theorem LaidOut.dirRecords_sync (h : LaidOut w L) :
    dirRecords (w.perform w.syncOps).dir = dirRecords w.dir := by
  rw [dirRecords_written h.sync.written h.fit, dirRecords_written h.written h.fit]

theorem Coherent.dirRecords_after (h : Coherent w L) {c : Call} (hc : c.Keeps w)
    (happend : c.isTruncate = false) :
    dirRecords (w.after c).dir = dirRecords w.dir ++ c.appends w := by
  cases c with
  | appendLogEntry payload =>
    by_cases hp : payload.length ≤ maxRecordPayloadSize
    · have hit := Item.fits_entry hc hp
      simp only [WAL.after, WAL.call, appendLogEntry_eq h.toLaidOut hit, Call.appends, if_pos hp]
      exact h.toLaidOut.dirRecords_append hit
    · simp [WAL.after, WAL.call, WAL.appendLogEntry, Call.appends, if_neg hp,
        appendLocked_tooLarge w .logEntry (Nat.not_le.mp hp), Bind.bind, Except.bind,
        Except.map]
  | appendHardState payload =>
    by_cases hp : payload.length ≤ maxRecordPayloadSize
    · have hit := Item.fits_hardState hp
      simp only [WAL.after, WAL.call, appendHardState_eq h.toLaidOut hit, Call.appends, if_pos hp]
      exact h.toLaidOut.dirRecords_append hit
    · simp [WAL.after, WAL.call, WAL.appendHardState, Call.appends, if_neg hp,
        appendLocked_tooLarge w .hardState (Nat.not_le.mp hp), Bind.bind, Except.bind,
        Except.map]
  | appendMetadataSnapshot u =>
    by_cases hle : u < w.metadata.latestSnapshotIndex
    · simp [WAL.after, WAL.call, WAL.appendMetadataSnapshot, if_pos hle, Call.appends, Except.map]
    · have hit := h.fits_snapshot hc
      simp only [WAL.after, WAL.call, WAL.appendMetadataSnapshot, if_neg hle,
        appendMetadata_eq h.toLaidOut hit, Call.appends]
      exact (h.toLaidOut.append hit).dirRecords_sync.trans
        (h.toLaidOut.dirRecords_append hit)
  | setClusterGeneration g =>
    by_cases hle : g ≤ w.metadata.clusterGeneration
    · simp [WAL.after, WAL.call, WAL.setClusterGeneration, Call.appends, Except.map, hle]
    · by_cases hmax : g > maxSupportedGeneration
      · simp [WAL.after, WAL.call, WAL.setClusterGeneration, if_neg hle, hmax,
          Call.appends, Except.map]
      · have hit : (Item.metadata { w.metadata with clusterGeneration := g }).Fits :=
          Item.fits_metadata ⟨h.nodeID, h.metadata_fits.snapshot_lt,
            lt_of_le_of_lt (Nat.not_lt.mp hmax) (by decide)⟩
        simp only [WAL.after, WAL.call, WAL.setClusterGeneration,
          appendMetadata_eq h.toLaidOut hit, Call.appends, hle, hmax, or_self, if_false]
        exact (h.toLaidOut.append hit).dirRecords_sync.trans
          (h.toLaidOut.dirRecords_append hit)
  | sync =>
    simp only [WAL.after, WAL.call, WAL.sync, Call.appends, append_nil]
    exact h.toLaidOut.dirRecords_sync
  | truncate f => simp [Call.isTruncate] at happend

theorem Coherent.dirRecords_run (h : Coherent w L) {calls : List Call}
    (hc : w.KeepsAll calls) (happend : ∀ c ∈ calls, c.isTruncate = false) :
    dirRecords (w.run calls).dir = dirRecords w.dir ++ w.appendedBy calls := by
  induction calls generalizing w L with
  | nil => simp [WAL.run, WAL.appendedBy]
  | cons c calls ih =>
    obtain ⟨L', h'⟩ := h.after hc.1
    have hrest := ih h' hc.2 fun x hx => happend x (mem_cons_of_mem _ hx)
    have hone := h.dirRecords_after hc.1 (happend c mem_cons_self)
    rw [WAL.appendedBy, ← append_assoc, ← hone]
    exact hrest

end Records

end ChronicleDB.Wal
