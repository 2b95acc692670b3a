import ChronicleDB.Wal.Coherence

/-!
# Truncation of the write-ahead log

`Truncate` cuts the directory at the frame of an index, so it also drops every
hard state and metadata record that happens to lie behind that frame.  The
truncations that keep them are those behind whose target only log records lie.
-/

namespace ChronicleDB.Wal

open Foundation List Layout

/-! ## The records of a directory in order -/

def frameRecords (seg : Bytes) : Nat → Nat → List Record
  | 0, _ => []
  | fuel + 1, offset =>
    match readFrame seg offset with
    | .ok (some (rec, frameLen)) => rec :: frameRecords seg fuel (offset + frameLen)
    | _ => []

def dirRecords (d : Dir) : List Record :=
  d.flatMap fun s => frameRecords s.data (s.data.length + 1) 0

/-- From the record of `fromIndex` on the directory holds log records only. -/
def WAL.onlyLogFrom (w : WAL) (fromIndex : Nat) : Prop :=
  ∀ r ∈ (dirRecords w.dir).dropWhile
    (fun r => decide (¬(r.type = .logEntry ∧ r.index = fromIndex))), r.type = .logEntry

instance (w : WAL) (fromIndex : Nat) : Decidable (w.onlyLogFrom fromIndex) :=
  inferInstanceAs (Decidable (∀ r ∈ _, _))

private theorem frameRecords_items (pre its : List Item) (hits : ∀ it ∈ its, it.Fits)
    {fuel : Nat} (hfuel : its.length < fuel) :
    frameRecords (frames (pre ++ its)) fuel (frames pre).length = its.map Item.record := by
  induction its generalizing pre fuel with
  | nil =>
    obtain ⟨fuel, rfl⟩ := Nat.exists_eq_succ_of_ne_zero (by omega : fuel ≠ 0)
    simp [frameRecords]
  | cons it its ih =>
    obtain ⟨fuel, rfl⟩ := Nat.exists_eq_succ_of_ne_zero (by omega : fuel ≠ 0)
    have hstep : frameRecords (frames (pre ++ [it] ++ its)) fuel
        (frames (pre ++ [it])).length = its.map Item.record :=
      ih (pre ++ [it]) (fun x hx => hits x (mem_cons_of_mem _ hx))
        (by simp at hfuel; omega)
    rw [frameRecords, readFrame_item (hits it mem_cons_self)]
    simpa using hstep

theorem dirRecords_written {d : Dir} {L : Layout} (h : Written d L) (hfit : AllFit L) :
    dirRecords d = L.items.map Item.record := by
  induction L generalizing d with
  | nil =>
    rw [h.eq_nil]
    rfl
  | cons p L ih =>
    obtain ⟨s, d', rfl, -, hdata, hrest⟩ := h.cases_cons
    have hlen := length_le_length_frames p.2
    have hp := @frameRecords_items [] p.2 (fun it hit => hfit it (by simp [hit]))
      ((frames p.2).length + 1) (by omega)
    have hL := ih hrest fun it hit => hfit it (by simp [hit])
    simp only [nil_append, frames_nil, length_nil] at hp
    simp only [dirRecords, flatMap_cons, hdata, hp, items_cons,
      map_append, append_cancel_left_eq]
    exact hL

/-! ## The layout around a log record -/

theorem mem_logIndices {f : Nat} {its : List Item} :
    f ∈ logIndices its ↔ ∃ p, Item.entry f p ∈ its := by
  rw [logIndices, mem_filterMap]
  constructor
  · rintro ⟨it, hit, hidx⟩
    cases it with
    | entry i p =>
      obtain rfl : i = f := by simpa [Item.index?] using hidx
      exact ⟨p, hit⟩
    | hardState p => simp [Item.index?] at hidx
    | metadata m => simp [Item.index?] at hidx
  · rintro ⟨p, hp⟩
    exact ⟨_, hp, rfl⟩

theorem logIndices_cons_entry (f : Nat) (p : Bytes) (its : List Item) :
    logIndices (.entry f p :: its) = f :: logIndices its := rfl

theorem exists_target {L : Layout} {f : Nat} (hmem : f ∈ logIndices L.items)
    (hinc : (logIndices L.items).Pairwise (· < ·)) :
    ∃ (A : Layout) (t : Nat) (pre : List Item) (p : Bytes) (post : List Item) (B : Layout),
      L = A ++ (t, pre ++ .entry f p :: post) :: B ∧
      (∀ i ∈ logIndices (A.items ++ pre), i < f) ∧
      ∀ i ∈ logIndices (post ++ B.items), f < i := by
  obtain ⟨p, hp⟩ := mem_logIndices.mp hmem
  obtain ⟨⟨t, its⟩, hseg, hits⟩ := mem_flatMap.mp hp
  obtain ⟨A, B, rfl⟩ := append_of_mem hseg
  obtain ⟨pre, post, rfl⟩ := append_of_mem hits
  refine ⟨A, t, pre, p, post, B, rfl, ?_⟩
  have hitems : items (A ++ (t, pre ++ .entry f p :: post) :: B) =
      (items A ++ pre) ++ .entry f p :: (post ++ items B) := by simp
  rw [hitems, logIndices_append, logIndices_cons_entry, pairwise_append, pairwise_cons] at hinc
  exact ⟨fun i hi => hinc.2.2 i hi f mem_cons_self, hinc.2.1.1⟩

section Target

variable {w : WAL} {A B : Layout} {t f : Nat} {p : Bytes} {pre post : List Item}

theorem Layout.items_target :
    items (A ++ (t, pre ++ .entry f p :: post) :: B) =
      (A.items ++ pre) ++ .entry f p :: (post ++ B.items) := by
  simp

theorem LaidOut.onlyLogFrom_iff (h : LaidOut w (A ++ (t, pre ++ .entry f p :: post) :: B))
    (hpre : f ∉ logIndices (A.items ++ pre)) :
    w.onlyLogFrom f ↔ LogOnly (post ++ B.items) := by
  have hskip : ∀ r ∈ (A.items ++ pre).map Item.record,
      decide (¬(r.type = .logEntry ∧ r.index = f)) = true := by
    intro r hr
    obtain ⟨it, hit, rfl⟩ := mem_map.mp hr
    rw [decide_eq_true_eq, Item.isLogEntry_iff]
    exact fun hidx => hpre (mem_filterMap.mpr ⟨it, hit, hidx⟩)
  have hrecords : (dirRecords w.dir).dropWhile
      (fun r => decide (¬(r.type = .logEntry ∧ r.index = f))) =
        (Item.entry f p).record :: (post ++ B.items).map Item.record := by
    rw [dirRecords_written h.written h.fit, items_target, map_append,
      dropWhile_append_of_pos hskip, map_cons]
    simp [Item.record]
  rw [WAL.onlyLogFrom, hrecords]
  constructor
  · intro hall it hit
    have := hall it.record (mem_cons_of_mem _ (mem_map_of_mem hit))
    cases it <;> simp_all [Item.record, Item.index?]
  · intro hlog r hr
    rcases mem_cons.mp hr with rfl | hr
    · rfl
    · obtain ⟨it, hit, rfl⟩ := mem_map.mp hr
      have := hlog it hit
      cases it <;> simp_all [Item.record, Item.index?]

/-- A cut behind which only log records lie keeps the WAL coherent. -/
theorem Coherent.truncate (h : Coherent w (A ++ (t, pre ++ .entry f p :: post) :: B))
    (hpre : ∀ i ∈ logIndices (A.items ++ pre), i < f)
    (hlog : LogOnly (post ++ B.items)) :
    Coherent { w.perform (truncateOps B t pre) with current := t, nextLogIndex := f }
      (A ++ [(t, pre)]) := by
  have hfront : LogOnly (.entry f p :: (post ++ B.items)) := by
    intro it hit
    rcases mem_cons.mp hit with rfl | hit
    · rfl
    · exact hlog it hit
  have hitems : items (A ++ [(t, pre)]) = A.items ++ pre := by simp
  have hmeta := h.metadata
  have hhard := h.hardState
  have hinc := h.increasing
  have hlive := h.live
  rw [items_target] at hmeta hhard hinc hlive
  rw [hfront.lastMetadata_append] at hmeta
  rw [hfront.lastHardState_append] at hhard
  rw [logIndices_append, pairwise_append] at hinc
  refine ⟨h.toLaidOut.truncate, ?_, ?_, h.first, h.version, h.generation, h.nodeID,
    ?_, ?_, ?_, h.sized⟩
  all_goals rw [hitems]
  · exact hmeta
  · exact hhard
  · exact hinc.1
  · exact hpre
  · change (logIndices (A.items ++ pre)).filter (w.metadata.latestSnapshotIndex < ·) =
      range' (w.metadata.latestSnapshotIndex + 1)
        (f - (w.metadata.latestSnapshotIndex + 1))
    by_cases hf : w.metadata.latestSnapshotIndex < f
    · rw [logIndices_append, filter_append, logIndices_cons_entry,
        filter_cons_of_pos (by simpa using hf)] at hlive
      obtain ⟨k, -, hX, hY⟩ := range'_eq_append_iff.mp hlive.symm
      obtain ⟨hk, -⟩ := range'_eq_cons_iff.mp hY.symm
      rw [hX]
      congr 1
      omega
    · rw [show f - (w.metadata.latestSnapshotIndex + 1) = 0 by omega, range'_zero,
        filter_eq_nil_iff]
      intro i hi
      have := hpre i hi
      simp only [decide_eq_true_eq]
      omega

end Target

/-! ## What truncation is meant to keep -/

/-- Truncation at `fromIndex` and a restart give the entries below `fromIndex`
with the same metadata and hard state. A restart from any crash image gives a
prefix of the old log, no shorter, with that metadata and hard state. -/
def WAL.TruncatePreserves (w : WAL) (fromIndex : Nat) : Prop :=
  ∃ old ops w', w.replay w.firstLogIndex = .ok old ∧
    w.truncate fromIndex = .ok (ops, w') ∧
    (∀ nodeID, recovered w'.dir w.segmentMaxSize nodeID =
      .ok ⟨w.metadata, w.latestHardState, old.filter (·.index < fromIndex)⟩) ∧
    ∀ d ∈ crashImages applyOp w.dir ops, ∃ kept,
      (∀ nodeID, recovered d w.segmentMaxSize nodeID =
        .ok ⟨w.metadata, w.latestHardState, kept⟩) ∧
      kept <+: old ∧ old.filter (·.index < fromIndex) <+: kept

section Served

variable {w : WAL} {L : Layout} {f : Nat}

variable {b : Nat} {its : List Item}

theorem mem_served {r : Record} (hr : r ∈ served b its) : r.index ∈ logIndices its := by
  obtain ⟨hmem, htype, -⟩ := by simpa [served] using hr
  obtain ⟨it, hit, rfl⟩ := hmem
  cases it with
  | entry i p => exact mem_logIndices.mpr ⟨p, hit⟩
  | hardState p => simp [Item.record] at htype
  | metadata m => simp [Item.record] at htype

theorem served_below (h : ∀ i ∈ logIndices its, i < f) :
    (served b its).filter (·.index < f) = served b its :=
  filter_eq_self.mpr fun r hr => by simpa using h _ (mem_served hr)

theorem served_above (h : ∀ i ∈ logIndices its, f ≤ i) :
    (served b its).filter (·.index < f) = [] := by
  rw [filter_eq_nil_iff]
  intro r hr
  simpa using h _ (mem_served hr)

theorem Coherent.recovered_front (h : Coherent w L) {d : Dir} {M : Layout} {rest : List Item}
    (hd : Holds d M) (hsplit : L.items = M.items ++ rest) (hlog : LogOnly rest)
    (nodeID : Bytes) :
    recovered d w.segmentMaxSize nodeID = .ok ⟨w.metadata, w.latestHardState,
      served (w.metadata.latestSnapshotIndex + 1) M.items⟩ := by
  have hmeta := h.metadata
  have hhard := h.hardState
  have hcons := h.consistent
  rw [hsplit] at hmeta hhard hcons
  rw [hlog.lastMetadata_append] at hmeta
  rw [hlog.lastHardState_append] at hhard
  rw [recovered_holds hd (hcons.front hmeta) h.sized, hhard]

end Served

private theorem Coherent.truncatePreserves_past {w : WAL} {L : Layout} (h : Coherent w L)
    {f : Nat} (hf : w.metadata.latestSnapshotIndex < f) (hnext : w.nextLogIndex ≤ f) :
    w.TruncatePreserves f := by
  have hbelow := served_below (b := w.metadata.latestSnapshotIndex + 1)
    fun i hi => lt_of_lt_of_le (h.below i hi) hnext
  refine ⟨_, [], { w with nextLogIndex := f }, h.replay_eq, ?_, fun nodeID => ?_, fun d hd => ?_⟩
  · rw [WAL.truncate, if_neg (by omega), if_pos hnext]
  · rw [hbelow]
    exact h.recovered_eq nodeID
  · obtain rfl := mem_singleton.mp hd
    exact ⟨_, h.recovered_eq, prefix_rfl, by simp [hbelow]⟩

private theorem Coherent.truncatePreserves_within {w : WAL} {L : Layout} (h : Coherent w L)
    {f : Nat} (hf : w.metadata.latestSnapshotIndex < f) (hnext : f < w.nextLogIndex)
    (hlog : w.onlyLogFrom f) : w.TruncatePreserves f := by
  have hmem : f ∈ logIndices L.items := by
    refine mem_of_mem_filter (p := (w.metadata.latestSnapshotIndex < ·)) ?_
    rw [h.live, mem_range'_1]
    omega
  obtain ⟨A, t, pre, p, post, B, rfl, hpre, hpost⟩ := exists_target hmem h.increasing
  have hfresh : f ∉ logIndices (A.items ++ pre) := fun hc => lt_irrefl f (hpre f hc)
  rw [h.toLaidOut.onlyLogFrom_iff hfresh] at hlog
  simp only [logIndices_append, mem_append, not_or] at hfresh
  -- what is served splits at the target as the records do
  have htarget : ∀ b, (served b (items
      (A ++ (t, pre ++ .entry f p :: post) :: B))).filter (·.index < f) =
        served b (A.items ++ pre) := by
    intro b
    rw [items_target, served_append, filter_append, served_below hpre,
      served_above, append_nil]
    intro i hi
    rcases mem_cons.mp hi with rfl | hi
    · exact le_rfl
    · exact (hpost i hi).le
  have hcut : LogOnly (.entry f p :: (post ++ B.items)) := by
    intro it hit
    rcases mem_cons.mp hit with rfl | hit
    · rfl
    · exact hlog it hit
  refine ⟨_, truncateOps B t pre, _, h.replay_eq,
    truncate_eq h.toLaidOut (by omega) hnext hfresh.1 hfresh.2, fun nodeID => ?_,
    fun d hd => ?_⟩
  · rw [htarget]
    refine (h.recovered_front h.toLaidOut.truncate.toHolds ?_ hcut nodeID).trans ?_
    · simp
    · simp
  · rcases h.toLaidOut.truncate_images hd with ⟨k, hk⟩ | hk
    · have hitems : items (A ++ (t, pre ++ .entry f p :: post) :: B) =
          items (A ++ (t, pre ++ .entry f p :: post) :: B.take k) ++
            items (B.drop k) := by
        conv_lhs => rw [← take_append_drop k B]
        simp [← items_append]
      refine ⟨_, h.recovered_front hk hitems fun it hit => ?_, ?_, ?_⟩
      · refine hlog it (mem_append_right _ ?_)
        rw [← take_append_drop k B, items_append]
        exact mem_append_right _ hit
      · rw [hitems, served_append]
        exact prefix_append ..
      · rw [htarget, items_target, served_append _ (A.items ++ pre)]
        exact prefix_append ..
    · have hitems : items (A ++ (t, pre ++ .entry f p :: post) :: B) =
          items (A ++ [(t, pre)]) ++ .entry f p :: (post ++ B.items) := by simp
      refine ⟨_, h.recovered_front hk hitems hcut, ?_, ?_⟩
      · rw [hitems, served_append]
        exact prefix_append ..
      · rw [htarget]
        simp

theorem Coherent.truncatePreserves {w : WAL} {L : Layout} (h : Coherent w L) {f : Nat}
    (hf : w.metadata.latestSnapshotIndex < f)
    (hlog : f < w.nextLogIndex → w.onlyLogFrom f) : w.TruncatePreserves f := by
  by_cases hnext : f < w.nextLogIndex
  · exact h.truncatePreserves_within hf hnext (hlog hnext)
  · exact h.truncatePreserves_past hf (Nat.not_lt.mp hnext)

/-! ## Runs of calls on a fresh log -/

inductive Call where
  | appendLogEntry (payload : Bytes)
  | appendHardState (payload : Bytes)
  | appendMetadataSnapshot (uptoIndex : Nat)
  | setClusterGeneration (generation : Nat)
  | sync
  | truncate (fromIndex : Nat)
  deriving DecidableEq, Repr

def WAL.call (w : WAL) : Call → Except WALError WAL
  | .appendLogEntry payload => (w.appendLogEntry payload).map (·.2.1)
  | .appendHardState payload => (w.appendHardState payload).map (·.2)
  | .appendMetadataSnapshot u => (w.appendMetadataSnapshot u).map (·.2)
  | .setClusterGeneration g => (w.setClusterGeneration g).map (·.2)
  | .sync => .ok w.sync.2
  | .truncate f => (w.truncate f).map (·.2)

def WAL.after (w : WAL) (c : Call) : WAL :=
  match w.call c with
  | .ok w' => w'
  | .error _ => w

def WAL.run (w : WAL) (calls : List Call) : WAL := calls.foldl WAL.after w

/-- Indices stay within 64 bits, a truncation inside the log leaves only log
records behind its target, and one past its end goes no further than the
snapshot pointer allows. -/
def Call.Keeps (w : WAL) : Call → Prop
  | .appendLogEntry _ => w.nextLogIndex < 2 ^ 64
  | .appendMetadataSnapshot u => u < 2 ^ 64
  | .truncate f => (f < w.nextLogIndex → w.onlyLogFrom f) ∧
      (w.nextLogIndex < f → f ≤ w.metadata.latestSnapshotIndex + 1)
  | _ => True

instance (w : WAL) (c : Call) : Decidable (c.Keeps w) := by
  cases c <;> unfold Call.Keeps <;> infer_instance

def WAL.KeepsAll : WAL → List Call → Prop
  | _, [] => True
  | w, c :: calls => c.Keeps w ∧ (w.after c).KeepsAll calls

instance WAL.decidableKeepsAll : (w : WAL) → (calls : List Call) →
    Decidable (w.KeepsAll calls)
  | _, [] => inferInstanceAs (Decidable True)
  | w, c :: calls =>
    have := decidableKeepsAll (w.after c) calls
    inferInstanceAs (Decidable (c.Keeps w ∧ (w.after c).KeepsAll calls))

theorem appendLocked_tooLarge (w : WAL) (rt : RecordType) {payload : Bytes}
    (h : maxRecordPayloadSize < payload.length) :
    w.appendLocked rt payload = .error (.recordTooLarge payload.length) := by
  rw [WAL.appendLocked, if_pos h]

namespace Coherent

variable {w : WAL} {L : Layout}

private theorem after_appendLogEntry (h : Coherent w L) {payload : Bytes}
    (hnext : w.nextLogIndex < 2 ^ 64) :
    ∃ L', Coherent (w.after (.appendLogEntry payload)) L' := by
  by_cases hp : payload.length ≤ maxRecordPayloadSize
  · have hit := Item.fits_entry hnext hp
    simp only [WAL.after, WAL.call, appendLogEntry_eq h.toLaidOut hit]
    exact ⟨_, h.appendLogEntry hit⟩
  · simp only [WAL.after, WAL.call, WAL.appendLogEntry,
      appendLocked_tooLarge w .logEntry (Nat.not_le.mp hp)]
    exact ⟨L, h⟩

private theorem after_appendHardState (h : Coherent w L) {payload : Bytes} :
    ∃ L', Coherent (w.after (.appendHardState payload)) L' := by
  by_cases hp : payload.length ≤ maxRecordPayloadSize
  · have hit := Item.fits_hardState hp
    simp only [WAL.after, WAL.call, appendHardState_eq h.toLaidOut hit]
    exact ⟨_, h.appendHardState hit⟩
  · simp only [WAL.after, WAL.call, WAL.appendHardState,
      appendLocked_tooLarge w .hardState (Nat.not_le.mp hp)]
    exact ⟨L, h⟩

theorem metadata_fits (h : Coherent w L) : w.metadata.Fits := by
  have hmem : w.metadata ∈ L.items.filterMap Item.metadata? :=
    mem_of_getLast? h.metadata
  obtain ⟨it, hit, hm⟩ := mem_filterMap.mp hmem
  cases it with
  | entry i p => simp [Item.metadata?] at hm
  | hardState p => simp [Item.metadata?] at hm
  | metadata m =>
    obtain rfl : m = w.metadata := by simpa [Item.metadata?] using hm
    exact (h.fit _ hit).metadata _ rfl

theorem fits_snapshot (h : Coherent w L) {u : Nat} (hu : u < 2 ^ 64) :
    (Item.metadata { w.metadata with latestSnapshotIndex := u }).Fits := by
  refine Item.fits_metadata ⟨h.nodeID, hu, lt_of_le_of_lt h.generation ?_⟩
  decide

private theorem after_appendMetadataSnapshot (h : Coherent w L) {u : Nat}
    (hu : u < 2 ^ 64) : ∃ L', Coherent (w.after (.appendMetadataSnapshot u)) L' := by
  by_cases hle : u < w.metadata.latestSnapshotIndex
  · simp only [WAL.after, WAL.call, WAL.appendMetadataSnapshot, if_pos hle]
    exact ⟨L, h⟩
  · have hit := h.fits_snapshot hu
    simp only [WAL.after, WAL.call, WAL.appendMetadataSnapshot, if_neg hle,
      appendMetadata_eq h.toLaidOut hit]
    exact ⟨_, (h.appendMetadata hit (Nat.not_lt.mp hle) h.version h.generation).sync⟩

private theorem after_setClusterGeneration (h : Coherent w L) (g : Nat) :
    ∃ L', Coherent (w.after (.setClusterGeneration g)) L' := by
  by_cases hle : g ≤ w.metadata.clusterGeneration
  · simp only [WAL.after, WAL.call, WAL.setClusterGeneration, if_pos hle]
    exact ⟨L, h⟩
  · by_cases hmax : g > maxSupportedGeneration
    · simp only [WAL.after, WAL.call, WAL.setClusterGeneration, if_neg hle, if_pos hmax]
      exact ⟨L, h⟩
    · have hg : g ≤ maxSupportedGeneration := Nat.not_lt.mp hmax
      have hit : (Item.metadata { w.metadata with clusterGeneration := g }).Fits :=
        Item.fits_metadata
          ⟨h.nodeID, h.metadata_fits.snapshot_lt, lt_of_le_of_lt hg (by decide)⟩
      simp only [WAL.after, WAL.call, WAL.setClusterGeneration, if_neg hle, if_neg hmax,
        appendMetadata_eq h.toLaidOut hit]
      have := (h.appendMetadata hit le_rfl h.version hg).sync
      simp only [← h.first] at this
      exact ⟨_, this⟩

/-- Past the end only the counter moves; the live suffix stays the same. -/
theorem truncate_past (h : Coherent w L) {f : Nat} (hnext : w.nextLogIndex ≤ f)
    (hjump : w.nextLogIndex < f → f ≤ w.metadata.latestSnapshotIndex + 1) :
    Coherent { w with nextLogIndex := f } L where
  toLaidOut := ⟨h.toHolds, h.current⟩
  metadata := h.metadata
  hardState := h.hardState
  first := h.first
  version := h.version
  generation := h.generation
  nodeID := h.nodeID
  increasing := h.increasing
  below i hi := lt_of_lt_of_le (h.below i hi) hnext
  live := by
    refine h.live.trans ?_
    change _ = range' (w.metadata.latestSnapshotIndex + 1)
      (f - (w.metadata.latestSnapshotIndex + 1))
    congr 1
    omega
  sized := h.sized

private theorem after_truncate (h : Coherent w L) {f : Nat}
    (hkeeps : (Call.truncate f).Keeps w) :
    ∃ L', Coherent (w.after (.truncate f)) L' := by
  obtain ⟨hlog, hjump⟩ := hkeeps
  by_cases hone : f < 1
  · simp only [WAL.after, WAL.call, WAL.truncate, if_pos hone]
    exact ⟨L, h⟩
  by_cases hnext : f ≥ w.nextLogIndex
  · simp only [WAL.after, WAL.call, WAL.truncate, if_neg hone, if_pos hnext]
    exact ⟨L, h.truncate_past hnext hjump⟩
  by_cases hmem : f ∈ logIndices L.items
  · obtain ⟨A, t, pre, p, post, B, rfl, hpre, -⟩ := exists_target hmem h.increasing
    have hfresh : f ∉ logIndices (A.items ++ pre) := fun hc => lt_irrefl f (hpre f hc)
    have hlog' := (h.toLaidOut.onlyLogFrom_iff hfresh).mp (hlog (Nat.not_le.mp hnext))
    simp only [logIndices_append, mem_append, not_or] at hfresh
    simp only [WAL.after, WAL.call, truncate_eq h.toLaidOut (Nat.not_lt.mp hone)
      (Nat.not_le.mp hnext) hfresh.1 hfresh.2]
    exact ⟨_, h.truncate hpre hlog'⟩
  · -- a compacted index is not found, and the call is refused
    simp only [WAL.after, WAL.call, WAL.truncate, if_neg hone, if_neg hnext,
      locateLogIndex_absent h.written h.fit hmem]
    exact ⟨L, h⟩

theorem after (h : Coherent w L) {c : Call} (hc : c.Keeps w) :
    ∃ L', Coherent (w.after c) L' := by
  cases c with
  | appendLogEntry payload => exact h.after_appendLogEntry hc
  | appendHardState payload => exact h.after_appendHardState
  | appendMetadataSnapshot u => exact h.after_appendMetadataSnapshot hc
  | setClusterGeneration g => exact h.after_setClusterGeneration g
  | sync => exact ⟨L, h.sync⟩
  | truncate f => exact h.after_truncate hc

theorem run (h : Coherent w L) {calls : List Call} (hc : w.KeepsAll calls) :
    ∃ L', Coherent (w.run calls) L' := by
  induction calls generalizing w L with
  | nil => exact ⟨L, h⟩
  | cons c calls ih =>
    obtain ⟨L', h'⟩ := h.after hc.1
    exact ih h' hc.2

end Coherent

theorem openWAL_fresh_coherent {maxSize : Nat} {nodeID : Bytes} {w : WAL}
    {report : RecoveryReport} (hid : nodeID.length < 2 ^ 16)
    (hopen : openWAL [] maxSize nodeID = .ok (w, report)) :
    Coherent w [(1, [.metadata ⟨nodeID, formatVersion, 0, 0⟩])] ∧ w.nextLogIndex = 1 := by
  set m : Metadata := ⟨nodeID, formatVersion, 0, 0⟩ with hm
  set size := if maxSize = 0 then defaultSegmentMaxSize else maxSize with hsize
  set w₀ : WAL := ⟨applyOp [] (.create 1), size, 1, m, 1, 1, none⟩ with hw₀
  have hit : (Item.metadata m).Fits :=
    Item.fits_metadata ⟨hid, by simp [hm], by simp [hm]⟩
  have hlaid : LaidOut w₀ [(1, [])] :=
    ⟨⟨rfl, by simp [AllFit], by simp [ids], by simp⟩, rfl⟩
  have hrot : ¬w₀.rotates (Item.metadata m).frame.length := fun hr => by
    have := hr.2.2
    simp [hw₀] at this
  have happend := appendLocked_eq hlaid hit (by simp [Item.index?])
  simp only [Item.record] at happend
  have hlaid' := (hlaid.append hit).sync
  rw [WAL.appended, if_neg hrot] at hlaid'
  simp only [openWAL, getLast?_nil, openFresh, ← hsize, ← hm, ← hw₀, happend,
    Except.ok.injEq, Prod.mk.injEq] at hopen
  obtain ⟨rfl, -⟩ := hopen
  have hnone : logIndices (items [(1, [Item.metadata m])]) = [] := rfl
  refine ⟨⟨hlaid', rfl, rfl, rfl, rfl, by simp [WAL.perform, hw₀, hm], hid,
    by rw [hnone]; exact .nil, fun i hi => absurd (hnone ▸ hi) not_mem_nil, rfl, ?_⟩, rfl⟩
  simp only [WAL.perform, hw₀, hsize]
  split
  · decide
  · assumption

/-- Truncation keeps metadata and hard state in every run whose truncations only
ever drop log records. -/
theorem truncate_preserves_of_keepsAll {maxSize : Nat} {nodeID : Bytes} {w₀ : WAL}
    {report : RecoveryReport} (hid : nodeID.length < 2 ^ 16)
    (hopen : openWAL [] maxSize nodeID = .ok (w₀, report)) {calls : List Call}
    (hcalls : w₀.KeepsAll calls) {fromIndex : Nat}
    (hfrom : (w₀.run calls).metadata.latestSnapshotIndex < fromIndex)
    (hlog : fromIndex < (w₀.run calls).nextLogIndex →
      (w₀.run calls).onlyLogFrom fromIndex) :
    (w₀.run calls).TruncatePreserves fromIndex := by
  obtain ⟨L, h⟩ := (openWAL_fresh_coherent hid hopen).1.run hcalls
  exact h.truncatePreserves hfrom hlog

section Runs

def voteForB : Bytes := [0, 0, 0, 0, 0, 0, 0, 5, 0, 0, 0, 1, 98]

theorem truncate_second_entry_preserves :
    ∃ w₀ report, openWAL [] 0 (List.replicate 32 97) = .ok (w₀, report) ∧
      (w₀.run [.appendHardState voteForB, .appendLogEntry [1],
        .appendLogEntry [2]]).TruncatePreserves 2 := by
  have hid : (List.replicate 32 97 : Bytes).length < 2 ^ 16 := by decide
  refine ⟨_, _, rfl, truncate_preserves_of_keepsAll hid rfl ?_ ?_ ?_⟩
  all_goals decide +kernel

/-- One entry, then a vote, then `Truncate(1)`: a restart finds no hard state. -/
theorem truncate_drops_vote :
    ∃ w₀ report, openWAL [] 0 (List.replicate 32 97) = .ok (w₀, report) ∧
      (w₀.run [.appendLogEntry [1],
        .appendHardState voteForB]).metadata.latestSnapshotIndex < 1 ∧
      ¬(w₀.run [.appendLogEntry [1], .appendHardState voteForB]).TruncatePreserves 1 := by
  refine ⟨_, _, rfl, by decide +kernel, ?_⟩
  rintro ⟨old, ops, w', -, htruncate, hreopen, -⟩
  have hlost := congrArg (fun q => q.toOption.bind fun q =>
    (recovered q.2.dir defaultSegmentMaxSize []).toOption.bind Recovered.hardState) htruncate
  have hkept := congrArg (fun r => r.toOption.bind Recovered.hardState) (hreopen [])
  have hnone := hlost.symm.trans (by decide +kernel : _ = none)
  cases hkept.symm.trans hnone

end Runs

end ChronicleDB.Wal
