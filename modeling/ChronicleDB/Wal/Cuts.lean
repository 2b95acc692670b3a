import ChronicleDB.Wal.Faults

/-!
# Cuts of the final segment

Any cut of the final segment file leaves some whole frames and a piece of the next
one.  `Open` recovers the records of the whole frames, and the log can be appended
to and opened again from there.
-/

namespace ChronicleDB.Wal

open Foundation List Layout Item

def cutLast (n : Nat) : Dir → Dir
  | [] => []
  | [s] => [⟨s.id, s.data.take n, min s.synced n⟩]
  | s :: t :: d => s :: cutLast n (t :: d)

def dirBytes (d : Dir) : Bytes := d.flatMap (·.data)

/-- The records whose frames lie within the first `n` bytes. -/
def wholeFrames : Nat → List Record → List Record
  | _, [] => []
  | n, r :: rs =>
    if r.frame.length ≤ n then r :: wholeFrames (n - r.frame.length) rs else []

/-- `w` holds `recs` and nothing else, and says of them what `Open` is to say. -/
structure Recovers (w : WAL) (recs : List Record) : Prop where
  records : dirRecords w.dir = recs
  bytes : dirBytes w.dir = recs.flatMap Record.frame
  metadata : ((recs.filter (·.type = .metadata)).getLast?.map (decodeMetadata ·.payload)) =
    some (.ok w.metadata)
  hardState : (recs.filter (·.type = .hardState)).getLast?.map (·.payload) = w.latestHardState
  log : w.replay w.firstLogIndex = .ok (recs.filter fun r =>
    r.type = .logEntry ∧ w.metadata.latestSnapshotIndex < r.index)
  next : w.nextLogIndex = (recs.filter (·.type = .logEntry)).length + 1

def Call.Plain (w : WAL) : Call → Prop
  | .appendLogEntry _ => w.nextLogIndex < 2 ^ 64
  | .appendMetadataSnapshot u => u < 2 ^ 64 ∧ u < w.nextLogIndex
  | .truncate _ => False
  | _ => True

instance (w : WAL) : (c : Call) → Decidable (c.Plain w)
  | .appendLogEntry _ => inferInstanceAs (Decidable (_ < _))
  | .appendMetadataSnapshot _ => inferInstanceAs (Decidable (_ ∧ _))
  | .truncate _ => inferInstanceAs (Decidable False)
  | .appendHardState _ | .setClusterGeneration _ | .sync => inferInstanceAs (Decidable True)

def WAL.PlainAll : WAL → List Call → Prop
  | _, [] => True
  | w, c :: calls => c.Plain w ∧ (w.after c).PlainAll calls

instance WAL.decidablePlainAll : (w : WAL) → (calls : List Call) → Decidable (w.PlainAll calls)
  | _, [] => inferInstanceAs (Decidable True)
  | w, c :: calls =>
    have := decidablePlainAll (w.after c) calls
    inferInstanceAs (Decidable (c.Plain w ∧ (w.after c).PlainAll calls))

/-! ## Items in sequence -/

/-- The log indices count from 1, and no snapshot pointer is ahead of them. -/
structure Sequential (its : List Item) : Prop where
  indices : logIndices its = List.range' 1 (logIndices its).length
  pointers : ∀ pre m post, its = pre ++ .metadata m :: post →
    m.Valid ∧ m.latestSnapshotIndex ≤ (logIndices pre).length

namespace Sequential

variable {its a b : List Item}

theorem left (h : Sequential (a ++ b)) : Sequential a where
  indices := by
    have hab := h.indices
    rw [logIndices_append] at hab
    obtain ⟨j, -, hj, -⟩ := range'_eq_append_iff.mp hab.symm
    rw [hj, length_range']
  pointers pre m post heq := h.pointers pre m (post ++ b) (by rw [heq]; simp)

theorem append (h : Sequential its) {it : Item}
    (hidx : ∀ i ∈ it.index?, i = (logIndices its).length + 1)
    (hmeta : ∀ m ∈ it.metadata?, m.Valid ∧ m.latestSnapshotIndex ≤ (logIndices its).length) :
    Sequential (its ++ [it]) where
  indices := by
    rw [logIndices_append]
    cases it with
    | hardState p =>
      rw [show logIndices [hardState p] = [] from rfl, append_nil]
      exact h.indices
    | metadata m =>
      rw [show logIndices [metadata m] = [] from rfl, append_nil]
      exact h.indices
    | entry i p =>
      obtain rfl := hidx i rfl
      have hone : logIndices [entry ((logIndices its).length + 1) p] =
          [(logIndices its).length + 1] := rfl
      rw [hone, length_append, length_singleton, range'_concat, ← h.indices,
        Nat.one_mul, Nat.add_comm 1]
  pointers pre m post heq := by
    rcases eq_nil_or_concat' post with rfl | ⟨post, x, rfl⟩
    · obtain ⟨rfl, hit⟩ := append_inj' heq rfl
      exact hmeta m (by simp [singleton_inj.mp hit, metadata?])
    · rw [← cons_append, ← append_assoc] at heq
      exact h.pointers pre m post (append_inj' heq rfl).1

theorem last (h : Sequential its) {m : Metadata} (hm : lastMetadata its = some m) :
    m.Valid ∧ m.latestSnapshotIndex ≤ (logIndices its).length := by
  obtain ⟨it, hit, hmeta⟩ := mem_filterMap.mp (mem_of_getLast? hm)
  have hitem : it = .metadata m := by
    cases it with
    | entry i p => cases hmeta
    | hardState p => cases hmeta
    | metadata m' => exact congrArg _ (Option.some.inj hmeta)
  obtain ⟨pre, post, rfl⟩ := append_of_mem (hitem ▸ hit)
  obtain ⟨hvalid, hle⟩ := h.pointers pre m post rfl
  refine ⟨hvalid, ?_⟩
  rw [logIndices_append, length_append]
  omega

theorem live (h : Sequential its) (s : Nat) :
    (logIndices its).filter (s < ·) = range' (s + 1) ((logIndices its).length - s) := by
  have hlive := filter_lt_range' (n := (logIndices its).length + 1) (Nat.zero_le s)
  rw [Nat.zero_add, Nat.add_sub_cancel, Nat.add_sub_add_right] at hlive
  rw [h.indices, length_range']
  exact hlive

end Sequential

/-! ## Runs of appends -/

structure Tidy (w : WAL) (L : Layout) : Prop extends Coherent w L where
  sequential : Sequential L.items
  next : w.nextLogIndex = (logIndices L.items).length + 1
  headed : ∃ m rest, L.items = .metadata m :: rest

namespace Tidy

variable {w : WAL} {L : Layout}

theorem valid (h : Tidy w L) :
    w.metadata.Valid ∧ w.metadata.latestSnapshotIndex ≤ (logIndices L.items).length :=
  h.sequential.last h.metadata

theorem of_append (h : Tidy w L) {w' : WAL} {it : Item}
    (hw' : Coherent w' (w.appended L it))
    (hidx : ∀ i ∈ it.index?, i = w.nextLogIndex)
    (hmeta : ∀ m ∈ it.metadata?, m.Valid ∧ m.latestSnapshotIndex ≤ (logIndices L.items).length)
    (hnext : w'.nextLogIndex = w.nextLogIndex + (logIndices [it]).length) :
    Tidy w' (w.appended L it) where
  toCoherent := hw'
  sequential := by
    rw [h.items_appended]
    exact h.sequential.append (fun i hi => (hidx i hi).trans h.next) hmeta
  next := by
    rw [hnext, h.next, h.items_appended, logIndices_append, length_append]
    omega
  headed := by
    obtain ⟨m, rest, hitems⟩ := h.headed
    exact ⟨m, rest ++ [it], by rw [h.items_appended, hitems]; rfl⟩

theorem sync (h : Tidy w L) : Tidy (w.perform w.syncOps) L :=
  ⟨h.toCoherent.sync, h.sequential, h.next, h.headed⟩

theorem after (h : Tidy w L) {c : Call} (hc : c.Plain w) : ∃ L', Tidy (w.after c) L' := by
  cases c with
  | appendLogEntry payload =>
    by_cases hp : payload.length ≤ maxRecordPayloadSize
    · have hit := fits_entry hc hp
      simp only [WAL.after, WAL.call, appendLogEntry_eq h.toLaidOut hit]
      exact ⟨_, h.of_append (h.toCoherent.appendLogEntry hit) (by simp [index?])
        (by simp [metadata?]) rfl⟩
    · refine ⟨L, ?_⟩
      simpa [WAL.after, WAL.call, WAL.appendLogEntry, Bind.bind, Except.bind, Except.map,
        appendLocked_tooLarge w .logEntry (Nat.not_le.mp hp)] using h
  | appendHardState payload =>
    by_cases hp : payload.length ≤ maxRecordPayloadSize
    · have hit := fits_hardState hp
      simp only [WAL.after, WAL.call, appendHardState_eq h.toLaidOut hit]
      exact ⟨_, h.of_append (h.toCoherent.appendHardState hit) (by simp [index?])
        (by simp [metadata?]) rfl⟩
    · refine ⟨L, ?_⟩
      simpa [WAL.after, WAL.call, WAL.appendHardState, Bind.bind, Except.bind, Except.map,
        appendLocked_tooLarge w .hardState (Nat.not_le.mp hp)] using h
  | appendMetadataSnapshot u =>
    by_cases hle : u < w.metadata.latestSnapshotIndex
    · refine ⟨L, ?_⟩
      simpa [WAL.after, WAL.call, WAL.appendMetadataSnapshot, if_pos hle, Except.map] using h
    · have hit := h.fits_snapshot hc.1
      simp only [WAL.after, WAL.call, WAL.appendMetadataSnapshot, if_neg hle,
        appendMetadata_eq h.toLaidOut hit]
      have hu := h.next ▸ hc.2
      refine ⟨_, (h.of_append
        (h.toCoherent.appendMetadata hit (Nat.not_lt.mp hle) h.version h.generation)
        (by simp [index?]) ?_ rfl).sync⟩
      rintro m ⟨⟩
      exact ⟨⟨hit.metadata _ rfl, h.version, h.generation⟩, Nat.lt_succ_iff.mp hu⟩
  | setClusterGeneration g =>
    by_cases hle : g ≤ w.metadata.clusterGeneration
    · refine ⟨L, ?_⟩
      simpa [WAL.after, WAL.call, WAL.setClusterGeneration, if_pos hle, Except.map] using h
    · by_cases hmax : g > maxSupportedGeneration
      · refine ⟨L, ?_⟩
        simpa [WAL.after, WAL.call, WAL.setClusterGeneration, if_neg hle, if_pos hmax,
          Except.map] using h
      · have hg := Nat.not_lt.mp hmax
        have hit : (metadata { w.metadata with clusterGeneration := g }).Fits :=
          fits_metadata
            ⟨h.nodeID, h.metadata_fits.snapshot_lt, lt_of_le_of_lt hg (by decide)⟩
        simp only [WAL.after, WAL.call, WAL.setClusterGeneration, if_neg hle, if_neg hmax,
          appendMetadata_eq h.toLaidOut hit]
        have hw' := h.toCoherent.appendMetadata hit le_rfl h.version hg
        simp only [← h.first] at hw'
        refine ⟨_, (h.of_append hw' (by simp [index?]) ?_ rfl).sync⟩
        rintro m ⟨⟩
        exact ⟨⟨hit.metadata _ rfl, h.version, hg⟩, h.valid.2⟩
  | sync => exact ⟨L, h.sync⟩
  | truncate f => exact hc.elim

theorem run (h : Tidy w L) {calls : List Call} (hc : w.PlainAll calls) :
    ∃ L', Tidy (w.run calls) L' := by
  induction calls generalizing w L with
  | nil => exact ⟨L, h⟩
  | cons c calls ih =>
    obtain ⟨L', h'⟩ := h.after hc.1
    exact ih h' hc.2

end Tidy

theorem Call.Plain.keeps {w : WAL} {c : Call} (h : c.Plain w) :
    c.Keeps w ∧ c.isTruncate = false := by
  cases c with
  | appendLogEntry payload => exact ⟨h, rfl⟩
  | appendMetadataSnapshot u => exact ⟨h.1, rfl⟩
  | appendHardState payload | setClusterGeneration g | sync => exact ⟨trivial, rfl⟩
  | truncate f => exact h.elim

theorem WAL.PlainAll.keepsAll {w : WAL} {calls : List Call} (h : w.PlainAll calls) :
    w.KeepsAll calls ∧ ∀ c ∈ calls, c.isTruncate = false := by
  induction calls generalizing w with
  | nil => exact ⟨trivial, by simp⟩
  | cons c calls ih =>
    obtain ⟨hkeeps, htrunc⟩ := h.1.keeps
    obtain ⟨hrest, hall⟩ := ih h.2
    exact ⟨⟨hkeeps, hrest⟩, forall_mem_cons.mpr ⟨htrunc, hall⟩⟩

/-! ## The bytes that a cut leaves -/

theorem frames_take {its : List Item} (hits : ∀ it ∈ its, it.Fits) (n : Nat) :
    ∃ pre post tail, its = pre ++ post ∧ (frames its).take n = frames pre ++ tail ∧ Torn tail ∧
      wholeFrames n (its.map record) = pre.map record := by
  induction its generalizing n with
  | nil => exact ⟨[], [], [], rfl, by simp, .inl rfl, rfl⟩
  | cons it its ih =>
    rw [map_cons, wholeFrames, frames_cons]
    by_cases hn : it.frame.length ≤ n
    · obtain ⟨pre, post, tail, hits', htake, htorn, hwhole⟩ :=
        ih (fun x hx => hits x (mem_cons_of_mem _ hx)) (n - it.frame.length)
      refine ⟨it :: pre, post, tail, by rw [hits']; rfl, ?_, htorn, ?_⟩
      · rw [take_append, take_of_length_le hn, htake, frames_cons, append_assoc]
      · rw [if_pos (show it.record.frame.length ≤ n from hn), map_cons, ← hwhole]
        rfl
    · refine ⟨[], it :: its, it.frame.take n, rfl, ?_, ?_, ?_⟩
      · rw [take_append_of_le_length (Nat.le_of_not_le hn)]
        rfl
      · by_cases hzero : n = 0
        · exact .inl (by rw [hzero]; rfl)
        · exact .inr ⟨it, hits it mem_cons_self, n, Nat.pos_of_ne_zero hzero,
            Nat.lt_of_not_le hn, rfl⟩
      · rw [if_neg (show ¬it.record.frame.length ≤ n from hn)]
        rfl

theorem wholeFrames_append (a : List Item) (n : Nat) (recs : List Record) :
    wholeFrames ((frames a).length + n) (a.map record ++ recs) =
      a.map record ++ wholeFrames n recs := by
  induction a with
  | nil => simp
  | cons it a ih =>
    have hlen : it.record.frame.length = it.frame.length := rfl
    rw [map_cons, cons_append, wholeFrames, frames_cons, length_append, hlen,
      if_pos (by omega), show it.frame.length + (frames a).length + n - it.frame.length =
        (frames a).length + n by omega, ih]
    rfl

theorem dirBytes_written {d : Dir} {L : Layout} (h : Written d L) :
    dirBytes d = frames L.items := by
  induction L generalizing d with
  | nil =>
    rw [h.eq_nil]
    rfl
  | cons p L ih =>
    obtain ⟨f, d', rfl, -, hdata, hrest⟩ := h.cases_cons
    rw [items_cons, frames_append, ← ih hrest, ← hdata]
    rfl

theorem cutLast_concat (n : Nat) (a : Dir) (s : SegmentFile) :
    cutLast n (a ++ [s]) = a ++ [⟨s.id, s.data.take n, min s.synced n⟩] := by
  induction a with
  | nil => rfl
  | cons t a ih =>
    cases a with
    | nil => rfl
    | cons u a => exact congrArg (t :: ·) ih

theorem fileSize_last {a : Dir} {s : SegmentFile} (h : s.id ∉ a.map (·.id)) :
    fileSize (a ++ [s]) s.id = s.data.length := by
  have hnone : a.find? (·.id = s.id) = none := by
    rw [find?_eq_none]
    intro x hx hid
    exact h (of_decide_eq_true hid ▸ mem_map_of_mem hx)
  simp [fileSize, find?_append, hnone]

/-! ## Opening what a cut leaves -/

theorem filter_metadata (its : List Item) :
    (its.map record).filter (·.type = .metadata) =
      (its.filterMap metadata?).map fun m => (metadata m).record := by
  induction its with
  | nil => rfl
  | cons it its ih => cases it <;> simp [record, metadata?, filterMap_cons, ih]

theorem filter_hardState (its : List Item) :
    (its.map record).filter (·.type = .hardState) =
      (its.filterMap hardState?).map fun p => (hardState p).record := by
  induction its with
  | nil => rfl
  | cons it its ih => cases it <;> simp [record, hardState?, filterMap_cons, ih]

theorem length_filter_logEntry (its : List Item) :
    ((its.map record).filter (·.type = .logEntry)).length = (logIndices its).length := by
  induction its with
  | nil => rfl
  | cons it its ih =>
    rw [logIndices] at ih ⊢
    cases it <;> simp [record, index?, filterMap_cons, ih]

theorem Tidy.recovers {w : WAL} {L : Layout} (h : Tidy w L) :
    Recovers w (L.items.map record) where
  records := dirRecords_written h.written h.fit
  bytes := by
    rw [dirBytes_written h.written, flatMap_map]
    rfl
  metadata := by
    have hlast : (L.items.filterMap metadata?).getLast? = some w.metadata := h.metadata
    rw [filter_metadata, getLast?_map, hlast]
    exact congrArg some (decodeMetadata_encodeMetadata h.metadata_fits)
  hardState := by
    rw [filter_hardState, getLast?_map, Option.map_map, ← h.hardState, lastHardState]
    exact Option.map_id_apply
  log := h.replay_eq
  next := by rw [h.next, length_filter_logEntry]

/-- The WAL that `Open` makes of files with a torn tail. -/
theorem Sequential.open_torn {a : Dir} {seg : SegmentFile} {A : Layout} {its : List Item}
    {tail : Bytes} (ha : Written a A) (hfit : AllFit (A ++ [(seg.id, its)]))
    (hasc : (ids (A ++ [(seg.id, its)])).Pairwise (· < ·))
    (hdata : seg.data = frames its ++ tail) (htail : Torn tail)
    (hseq : Sequential (items (A ++ [(seg.id, its)])))
    (hhead : ∃ m rest, items (A ++ [(seg.id, its)]) = .metadata m :: rest)
    (maxSize : Nat) (nodeID : Bytes) :
    ∃ w report, openWAL (a ++ [seg]) maxSize nodeID = .ok (w, report) ∧
      Tidy w (A ++ [(seg.id, its)]) ∧
      w.dir = repairTail (a ++ [seg]) seg.id (tornAt its tail) ∧
      report.tornTailTruncated = decide (tail ≠ []) ∧ report.truncatedBytes = tail.length := by
  set L : Layout := A ++ [(seg.id, its)] with hL
  obtain ⟨m₀, rest, hitems⟩ := hhead
  obtain ⟨m, hm⟩ : ∃ m, lastMetadata L.items = some m := by
    rw [hitems, lastMetadata, filterMap_cons]
    exact ⟨_, getLast?_eq_some_getLast (cons_ne_nil _ _)⟩
  obtain ⟨hvalid, hle⟩ := hseq.last hm
  have hk := hseq.live m.latestSnapshotIndex
  have hc : Consistent L.items m := ⟨hm, hvalid.version, hvalid.generation, _, hk⟩
  have hid : seg.id ∉ A.ids := by
    intro hmem
    rw [hL, ids, map_append, pairwise_append] at hasc
    exact lt_irrefl _ (hasc.2.2 _ hmem _ (by simp))
  have hfresh : seg.id ∉ a.map (·.id) := by rwa [ha.ids_eq]
  have hholds : Holds (repairTail (a ++ [seg]) seg.id (tornAt its tail)) L :=
    ⟨written_repairTail ha hid hdata, hfit, hasc, by simp [hL]⟩
  refine ⟨_, _, openWAL_torn_eq ha hfit hdata htail hc hk maxSize nodeID, ?_, rfl, ?_, ?_⟩
  · have hnext : m.latestSnapshotIndex + ((logIndices L.items).length - m.latestSnapshotIndex) =
        (logIndices L.items).length := by omega
    refine ⟨⟨⟨hholds, by simp [hL, ids]⟩, hm, rfl, rfl, hvalid.version, hvalid.generation,
      hvalid.nodeID_lt, ?_, ?_, ?_, ?_⟩, hseq, congrArg (· + 1) hnext, m₀, rest, hitems⟩
    · rw [hseq.indices]
      exact pairwise_lt_range'
    · intro i hi
      rw [hseq.indices, mem_range'_1] at hi
      simp only [hnext]
      omega
    · simp only [hnext, Nat.add_sub_add_right]
      exact hk
    · simp only
      split
      · decide
      · assumption
  · rw [tornAt]
    by_cases hnil : tail = []
    · simp [hnil]
    · simp [hnil]
  · rw [tornAt]
    by_cases hnil : tail = []
    · simp [hnil]
    · simp only [if_neg hnil, Option.elim_some, fileSize_last hfresh, hdata, length_append]
      omega

/-- What `Open` makes of the files of `w`, cut after `n` bytes of the final one. -/
structure OpensTo (d : Dir) (maxSize : Nat) (nodeID : Bytes) (recs : List Record) (w : WAL)
    (report : RecoveryReport) : Prop where
  opens : openWAL d maxSize nodeID = .ok (w, report)
  recovers : Recovers w recs
  files : ∃ k, w.dir.map (fun s => (s.id, s.data)) =
    (cutLast k d).map fun s => (s.id, s.data)
  truncated : (dirBytes w.dir).length + report.truncatedBytes = (dirBytes d).length
  torn : report.tornTailTruncated = decide (report.truncatedBytes ≠ 0)

theorem Tidy.cut {w : WAL} {L : Layout} (h : Tidy w L) (n : Nat)
    (hfirst : ∀ r ∈ (dirRecords w.dir).head?,
      r.frame.length ≤ (dirBytes (cutLast n w.dir)).length) (maxSize : Nat) (nodeID : Bytes) :
    ∃ w' report L', Tidy w' L' ∧ OpensTo (cutLast n w.dir) maxSize nodeID
      (wholeFrames (dirBytes (cutLast n w.dir)).length (dirRecords w.dir)) w' report := by
  obtain ⟨A, its, rfl, -⟩ := h.split
  obtain ⟨a, b, hab, ha, hb⟩ := written_append.mp h.written
  obtain ⟨seg, b', rfl, hsegid, hsegdata, hb'⟩ := hb.cases_cons
  obtain rfl := hb'.eq_nil
  replace hsegid : seg.id = w.current := hsegid
  replace hsegdata : seg.data = frames its := hsegdata
  rw [← hsegid] at h
  have hits : ∀ it ∈ its, it.Fits := fun it hit => h.fit it (by simp [hit])
  -- the cut, as one of the bytes of the final segment that there are
  obtain ⟨pre, post, tail, rfl, htake, htail, hwhole⟩ :=
    frames_take hits (min n (frames its).length)
  have hdata : seg.data.take n = frames pre ++ tail := by
    rw [hsegdata, ← htake, take_eq_take_iff]
    omega
  have hcut : cutLast n w.dir = a ++ [⟨seg.id, frames pre ++ tail, min seg.synced n⟩] := by
    rw [hab, cutLast_concat, hdata]
  have hbytes : dirBytes (cutLast n w.dir) = frames A.items ++ (frames pre ++ tail) := by
    rw [hcut, dirBytes, flatMap_append, ← dirBytes_written ha]
    simp [dirBytes]
  have hlen : (frames pre ++ tail).length = min n (frames (pre ++ post)).length := by
    rw [← htake, length_take]
    omega
  have hrecords : dirRecords w.dir = A.items.map record ++ (pre ++ post).map record := by
    rw [dirRecords_written h.written h.fit]
    simp
  have hall : wholeFrames (dirBytes (cutLast n w.dir)).length (dirRecords w.dir) =
      (items (A ++ [(seg.id, pre)])).map record := by
    rw [hbytes, length_append, hlen, hrecords, wholeFrames_append, hwhole]
    simp
  have hitems : items (A ++ [(seg.id, pre ++ post)]) =
      items (A ++ [(seg.id, pre)]) ++ post := by simp
  have hhead : ∃ m rest, items (A ++ [(seg.id, pre)]) = .metadata m :: rest := by
    obtain ⟨m, rest, hmeta⟩ := h.headed
    have hne : wholeFrames (dirBytes (cutLast n w.dir)).length (dirRecords w.dir) ≠ [] := by
      have hr : dirRecords w.dir = (metadata m).record :: rest.map record := by
        rw [dirRecords_written h.written h.fit, hmeta]
        rfl
      rw [hr] at hfirst ⊢
      rw [wholeFrames, if_pos (hfirst _ rfl)]
      exact cons_ne_nil _ _
    rw [hall] at hne
    rw [hitems] at hmeta
    cases hfront : items (A ++ [(seg.id, pre)]) with
    | nil => exact absurd (by rw [hfront]; rfl) hne
    | cons it front =>
      rw [hfront, cons_append] at hmeta
      exact ⟨m, front, by rw [(cons.inj hmeta).1]⟩
  obtain ⟨w', report, hopen, htidy, hdir, htorn, htrunc⟩ :=
    @Sequential.open_torn a ⟨seg.id, frames pre ++ tail, min seg.synced n⟩ A pre tail ha
      (fun x hx => h.fit x (hitems ▸ mem_append_left _ hx))
      (by simpa [ids] using h.ascending) rfl htail
      (Sequential.left (b := post) (hitems ▸ h.sequential)) hhead maxSize nodeID
  rw [← hcut] at hopen
  refine ⟨w', report, _, htidy, hopen, hall ▸ htidy.recovers, ⟨(frames pre).length, ?_⟩, ?_, ?_⟩
  · have hwritten : w'.dir.map (fun s => (s.id, s.data)) = _ := htidy.written
    rw [hwritten, hcut, cutLast_concat, map_append, map_append]
    have ha' : a.map (fun s => (s.id, s.data)) = _ := ha
    rw [ha', take_left]
    rfl
  · rw [dirBytes_written htidy.written, hbytes, htrunc]
    simp
    omega
  · rw [htorn, htrunc]
    simp

/-! ## Exactness -/

/-- A WAL as it is first made, or opened again after appends and a cut that left its
first record. -/
inductive Opened : WAL → Prop
  | fresh {maxSize : Nat} {nodeID : Bytes} {w : WAL} {report : RecoveryReport}
      (hid : nodeID.length < 2 ^ 16) (hopen : openWAL [] maxSize nodeID = .ok (w, report)) :
      Opened w
  | again {w w' : WAL} {calls : List Call} {n maxSize : Nat} {nodeID : Bytes}
      {report : RecoveryReport} (hw : Opened w) (hcalls : w.PlainAll calls)
      (hfirst : ∀ r ∈ (dirRecords w.dir).head?,
        r.frame.length ≤ (dirBytes (cutLast n (w.run calls).dir)).length)
      (hopen : openWAL (cutLast n (w.run calls).dir) maxSize nodeID = .ok (w', report)) :
      Opened w'

theorem Tidy.head_run {w : WAL} {L : Layout} (h : Tidy w L) {calls : List Call}
    (hc : w.PlainAll calls) :
    (dirRecords (w.run calls).dir).head? = (dirRecords w.dir).head? := by
  obtain ⟨m, rest, hitems⟩ := h.headed
  rw [h.dirRecords_run hc.keepsAll.1 hc.keepsAll.2, dirRecords_written h.written h.fit, hitems]
  rfl

theorem Opened.tidy {w : WAL} (h : Opened w) : ∃ L, Tidy w L := by
  induction h with
  | @fresh maxSize nodeID w report hid hopen =>
    obtain ⟨hcoherent, hnext⟩ := openWAL_fresh_coherent hid hopen
    refine ⟨_, hcoherent, ⟨rfl, fun pre m post heq => ?_⟩, hnext, _, _, rfl⟩
    cases pre with
    | nil =>
      obtain ⟨hitem, -⟩ := cons.inj heq
      obtain rfl := metadata.inj hitem
      exact ⟨⟨⟨hid, Nat.two_pow_pos 64, Nat.two_pow_pos 32⟩, rfl, Nat.zero_le _⟩, Nat.le_refl 0⟩
    | cons it pre => simp at heq
  | @again w w' calls n maxSize nodeID report hw hcalls hfirst hopen ih =>
    obtain ⟨L, h⟩ := ih
    obtain ⟨L', h'⟩ := h.run hcalls
    rw [← h.head_run hcalls] at hfirst
    obtain ⟨w'', report', L'', htidy, hopens⟩ := h'.cut n hfirst maxSize nodeID
    rw [hopens.opens] at hopen
    cases hopen
    exact ⟨L'', htidy⟩

theorem Tidy.reopen {w : WAL} {L : Layout} (h : Tidy w L) (maxSize : Nat) (nodeID : Bytes) :
    ∃ w' report, openWAL w.dir maxSize nodeID = .ok (w', report) ∧ Tidy w' L := by
  obtain ⟨A, its, rfl, -⟩ := h.split
  obtain ⟨a, b, hab, ha, hb⟩ := written_append.mp h.written
  obtain ⟨seg, b', rfl, hsegid, hsegdata, hb'⟩ := hb.cases_cons
  obtain rfl := hb'.eq_nil
  replace hsegid : seg.id = w.current := hsegid
  rw [← hsegid] at h ⊢
  obtain ⟨w', report, hopen, htidy, -⟩ :=
    Sequential.open_torn ha h.fit h.ascending (hsegdata.trans (append_nil _).symm) (.inl rfl)
      h.sequential h.headed maxSize nodeID
  exact ⟨w', report, hab ▸ hopen, htidy⟩

/-- After any appends and any cut that leaves the first record, `Open` cuts off the rest of
the torn frame and recovers the records before it; appended to, it recovers these and the
new ones. -/
theorem torn_tail_recovery_exact {w : WAL} (hw : Opened w) {calls : List Call}
    (hcalls : w.PlainAll calls) (n maxSize : Nat) (nodeID : Bytes)
    (hfirst : ∀ r ∈ (dirRecords w.dir).head?,
      r.frame.length ≤ (dirBytes (cutLast n (w.run calls).dir)).length) :
    dirRecords (w.run calls).dir = dirRecords w.dir ++ w.appendedBy calls ∧
    ∃ w' report,
      OpensTo (cutLast n (w.run calls).dir) maxSize nodeID
        (wholeFrames (dirBytes (cutLast n (w.run calls).dir)).length
          (dirRecords w.dir ++ w.appendedBy calls)) w' report ∧
      ∀ more, w'.PlainAll more → ∀ (maxSize : Nat) (nodeID : Bytes), ∃ w'' report',
        openWAL (w'.run more).dir maxSize nodeID = .ok (w'', report') ∧
        Recovers w'' (dirRecords w'.dir ++ w'.appendedBy more) := by
  obtain ⟨L, h⟩ := hw.tidy
  obtain ⟨L₁, h₁⟩ := h.run hcalls
  have hrecords := h.dirRecords_run hcalls.keepsAll.1 hcalls.keepsAll.2
  rw [← h.head_run hcalls] at hfirst
  obtain ⟨w', report, L', h', hopens⟩ := h₁.cut n hfirst maxSize nodeID
  rw [hrecords] at hopens
  refine ⟨hrecords, w', report, hopens, fun more hmore maxSize nodeID => ?_⟩
  obtain ⟨L₂, h₂⟩ := h'.run hmore
  obtain ⟨w'', report', hopen, htidy⟩ := h₂.reopen maxSize nodeID
  refine ⟨w'', report', hopen, ?_⟩
  rw [← h'.dirRecords_run hmore.keepsAll.1 hmore.keepsAll.2,
    dirRecords_written h₂.written h₂.fit]
  exact htidy.recovers

/-- Two entries in segments of 60 bytes, a hard state between them, and a cut one byte
before the end. -/
def shortAppends : List Call :=
  [.appendLogEntry [1], .appendHardState [7], .appendLogEntry [2, 3]]

theorem shortAppends_recovered :
    ∃ w report, openWAL [] 60 (List.replicate 32 97) = .ok (w, report) ∧
      (w.run shortAppends).dir.map (·.data.length) = [80, 39] ∧
      ∃ w' report', openWAL (cutLast 38 (w.run shortAppends).dir) 60 [] = .ok (w', report') ∧
        Recovers w' (wholeFrames (dirBytes (cutLast 38 (w.run shortAppends).dir)).length
          (dirRecords w.dir ++ w.appendedBy shortAppends)) := by
  have hid : (List.replicate 32 97 : Bytes).length < 2 ^ 16 := by decide
  refine ⟨_, _, rfl, by decide +kernel, ?_⟩
  obtain ⟨-, w', report', hopens, -⟩ :=
    @torn_tail_recovery_exact _ (@Opened.fresh 60 _ _ _ hid rfl) shortAppends
      (by decide +kernel) 38 60 [] (by decide +kernel)
  exact ⟨w', report', hopens.opens, hopens.recovers⟩

end ChronicleDB.Wal
