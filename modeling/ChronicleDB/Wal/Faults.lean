import ChronicleDB.Wal.Durability

/-!
# Appends that fail

A segment write may stop after some of its bytes.  `Segment.Append` then counts
the bytes that were written into the size of the segment, and the WAL stays in
use.  What was appended before and after such a failure is recovered as long as
nothing more is written behind a torn frame, and no index is given out twice.
-/

namespace ChronicleDB.Wal

open Foundation List Layout Item

/-! ## Attempts -/

def WAL.appendLockedFails (w : WAL) (rt : RecordType) (payload : Bytes) (k : Nat) : WAL :=
  if payload.length > maxRecordPayloadSize then w
  else
    let index := if rt = .logEntry then w.nextLogIndex else 0
    let frame := encodeRecord rt index payload
    match w.maybeRotateLocked frame.length with
    | .error _ => w
    | .ok (_, w) => w.perform [.append w.current (frame.take k)]

/-- A call whose segment write, or fsync, fails. Nothing in memory moves on. -/
def WAL.callFails (w : WAL) (k : Nat) : Call → WAL
  | .appendLogEntry payload => w.appendLockedFails .logEntry payload k
  | .appendHardState payload => w.appendLockedFails .hardState payload k
  | .appendMetadataSnapshot u =>
    if u < w.metadata.latestSnapshotIndex then w
    else w.appendLockedFails .metadata
      (encodeMetadata { w.metadata with latestSnapshotIndex := u }) k
  | .setClusterGeneration g =>
    if g ≤ w.metadata.clusterGeneration ∨ g > maxSupportedGeneration then w
    else w.appendLockedFails .metadata
      (encodeMetadata { w.metadata with clusterGeneration := g }) k
  | .sync => w
  | .truncate _ => w

structure Attempt where
  call : Call
  failsAfter : Option Nat
  deriving DecidableEq, Repr

def WAL.attempt (w : WAL) (a : Attempt) : WAL :=
  match a.failsAfter with
  | none => w.after a.call
  | some k => w.callFails k a.call

def WAL.attempts (w : WAL) (as : List Attempt) : WAL := as.foldl WAL.attempt w

def WAL.acknowledged : WAL → List Attempt → List Record
  | _, [] => []
  | w, a :: as =>
    (if a.failsAfter = none then a.call.appends w else []) ++ (w.attempt a).acknowledged as

/-! ## The condition -/

def WAL.scanned (w : WAL) : Option Scan :=
  match scanSegments w.dir ⟨none, none, []⟩ with
  | .ok (s, none) => some s
  | _ => none

/-- No append is made behind a torn frame, and no log entry with an index that is in
the files already. Numbers are `uint64`s. -/
def Call.Safe (w : WAL) : Call → Prop
  | .appendLogEntry _ =>
    w.nextLogIndex < 2 ^ 64 ∧ w.scanned.any (w.nextLogIndex ∉ ·.logIndices) = true
  | .appendHardState _ => w.scanned.isSome = true
  | .appendMetadataSnapshot u => u < 2 ^ 64 ∧ w.scanned.isSome = true
  | .setClusterGeneration _ => w.scanned.isSome = true
  | .sync => True
  | .truncate _ => False

instance (w : WAL) : (c : Call) → Decidable (c.Safe w)
  | .appendLogEntry _ | .appendMetadataSnapshot _ => inferInstanceAs (Decidable (_ ∧ _))
  | .appendHardState _ | .setClusterGeneration _ => inferInstanceAs (Decidable (_ = _))
  | .sync => inferInstanceAs (Decidable True)
  | .truncate _ => inferInstanceAs (Decidable False)

def WAL.SafeAll : WAL → List Attempt → Prop
  | _, [] => True
  | w, a :: as => a.call.Safe w ∧ (w.attempt a).SafeAll as

instance WAL.decidableSafeAll : (w : WAL) → (as : List Attempt) → Decidable (w.SafeAll as)
  | _, [] => inferInstanceAs (Decidable True)
  | w, a :: as =>
    have := decidableSafeAll (w.attempt a) as
    inferInstanceAs (Decidable (a.call.Safe w ∧ (w.attempt a).SafeAll as))

/-! ## What a write leaves -/

/-- The layout of the open WAL `w`, with a torn frame behind it. -/
structure TornOut (w : WAL) (L : Layout) (tail : Bytes) : Prop where
  written : WrittenTorn w.dir L tail
  torn : Torn tail
  fit : AllFit L
  ascending : L.ids.Pairwise (· < ·)
  current : L.ids.getLast? = some w.current

variable {w : WAL} {L : Layout} {its : List Item}

theorem TornOut.laidOut (h : TornOut w L []) : LaidOut w L := by
  obtain ⟨a, seg, A, its, hd, rfl, ha, hdata⟩ := h.written
  refine ⟨⟨?_, h.fit, h.ascending, by simp⟩, h.current⟩
  rw [hd, written_append]
  exact ⟨a, [seg], rfl, ha, written_cons.mpr ⟨rfl, by simpa using hdata, rfl⟩⟩

theorem LaidOut.tornOut_nil (h : LaidOut w L) : TornOut w L [] := by
  refine ⟨?_, .inl rfl, h.fit, h.ascending, h.current⟩
  obtain ⟨A, its, rfl, -⟩ := h.split
  obtain ⟨a, b, hd, ha, hb⟩ := written_append.mp h.written
  obtain ⟨seg, b, rfl, hid, hdata, hb⟩ := hb.cases_cons
  obtain rfl := hb.eq_nil
  exact ⟨a, seg, A, its, hd, by simp [hid], ha, by simp [hdata]⟩

theorem LaidOut.tornOut (h : LaidOut w L) {tail : Bytes} (htail : Torn tail) :
    TornOut (w.perform [.append w.current tail]) L tail := by
  obtain ⟨A, its, rfl, hA⟩ := h.split
  obtain ⟨a, b, hd, ha, hb⟩ := written_append.mp h.written
  obtain ⟨seg, b, rfl, hid, hdata, hb⟩ := hb.cases_cons
  obtain rfl := hb.eq_nil
  have hfresh : w.current ∉ a.map (·.id) := by
    rw [ha.ids_eq]
    exact fun hmem => lt_irrefl _ (hA _ hmem)
  refine ⟨⟨a, { seg with data := seg.data ++ tail }, A, its, ?_, by simp [hid], ha,
    by simp [hdata]⟩, htail, h.fit, h.ascending, h.current⟩
  simp only [WAL.perform, perform, foldl_cons, foldl_nil, applyOp, hd]
  exact onFile_last hid hfresh _

theorem LaidOut.maybeRotateLocked (h : LaidOut w L) (n : Nat) :
    ∃ ops d c L', w.maybeRotateLocked n = .ok (ops, { w with dir := d, current := c }) ∧
      LaidOut { w with dir := d, current := c } L' ∧ L'.items = L.items := by
  rw [WAL.maybeRotateLocked]
  simp only []
  split
  case isTrue => exact ⟨[], w.dir, w.current, L, rfl, h, rfl⟩
  case isFalse =>
    split
    case isTrue => exact ⟨[], w.dir, w.current, L, rfl, h, rfl⟩
    case isFalse hprogress =>
      have hnew : ∀ i ∈ L.ids, i < w.nextLogIndex := fun i hi =>
        lt_of_le_of_lt (h.ids_le i hi) (Nat.not_le.mp hprogress)
      rw [if_neg fun hmem => lt_irrefl _ (hnew _ (h.written.ids_eq ▸ hmem))]
      exact ⟨_, _, w.nextLogIndex, L ++ [(w.nextLogIndex, [])], rfl,
        ⟨(h.toHolds.create hnew).sync _, by simp [ids]⟩, by simp⟩

/-- `k` bytes of the frame of `it`: all of them, or a torn frame behind the old log. -/
theorem LaidOut.write (h : LaidOut w L) {it : Item} (hit : it.Fits) (k : Nat) :
    ∃ L' tail, TornOut (w.perform [.append w.current (it.frame.take k)]) L' tail ∧
      ((L'.items = L.items ∧ k < it.frame.length) ∨
        (L'.items = L.items ++ [it] ∧ it.frame.length ≤ k ∧ tail = [])) := by
  rcases lt_or_ge k it.frame.length with hk | hk
  · refine ⟨L, _, h.tornOut ?_, .inl ⟨rfl, hk⟩⟩
    rcases Nat.eq_zero_or_pos k with rfl | hpos
    · exact .inl (by simp)
    · exact .inr ⟨it, hit, k, hpos, hk, rfl⟩
  · rw [take_of_length_le hk]
    obtain ⟨A, its, rfl, -⟩ := h.split
    have hall : LaidOut (w.perform [.append w.current it.frame])
        (A ++ [(w.current, its ++ [it])]) :=
      ⟨h.toHolds.append hit, by simp [ids, WAL.perform]⟩
    exact ⟨_, [], hall.tornOut_nil, .inr ⟨by simp, hk, rfl⟩⟩

theorem appendLockedFails_tooLarge (w : WAL) (rt : RecordType) {payload : Bytes}
    (h : maxRecordPayloadSize < payload.length) (k : Nat) :
    w.appendLockedFails rt payload k = w := by
  rw [WAL.appendLockedFails, if_pos h]

theorem LaidOut.appendLockedFails (h : LaidOut w L) {it : Item} (hit : it.Fits)
    (hidx : ∀ i ∈ it.index?, i = w.nextLogIndex) (k : Nat) :
    ∃ d c L' tail, w.appendLockedFails it.record.type it.record.payload k =
        { w with dir := d, current := c } ∧
      TornOut { w with dir := d, current := c } L' tail ∧
      (L'.items = L.items ∨ L'.items = L.items ++ [it]) := by
  have hindex : (if it.record.type = .logEntry then w.nextLogIndex else 0) =
      it.record.index := by
    cases it with
    | entry i p => simpa [record] using (hidx i rfl).symm
    | hardState p => rfl
    | metadata m => rfl
  have hframe : encodeRecord it.record.type it.record.index it.record.payload =
      it.frame := rfl
  obtain ⟨ops, d, c, L', hrotate, hlaid, hitems⟩ := h.maybeRotateLocked it.frame.length
  obtain ⟨L'', tail, htorn, hcases⟩ := hlaid.write hit k
  rw [WAL.appendLockedFails, if_neg (Nat.not_lt.mpr hit.record.payload_le)]
  simp only [hindex, hframe, hrotate]
  refine ⟨_, c, L'', tail, rfl, htorn, ?_⟩
  rw [← hitems]
  exact hcases.imp And.left And.left

theorem TornOut.scanned {tail : Bytes} (h : TornOut w L tail) {s : Scan} (hs : w.scanned = some s) :
    tail = [] ∧ s.logIndices = logIndices L.items := by
  obtain ⟨a, seg, A, its, hd, rfl, ha, hdata⟩ := h.written
  have hscan := scanSegments_torn ha (fun x hx => h.fit x (by simp [hx]))
    (fun x hx => h.fit x (by simp [hx])) hdata h.torn ⟨none, none, []⟩
  rw [← hd] at hscan
  rw [WAL.scanned, hscan, tornAt] at hs
  by_cases hnil : tail = []
  · rw [if_pos hnil] at hs
    refine ⟨hnil, ?_⟩
    rw [← Option.some.inj hs, foldl_observe]
    rfl
  · rw [if_neg hnil] at hs
    cases hs

/-! ## The invariant -/

structure Metadata.Valid (m : Metadata) : Prop extends m.Fits where
  version : m.formatVersion = Wal.formatVersion
  generation : m.clusterGeneration ≤ maxSupportedGeneration

/-- The log indices run from 1 to `next - 1` or, if a failed write left a whole entry, to
`next`. -/
def Counts (its : List Item) (next : Nat) : Prop :=
  ∃ n, logIndices its = List.range' 1 n ∧ (next = n + 1 ∨ next = n ∧ n ≠ 0)

theorem Counts.append_entry {next : Nat} (h : Counts its next) (hnew : next ∉ logIndices its)
    (payload : Bytes) : logIndices (its ++ [.entry next payload]) = range' 1 next ∧ next ≠ 0 := by
  obtain ⟨n, hn, rfl | ⟨rfl, hpos⟩⟩ := h
  · refine ⟨?_, by omega⟩
    rw [logIndices_append, hn, range'_concat]
    simp [logIndices, index?, Nat.add_comm]
  · rw [hn, mem_range'_1] at hnew
    omega

theorem Counts.append_other {its : List Item} {next : Nat} (h : Counts its next) {it : Item}
    (hit : it.index? = none) : Counts (its ++ [it]) next := by
  rw [Counts, logIndices_append, show logIndices [it] = [] by simp [logIndices, hit], append_nil]
  exact h

theorem lastValid_append (h : ∃ m : Metadata, lastMetadata its = some m ∧ m.Valid) {it : Item}
    (hit : ∀ m ∈ it.metadata?, m.Valid) :
    ∃ m : Metadata, lastMetadata (its ++ [it]) = some m ∧ m.Valid := by
  obtain ⟨m, hm, hvalid⟩ := h
  rw [lastMetadata_append, hm]
  cases hmeta : it.metadata? with
  | none => exact ⟨m, by simp [lastMetadata, hmeta], hvalid⟩
  | some m' => exact ⟨m', by simp [lastMetadata, hmeta], hit m' hmeta⟩

/-- The files hold every record of `acked`, and metadata that `Open` accepts. -/
structure Usable (w : WAL) (L : Layout) (tail : Bytes) (acked : List Record) : Prop
    extends TornOut w L tail where
  acked : acked.Sublist (L.items.map Item.record)
  indices : Counts L.items w.nextLogIndex
  last : ∃ m : Metadata, lastMetadata L.items = some m ∧ m.Valid
  valid : w.metadata.Valid

theorem Usable.reopen {tail : Bytes} {acked : List Record} (h : Usable w L tail acked)
    (maxSize : Nat) (nodeID : Bytes) :
    ∃ w' report, openWAL w.dir maxSize nodeID = .ok (w', report) ∧
      acked.Sublist (dirRecords w'.dir) := by
  obtain ⟨n, hn, -⟩ := h.indices
  obtain ⟨m, hm, hvalid⟩ := h.last
  have hlive := filter_lt_range' (n := n + 1) (Nat.zero_le m.latestSnapshotIndex)
  have hc : Consistent L.items m := ⟨hm, hvalid.version, hvalid.generation, _, hn ▸ hlive⟩
  obtain ⟨w', report, hopen, hholds⟩ :=
    openWAL_torn h.written h.torn h.fit h.ascending hc maxSize nodeID
  refine ⟨w', report, hopen, ?_⟩
  rw [dirRecords_written hholds.written hholds.fit]
  exact h.acked

namespace Usable

variable {w : WAL} {L : Layout} {tail : Bytes} {acked : List Record}

theorem fail (h : Usable w L [] acked) {it : Item} (hit : it.Fits)
    (hidx : ∀ i ∈ it.index?, i = w.nextLogIndex ∧ i ∉ logIndices L.items)
    (hvalid : ∀ m ∈ it.metadata?, m.Valid) (k : Nat) :
    ∃ L' tail', Usable (w.appendLockedFails it.record.type it.record.payload k) L' tail'
      acked := by
  obtain ⟨d, c, L', tail', heq, htorn, hitems | hitems⟩ :=
    h.laidOut.appendLockedFails hit (fun i hi => (hidx i hi).1) k
  · rw [heq]
    exact ⟨L', tail', htorn, hitems ▸ h.acked, hitems ▸ h.indices, hitems ▸ h.last, h.valid⟩
  · rw [heq]
    refine ⟨L', tail', htorn, ?_, ?_, hitems ▸ lastValid_append h.last hvalid, h.valid⟩
    · rw [hitems, map_append]
      exact h.acked.trans (sublist_append_left _ _)
    · rw [hitems]
      cases it with
      | entry i p =>
        obtain ⟨rfl, hnew⟩ := hidx i rfl
        obtain ⟨hall, hpos⟩ := h.indices.append_entry hnew p
        exact ⟨_, hall, .inr ⟨rfl, hpos⟩⟩
      | hardState p => exact h.indices.append_other rfl
      | metadata m => exact h.indices.append_other rfl

theorem append (h : Usable w L [] acked) {it : Item} (hit : it.Fits)
    (hvalid : ∀ m ∈ it.metadata?, m.Valid) :
    TornOut (w.afterAppend it) (w.appended L it) [] ∧
      (acked ++ [it.record]).Sublist ((w.appended L it).items.map record) ∧
      ∃ m : Metadata, lastMetadata (w.appended L it).items = some m ∧ m.Valid := by
  have hlaid := h.laidOut
  refine ⟨(hlaid.append hit).tornOut_nil, ?_, ?_⟩
  · rw [hlaid.items_appended, map_append]
    exact h.acked.append (.refl _)
  · rw [hlaid.items_appended]
    exact lastValid_append h.last hvalid

theorem of_scanned (h : Usable w L tail acked) (hs : w.scanned.isSome = true) :
    Usable w L [] acked := by
  obtain ⟨s, hs⟩ := Option.isSome_iff_exists.mp hs
  exact (h.scanned hs).1 ▸ h

theorem not_mem_of_scanned (h : Usable w L tail acked)
    (hs : w.scanned.any (w.nextLogIndex ∉ ·.logIndices) = true) :
    Usable w L [] acked ∧ w.nextLogIndex ∉ logIndices L.items := by
  cases hscan : w.scanned with
  | none => simp [hscan] at hs
  | some s =>
    obtain ⟨rfl, hindices⟩ := h.scanned hscan
    refine ⟨h, ?_⟩
    simpa [hscan, hindices] using hs

theorem sync (h : Usable w L tail acked) : Usable (w.perform w.syncOps) L tail acked := by
  refine ⟨⟨?_, h.torn, h.fit, h.ascending, h.current⟩, h.acked, h.indices, h.last, h.valid⟩
  obtain ⟨a, seg, A, its, hd, rfl, ha, hdata⟩ := h.written
  have hid : seg.id = w.current := by simpa [ids] using h.current
  have hfresh : w.current ∉ a.map (·.id) := by
    intro hmem
    rw [ha.ids_eq] at hmem
    have hasc := h.ascending
    simp only [ids, map_append, pairwise_append] at hasc
    exact lt_irrefl _ (hasc.2.2 _ hmem _ (by simp [hid]))
  refine ⟨a, { seg with synced := seg.data.length }, A, its, ?_, rfl, ha, hdata⟩
  simp only [WAL.perform, WAL.syncOps, perform, foldl_cons, foldl_nil, applyOp, hd]
  exact onFile_last hid hfresh _

theorem valid_snapshot (h : Usable w L tail acked) {u : Nat} (hu : u < 2 ^ 64) :
    { w.metadata with latestSnapshotIndex := u }.Valid :=
  ⟨⟨h.valid.nodeID_lt, hu, h.valid.generation_lt⟩, h.valid.version, h.valid.generation⟩

theorem valid_generation (h : Usable w L tail acked) {g : Nat} (hg : g ≤ maxSupportedGeneration) :
    { w.metadata with clusterGeneration := g }.Valid :=
  ⟨⟨h.valid.nodeID_lt, h.valid.snapshot_lt, lt_of_le_of_lt hg (by decide)⟩, h.valid.version, hg⟩

theorem appendMetadata (h : Usable w L [] acked) {m : Metadata} (hm : m.Valid) (first : Nat) :
    Usable { (w.afterAppend (.metadata m)).perform (w.afterAppend (.metadata m)).syncOps with
        metadata := m, firstLogIndex := first } (w.appended L (.metadata m)) []
      (acked ++ [(metadata m).record]) := by
  obtain ⟨htorn, hacked, hlast⟩ := h.append (fits_metadata hm.toFits) (by simpa [metadata?])
  have hcounts : Counts (w.appended L (.metadata m)).items w.nextLogIndex := by
    rw [h.laidOut.items_appended]
    exact h.indices.append_other rfl
  have hbase : Usable (w.afterAppend (.metadata m)) (w.appended L (.metadata m)) []
      (acked ++ [(metadata m).record]) := ⟨htorn, hacked, hcounts, hlast, h.valid⟩
  have hsync := hbase.sync
  exact ⟨⟨hsync.written, hsync.torn, hsync.fit, hsync.ascending, hsync.current⟩, hacked, hcounts,
    hlast, hm⟩

theorem callFails (h : Usable w L tail acked) {c : Call} (hc : c.Safe w) (k : Nat) :
    ∃ L' tail', Usable (w.callFails k c) L' tail' acked := by
  cases c with
  | appendLogEntry payload =>
    obtain ⟨h, hnew⟩ := h.not_mem_of_scanned hc.2
    by_cases hp : payload.length ≤ maxRecordPayloadSize
    · exact h.fail (fits_entry hc.1 hp) (by simpa [index?]) (by simp [metadata?]) k
    · exact ⟨L, [], by rwa [WAL.callFails, appendLockedFails_tooLarge _ _ (Nat.not_le.mp hp)]⟩
  | appendHardState payload =>
    replace h := h.of_scanned hc
    by_cases hp : payload.length ≤ maxRecordPayloadSize
    · exact h.fail (fits_hardState hp) (by simp [index?]) (by simp [metadata?]) k
    · exact ⟨L, [], by rwa [WAL.callFails, appendLockedFails_tooLarge _ _ (Nat.not_le.mp hp)]⟩
  | appendMetadataSnapshot u =>
    replace h := h.of_scanned hc.2
    rw [WAL.callFails]
    split
    · exact ⟨L, [], h⟩
    · have hm := h.valid_snapshot hc.1
      exact h.fail (fits_metadata hm.toFits) (by simp [index?])
        (by simpa [metadata?]) k
  | setClusterGeneration g =>
    replace h := h.of_scanned hc
    rw [WAL.callFails]
    split
    · exact ⟨L, [], h⟩
    · have hm := h.valid_generation (g := g) (by omega)
      exact h.fail (fits_metadata hm.toFits) (by simp [index?])
        (by simpa [metadata?]) k
  | sync => exact ⟨L, tail, h⟩
  | truncate f => exact hc.elim

theorem after (h : Usable w L tail acked) {c : Call} (hc : c.Safe w) :
    ∃ L' tail', Usable (w.after c) L' tail' (acked ++ c.appends w) := by
  cases c with
  | appendLogEntry payload =>
    obtain ⟨h, hnew⟩ := h.not_mem_of_scanned hc.2
    by_cases hp : payload.length ≤ maxRecordPayloadSize
    · have hit := fits_entry hc.1 hp
      obtain ⟨htorn, hacked, hlast⟩ := h.append hit (by simp [metadata?])
      simp only [WAL.after, WAL.call, appendLogEntry_eq h.laidOut hit, Call.appends, if_pos hp]
      refine ⟨_, [], ⟨htorn.written, htorn.torn, htorn.fit, htorn.ascending, htorn.current⟩,
        hacked, ?_, hlast, h.valid⟩
      rw [h.laidOut.items_appended]
      exact ⟨_, (h.indices.append_entry hnew payload).1, .inl rfl⟩
    · refine ⟨L, [], ?_⟩
      simpa [WAL.after, WAL.call, WAL.appendLogEntry, Call.appends, if_neg hp, Except.map,
        appendLocked_tooLarge w .logEntry (Nat.not_le.mp hp), Bind.bind, Except.bind] using h
  | appendHardState payload =>
    replace h := h.of_scanned hc
    by_cases hp : payload.length ≤ maxRecordPayloadSize
    · have hit := fits_hardState hp
      obtain ⟨htorn, hacked, hlast⟩ := h.append hit (by simp [metadata?])
      simp only [WAL.after, WAL.call, appendHardState_eq h.laidOut hit, Call.appends, if_pos hp]
      refine ⟨_, [], ⟨htorn.written, htorn.torn, htorn.fit, htorn.ascending, htorn.current⟩,
        hacked, ?_, hlast, h.valid⟩
      rw [h.laidOut.items_appended]
      exact h.indices.append_other rfl
    · refine ⟨L, [], ?_⟩
      simpa [WAL.after, WAL.call, WAL.appendHardState, Call.appends, if_neg hp, Except.map,
        appendLocked_tooLarge w .hardState (Nat.not_le.mp hp), Bind.bind, Except.bind] using h
  | appendMetadataSnapshot u =>
    replace h := h.of_scanned hc.2
    by_cases hle : u < w.metadata.latestSnapshotIndex
    · refine ⟨L, [], ?_⟩
      simpa [WAL.after, WAL.call, WAL.appendMetadataSnapshot, hle, Call.appends, Except.map] using h
    · have hm := h.valid_snapshot hc.1
      simp only [WAL.after, WAL.call, WAL.appendMetadataSnapshot, if_neg hle,
        appendMetadata_eq h.laidOut (fits_metadata hm.toFits), Call.appends]
      exact ⟨_, [], h.appendMetadata hm _⟩
  | setClusterGeneration g =>
    replace h := h.of_scanned hc
    by_cases hle : g ≤ w.metadata.clusterGeneration
    · refine ⟨L, [], ?_⟩
      simpa [WAL.after, WAL.call, WAL.setClusterGeneration, hle, Call.appends, Except.map] using h
    · by_cases hmax : g > maxSupportedGeneration
      · refine ⟨L, [], ?_⟩
        simpa [WAL.after, WAL.call, WAL.setClusterGeneration, hle, hmax, Call.appends,
          Except.map] using h
      · have hm := h.valid_generation (Nat.not_lt.mp hmax)
        simp only [WAL.after, WAL.call, WAL.setClusterGeneration,
          appendMetadata_eq h.laidOut (fits_metadata hm.toFits), Call.appends, hle, hmax,
          or_self, if_false]
        exact ⟨_, [], h.appendMetadata hm w.firstLogIndex⟩
  | sync =>
    refine ⟨L, tail, ?_⟩
    simpa [WAL.after, WAL.call, WAL.sync, Call.appends] using h.sync
  | truncate f => exact hc.elim

theorem attempts (h : Usable w L tail acked) {as : List Attempt} (hsafe : w.SafeAll as) :
    ∃ L' tail', Usable (w.attempts as) L' tail' (acked ++ w.acknowledged as) := by
  induction as generalizing w L tail acked with
  | nil => exact ⟨L, tail, by simpa [WAL.attempts, WAL.acknowledged] using h⟩
  | cons a as ih =>
    obtain ⟨ha, hrest⟩ := hsafe
    obtain ⟨L', tail', h'⟩ : ∃ L' tail', Usable (w.attempt a) L' tail'
        (acked ++ if a.failsAfter = none then a.call.appends w else []) := by
      cases hfail : a.failsAfter with
      | none => simpa [WAL.attempt, hfail] using h.after ha
      | some k => simpa [WAL.attempt, hfail] using h.callFails ha k
    have := ih h' hrest
    rwa [append_assoc] at this

end Usable

def retriedAppend : List Attempt :=
  [⟨.appendLogEntry [1], none⟩, ⟨.sync, none⟩, ⟨.appendLogEntry [2], some 0⟩,
    ⟨.appendLogEntry [2], none⟩, ⟨.sync, none⟩]

def tornAppend : List Attempt :=
  [⟨.appendLogEntry [1], none⟩, ⟨.sync, none⟩, ⟨.appendLogEntry [2], some 1⟩,
    ⟨.appendLogEntry [2], none⟩, ⟨.sync, none⟩]

end ChronicleDB.Wal
