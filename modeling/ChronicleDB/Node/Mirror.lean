import ChronicleDB.Node.Storage
import ChronicleDB.Wal.Compact

/-!
# The storage mirror and its directory

`WALStorage` answers reads from a mirror in memory.  The invariant here says
that the mirror is what a restart would read back, and every call that the
node makes on its storage keeps it, as long as the call stays clear of the
layouts in which truncation or compaction drops a record that is still needed.
-/

namespace ChronicleDB.Node

open Foundation Raft Wal List Layout Item WALStorage

/-! ## Payload round trips -/

/-- A hard state that its record can hold. -/
structure HardStateFits (hs : HardState) : Prop where
  term_lt : hs.currentTerm < 2 ^ 64
  vote_le : 12 + hs.votedFor.length ≤ maxRecordPayloadSize

/-- An entry as the node proposes it: its record can hold it, and the data of a
normal entry does not start with the marker of typed entries. -/
structure EntryFits (e : Entry) : Prop where
  term_lt : e.term < 2 ^ 64
  data_le : 10 + e.data.length ≤ maxRecordPayloadSize
  untyped : e.type = .normal → e.data.head? ≠ some entryPayloadTypeSentinel

theorem length_encodeHardState (hs : HardState) :
    (encodeHardState hs).length = 12 + hs.votedFor.length := by
  simp [encodeHardState]
  omega

theorem decodeHardState_encodeHardState {hs : HardState} (h : HardStateFits hs) :
    decodeHardState (encodeHardState hs) = .ok hs := by
  have hlen := length_encodeHardState hs
  have hmax : maxRecordPayloadSize < 256 ^ 4 := by decide
  have hvote : hs.votedFor.length < 256 ^ 4 := by
    have := h.vote_le
    omega
  have htake : (encodeHardState hs).take 8 = putUint 8 hs.currentTerm :=
    take_putUint_append ..
  have h8 : (encodeHardState hs).drop 8 =
      putUint 4 hs.votedFor.length ++ hs.votedFor := drop_putUint_append ..
  have h12 : (encodeHardState hs).drop 12 = hs.votedFor := by
    rw [show (12 : Nat) = 8 + 4 from rfl, ← drop_drop, h8, drop_putUint_append]
  unfold decodeHardState
  simp only [htake, h8, h12, take_putUint_append, getUint_putUint_of_lt hvote,
    getUint_putUint_of_lt (show hs.currentTerm < 256 ^ 8 from h.term_lt), hlen]
  rw [if_neg (by omega), if_neg (by omega), take_length]

theorem decodeEntryPayload_encode {term : Nat} {typ : EntryType} {data : Bytes}
    (hterm : term < 2 ^ 64)
    (huntyped : typ = .normal → data.head? ≠ some entryPayloadTypeSentinel) :
    decodeEntryPayload (encodeEntryPayload term typ data) = .ok (term, typ, data) := by
  have hget : getUint (putUint 8 term) = term :=
    getUint_putUint_of_lt (show term < 256 ^ 8 from hterm)
  cases typ with
  | config =>
    unfold decodeEntryPayload encodeEntryPayload
    rw [if_neg (by simp), take_putUint_append, drop_putUint_append, hget]
    rfl
  | normal =>
    have huntyped := huntyped rfl
    unfold decodeEntryPayload encodeEntryPayload
    rw [if_neg (by simp), take_putUint_append, drop_putUint_append, hget]
    match data with
    | [] => rfl
    | [_] => rfl
    | sentinel :: code :: data =>
      simp only [head?_cons, ne_eq, Option.some.injEq] at huntyped
      simp [huntyped]

theorem decodeEntryPayload_encodeEntryPayload {e : Entry} (h : EntryFits e) :
    decodeEntryPayload (encodeEntryPayload e.term e.type e.data) =
      .ok (e.term, e.type, e.data) :=
  decodeEntryPayload_encode h.term_lt h.untyped

theorem length_encodeEntryPayload_le (e : Entry) :
    (encodeEntryPayload e.term e.type e.data).length ≤ 10 + e.data.length := by
  cases e.type with
  | normal => simp [encodeEntryPayload]
  | config =>
    simp only [encodeEntryPayload, length_append, length_putUint, length_cons]
    omega

/-! ## Decoding replayed records -/

theorem decodeRecords_append {a b : List Record} {x y : List Entry}
    (ha : decodeRecords a = .ok x) (hb : decodeRecords b = .ok y) :
    decodeRecords (a ++ b) = .ok (x ++ y) := by
  induction a generalizing x with
  | nil =>
    obtain rfl : [] = x := by simpa [decodeRecords] using ha
    exact hb
  | cons r a ih =>
    simp only [cons_append, decodeRecords] at ha ⊢
    cases hr : decodeRecord r with
    | error e => simp [hr] at ha
    | ok e =>
      cases hrest : decodeRecords a with
      | error e => simp [hr, hrest] at ha
      | ok es =>
        obtain rfl : e :: es = x := by simpa [hr, hrest] using ha
        simp [ih hrest]

theorem decodeRecords_split {a b : List Record} {z : List Entry}
    (h : decodeRecords (a ++ b) = .ok z) :
    decodeRecords a = .ok (z.take a.length) ∧ decodeRecords b = .ok (z.drop a.length) := by
  induction a generalizing z with
  | nil => exact ⟨rfl, h⟩
  | cons r a ih =>
    simp only [cons_append, decodeRecords] at h ⊢
    cases hr : decodeRecord r with
    | error e => simp [hr] at h
    | ok e =>
      cases hrest : decodeRecords (a ++ b) with
      | error e => simp [hr, hrest] at h
      | ok es =>
        obtain rfl : e :: es = z := by simpa [hr, hrest] using h
        obtain ⟨h1, h2⟩ := ih hrest
        simp [h1, h2]

theorem length_of_decodeRecords {a : List Record} {x : List Entry}
    (h : decodeRecords a = .ok x) : x.length = a.length := by
  induction a generalizing x with
  | nil =>
    obtain rfl : [] = x := by simpa [decodeRecords] using h
    rfl
  | cons r a ih =>
    simp only [decodeRecords] at h
    cases hr : decodeRecord r with
    | error e => simp [hr] at h
    | ok e =>
      cases hrest : decodeRecords a with
      | error e => simp [hr, hrest] at h
      | ok es =>
        obtain rfl : e :: es = x := by simpa [hr, hrest] using h
        simp [ih hrest]

/-! ## Served records by index -/

theorem map_index_served (b : Nat) (its : List Item) :
    (served (b + 1) its).map (·.index) = (logIndices its).filter (b < ·) := by
  induction its with
  | nil => rfl
  | cons it its ih =>
    rw [← singleton_append, served_append, map_append, ih, logIndices_append, filter_append]
    congr 1
    cases it with
    | entry i p =>
      by_cases hi : b < i
      · have : b + 1 ≤ i := hi
        simp [served, logIndices, record, index?, hi, this]
      · have : ¬b + 1 ≤ i := hi
        simp [served, logIndices, record, index?, hi, this]
    | hardState p => simp [served, logIndices, record, index?]
    | metadata m => simp [served, logIndices, record, index?]

private theorem filter_of_map_range' {l : List Record} {s n t : Nat}
    (h : l.map (·.index) = range' s n) :
    l.filter (t ≤ ·.index) = l.drop (t - s) := by
  induction l generalizing s n with
  | nil => simp
  | cons r l ih =>
    cases n with
    | zero => simp at h
    | succ n =>
      rw [map_cons, range'_succ, cons.injEq] at h
      obtain ⟨hr, hl⟩ := h
      have := ih hl
      by_cases ht : t ≤ s
      · rw [filter_cons_of_pos (by simp [hr, ht]), this,
          show t - (s + 1) = 0 by omega, show t - s = 0 by omega]
        rfl
      · rw [filter_cons_of_neg (by simp [hr]; omega), this,
          show t - s = t - (s + 1) + 1 by omega, drop_succ_cons]

theorem served_drop {b u n : Nat} {its : List Item} (hbu : b ≤ u)
    (hlive : (logIndices its).filter (b < ·) = range' (b + 1) n) :
    served (u + 1) its = (served (b + 1) its).drop (u - b) := by
  have hfilter : served (u + 1) its = (served (b + 1) its).filter (u + 1 ≤ ·.index) := by
    simp only [served, filter_filter]
    refine filter_congr fun r _ => ?_
    by_cases hr : u + 1 ≤ r.index
    · simp [hr, show b + 1 ≤ r.index by omega]
    · simp [hr]
  have hindex : (served (b + 1) its).map (·.index) = range' (b + 1) n := by
    rw [map_index_served, hlive]
  rw [hfilter, filter_of_map_range' hindex]
  congr 1
  omega

/-! ## What a restart reads back -/

inductive ReopenError where
  | wal (e : OpenError)
  | storage (e : StorageError)
  deriving DecidableEq, Repr

def reopen (d : Dir) (maxSize : Nat) (nodeID : Bytes) : Except ReopenError WALStorage :=
  match openWAL d maxSize nodeID with
  | .error e => .error (.wal e)
  | .ok (w, _) =>
    match openWALStorage w with
    | .error e => .error (.storage e)
    | .ok s => .ok s

def WALStorage.state (s : WALStorage) : HardState × Nat × List Entry :=
  (s.hs, s.baseIndex, s.entries)

def ReopensTo (d : Dir) (maxSize : Nat) (st : HardState × Nat × List Entry) : Prop :=
  ∀ nodeID, (reopen d maxSize nodeID).map WALStorage.state = .ok st

/-- A directory laid out as `L`, whose records read back as metadata `m`, hard
state `hs` and log `es`. -/
structure Readable (d : Dir) (L : Layout) (m : Metadata) (hs : HardState)
    (es : List Entry) : Prop where
  holds : Holds d L
  consistent : Consistent L.items m
  nodeID : m.nodeID.length < 2 ^ 16
  increasing : (logIndices L.items).Pairwise (· < ·)
  ordered : Ordered L m.latestSnapshotIndex
  hard : initialHardState (lastHardState L.items) = .ok hs
  hardFits : HardStateFits hs
  log : decodeRecords (served (m.latestSnapshotIndex + 1) L.items) = .ok es

/-- The open WAL `w` is what a restart would read back from its directory. -/
structure Backs (w : WAL) (L : Layout) (hs : HardState) (es : List Entry) : Prop where
  coherent : Coherent w L
  ordered : Ordered L w.metadata.latestSnapshotIndex
  hard : initialHardState w.latestHardState = .ok hs
  hardFits : HardStateFits hs
  log : decodeRecords (served (w.metadata.latestSnapshotIndex + 1) L.items) = .ok es

/-- So is the mirror of the storage `s`. -/
structure Mirrors (s : WALStorage) (L : Layout) : Prop
    extends Backs s.w L s.hs s.entries where
  base : s.w.metadata.latestSnapshotIndex = s.baseIndex
  next : s.w.nextLogIndex = s.lastIndex + 1

theorem reopen_holds {d : Dir} {L : Layout} {m : Metadata} {hs : HardState}
    {es : List Entry} (h : Holds d L) (hc : Consistent L.items m) {maxSize : Nat}
    (hmax : maxSize ≠ 0) (hhard : initialHardState (lastHardState L.items) = .ok hs)
    (hlog : decodeRecords (served (m.latestSnapshotIndex + 1) L.items) = .ok es)
    (nodeID : Bytes) :
    ∃ c k, L.ids.getLast? = some c ∧
      (logIndices L.items).filter (m.latestSnapshotIndex < ·) =
        range' (m.latestSnapshotIndex + 1) k ∧
      reopen d maxSize nodeID = .ok ⟨⟨d, maxSize, c, m, m.latestSnapshotIndex + k + 1,
        m.latestSnapshotIndex + 1, lastHardState L.items⟩, hs, m.latestSnapshotIndex, es⟩ := by
  obtain ⟨c, k, report, hc, hk, hopen⟩ := openWAL_holds h hc hmax nodeID
  refine ⟨c, k, hc, hk, ?_⟩
  simp only [reopen, hopen, openWALStorage, hhard, WAL.replay,
    replay_written h.written h.fit, hlog, Nat.add_sub_cancel]

namespace Readable

variable {d : Dir} {L : Layout} {m : Metadata} {hs : HardState} {es : List Entry}

theorem reopens (h : Readable d L m hs es) {maxSize : Nat} (hmax : maxSize ≠ 0) :
    ReopensTo d maxSize (hs, m.latestSnapshotIndex, es) := by
  intro nodeID
  obtain ⟨c, k, -, -, hopen⟩ := reopen_holds h.holds h.consistent hmax h.hard h.log nodeID
  rw [hopen]
  rfl

theorem rehold (h : Readable d L m hs es) {d' : Dir} (hd : Holds d' L) :
    Readable d' L m hs es :=
  { h with holds := hd }

theorem length_live (h : Readable d L m hs es) {k : Nat}
    (hk : (logIndices L.items).filter (m.latestSnapshotIndex < ·) =
      range' (m.latestSnapshotIndex + 1) k) : es.length = k := by
  rw [length_of_decodeRecords h.log, ← length_map (·.index), map_index_served, hk, length_range']

theorem restart (h : Readable d L m hs es) {maxSize : Nat} (hmax : maxSize ≠ 0)
    (nodeID : Bytes) :
    ∃ s, reopen d maxSize nodeID = .ok s ∧ Mirrors s L := by
  obtain ⟨c, k, hc, hk, hopen⟩ := reopen_holds h.holds h.consistent hmax h.hard h.log nodeID
  have hlen := h.length_live hk
  refine ⟨_, hopen, ⟨⟨⟨⟨h.holds, hc⟩, h.consistent.last, rfl, rfl, h.consistent.version,
    h.consistent.generation, h.nodeID, h.increasing, ?_, ?_, hmax⟩, h.ordered, h.hard,
    h.hardFits, h.log⟩, rfl, ?_⟩⟩
  · -- an index is covered by the pointer or one of the live ones
    intro i hi
    change i < m.latestSnapshotIndex + k + 1
    by_cases hle : m.latestSnapshotIndex < i
    · have : i ∈ (logIndices L.items).filter (m.latestSnapshotIndex < ·) :=
        mem_filter.mpr ⟨hi, decide_eq_true hle⟩
      rw [hk, mem_range'_1] at this
      omega
    · omega
  · change (logIndices L.items).filter (m.latestSnapshotIndex < ·) =
      range' (m.latestSnapshotIndex + 1)
        (m.latestSnapshotIndex + k + 1 - (m.latestSnapshotIndex + 1))
    rw [hk]
    congr 1
    omega
  · change m.latestSnapshotIndex + k + 1 = m.latestSnapshotIndex + es.length + 1
    rw [hlen]

theorem create (h : Readable d L m hs es) {d' : Dir} {next : Nat}
    (hd : Holds d' (L ++ [(next, [])]))
    (hM : Ordered (L ++ [(next, [])]) m.latestSnapshotIndex) :
    Readable d' (L ++ [(next, [])]) m hs es := by
  have hitems : items (L ++ [(next, [])]) = L.items := by simp
  refine ⟨hd, ?_, h.nodeID, ?_, hM, ?_, h.hardFits, ?_⟩ <;> rw [hitems]
  · exact h.consistent
  · exact h.increasing
  · exact h.hard
  · exact h.log

theorem front (h : Readable d L m hs es) {d' : Dir} {M : Layout} {rest : List Item}
    (hd : Holds d' M) (hsplit : L.items = M.items ++ rest) (hlog : LogOnly rest)
    (hM : Ordered M m.latestSnapshotIndex) :
    ∃ kept, Readable d' M m hs kept := by
  have hc := h.consistent
  have hlast := hc.last
  have hinc := h.increasing
  have hhard := h.hard
  have hdecode := h.log
  rw [hsplit] at hc hlast hinc hhard hdecode
  rw [hlog.lastMetadata_append] at hlast
  rw [hlog.lastHardState_append] at hhard
  rw [logIndices_append, pairwise_append] at hinc
  rw [served_append] at hdecode
  exact ⟨_, hd, hc.front hlast, h.nodeID, hinc.1, hM, hhard, h.hardFits,
    (decodeRecords_split hdecode).1⟩

end Readable

/-- The converse: what a restart can only read back from these records. -/
theorem ReopensTo.consistent {d : Dir} {L : Layout} {maxSize : Nat}
    {st : HardState × Nat × List Entry} (hr : ReopensTo d maxSize st) (h : Holds d L) :
    ∃ m, lastMetadata L.items = some m ∧ m.latestSnapshotIndex = st.2.1 := by
  have hr := hr []
  cases hopen : openWAL d maxSize [] with
  | error e => simp [reopen, hopen, Except.map] at hr
  | ok p =>
    obtain ⟨hm, hfirst⟩ := openWAL_written_inv h.written h.fit h.ne_nil hopen
    refine ⟨p.1.metadata, hm, ?_⟩
    cases hs : openWALStorage p.1 with
    | error e => simp [reopen, hopen, hs, Except.map] at hr
    | ok s =>
      have hstate : s.state = st := by simpa [reopen, hopen, hs, Except.map] using hr
      have hbase : s.baseIndex = p.1.firstLogIndex - 1 := by
        unfold openWALStorage at hs
        split at hs
        · cases hs
        · split at hs
          · cases hs
          · split at hs
            · cases hs
            · rw [← Except.ok.inj hs]
      rw [← hstate]
      change p.1.metadata.latestSnapshotIndex = s.baseIndex
      omega

/-! ## Calls that keep the mirror -/

/-- A call took `s` to `s'` by `ops` within one boundary: the new storage mirrors
its directory, and a crash between any two of the operations leaves a readable
directory with that boundary. -/
structure Yields (s : WALStorage) (ops : List FileOp) (s' : WALStorage) : Prop where
  dir : s'.w.dir = perform applyOp s.w.dir ops
  mirrors : ∃ L, Mirrors s' L
  base : s'.baseIndex = s.baseIndex
  images : ∀ d ∈ crashImages applyOp s.w.dir ops, ∃ L m hs es, Readable d L m hs es ∧
    m.latestSnapshotIndex = s.baseIndex

theorem Yields.trans {s s' s'' : WALStorage} {a b : List FileOp} (h : Yields s a s')
    (h' : Yields s' b s'') : Yields s (a ++ b) s'' where
  dir := by rw [perform_append, ← h.dir, h'.dir]
  mirrors := h'.mirrors
  base := h'.base.trans h.base
  images d hd := by
    rw [mem_crashImages_append, ← h.dir] at hd
    exact hd.elim (h.images d) (h.base ▸ h'.images d)

theorem served_hardState (b : Nat) (its : List Item) (p : Bytes) :
    served b (its ++ [.hardState p]) = served b its := by
  simp [served, record]

theorem served_metadata (b : Nat) (its : List Item) (m : Metadata) :
    served b (its ++ [.metadata m]) = served b its := by
  simp [served, record]

theorem initialHardState_encode {hs : HardState} (h : HardStateFits hs) :
    initialHardState (some (encodeHardState hs)) = .ok hs := by
  have hne : encodeHardState hs ≠ [] := by
    rw [← length_pos_iff, length_encodeHardState]
    omega
  simp [initialHardState, hne, decodeHardState_encodeHardState h]

theorem HardStateFits.item {hs : HardState} (h : HardStateFits hs) :
    (hardState (encodeHardState hs)).Fits :=
  fits_hardState (by rw [length_encodeHardState]; exact h.vote_le)

namespace Backs

variable {w : WAL} {L : Layout} {hs : HardState} {es : List Entry}

theorem readable (h : Backs w L hs es) : Readable w.dir L w.metadata hs es where
  holds := h.coherent.toHolds
  consistent := h.coherent.consistent
  nodeID := h.coherent.nodeID
  increasing := h.coherent.increasing
  ordered := h.ordered
  hard := h.coherent.hardState ▸ h.hard
  hardFits := h.hardFits
  log := h.log

theorem append_image (h : Backs w L hs es) {it : Item} (hit : it.Fits) {d : Dir}
    (hd : d ∈ crashImages applyOp w.dir (w.appendOps it)) :
    (∃ M, Readable d M w.metadata hs es) ∨ Holds d (w.appended L it) := by
  rcases h.coherent.toLaidOut.append_images hit hd with hd | hd | hd
  · exact .inl ⟨L, h.readable.rehold hd⟩
  · exact .inl ⟨_, h.readable.create hd
      (h.ordered.create h.coherent.below h.coherent.next_anchored)⟩
  · exact .inr hd

theorem sync (h : Backs w L hs es) : Backs (w.perform w.syncOps) L hs es :=
  { h with coherent := h.coherent.sync }

theorem append_sync_image (h : Backs w L hs es) {it : Item} (hit : it.Fits) {w' : WAL}
    {hs' : HardState} {es' : List Entry} (h' : Backs w' (w.appended L it) hs' es')
    (hdir : w'.dir = perform applyOp w.dir (w.appendOps it)) {d : Dir}
    (hd : d ∈ crashImages applyOp w.dir (w.appendOps it ++ w'.syncOps)) :
    (∃ M, Readable d M w.metadata hs es) ∨ ∃ M, Readable d M w'.metadata hs' es' := by
  rw [mem_crashImages_append, ← hdir] at hd
  simp only [WAL.syncOps, crashImages_cons, crashImages_nil, mem_cons, not_mem_nil, or_false] at hd
  rcases hd with hd | rfl | rfl
  · exact (h.append_image hit hd).imp_right fun hd => ⟨_, h'.readable.rehold hd⟩
  · exact .inr ⟨_, h'.readable⟩
  · exact .inr ⟨_, h'.sync.readable⟩

theorem appendHardState (h : Backs w L hs es) {hs' : HardState}
    (hfits : HardStateFits hs') :
    Backs { w.afterAppend (.hardState (encodeHardState hs')) with
        latestHardState := some (encodeHardState hs') }
      (w.appended L (.hardState (encodeHardState hs'))) hs' es where
  coherent := h.coherent.appendHardState hfits.item
  ordered := h.ordered.appended_coherent h.coherent (by simp)
  hard := initialHardState_encode hfits
  hardFits := hfits
  log := by
    rw [h.coherent.toLaidOut.items_appended, served_hardState]
    exact h.log

end Backs

def WALStorage.afterHardState (s : WALStorage) (hs : HardState) : WALStorage :=
  { s with
    w := { s.w.afterAppend (.hardState (encodeHardState hs)) with
      latestHardState := some (encodeHardState hs) }
    hs := hs }

theorem setHardState_eq {s : WALStorage} {L : Layout} (h : LaidOut s.w L) {hs : HardState}
    (hfits : HardStateFits hs) :
    s.setHardState hs = .ok
      (s.w.appendOps (.hardState (encodeHardState hs)) ++ (s.afterHardState hs).w.syncOps,
        { s.afterHardState hs with
          w := (s.afterHardState hs).w.perform (s.afterHardState hs).w.syncOps }) := by
  rw [setHardState, appendHardState_eq h hfits.item]
  rfl

namespace Mirrors

variable {s : WALStorage} {L : Layout}

theorem reopens (h : Mirrors s L) : ReopensTo s.w.dir s.w.segmentMaxSize s.state := by
  have := h.readable.reopens h.coherent.sized
  rwa [h.base] at this

theorem yields_append (h : Mirrors s L) {it : Item} (hit : it.Fits) {s' : WALStorage}
    (h' : Mirrors s' (s.w.appended L it)) (hbase : s'.baseIndex = s.baseIndex)
    (hdir : s'.w.dir = perform applyOp s.w.dir (s.w.appendOps it)) :
    Yields s (s.w.appendOps it) s' where
  dir := hdir
  mirrors := ⟨_, h'⟩
  base := hbase
  images d hd := by
    rcases h.append_image hit hd with ⟨M, hM⟩ | hd
    · exact ⟨M, _, _, _, hM, h.base⟩
    · exact ⟨_, _, _, _, h'.readable.rehold hd, h'.base.trans hbase⟩

theorem sync (h : Mirrors s L) : Mirrors { s with w := s.w.perform s.w.syncOps } L :=
  ⟨h.toBacks.sync, h.base, h.next⟩

theorem yields_nil (h : Mirrors s L) : Yields s [] s where
  dir := rfl
  mirrors := ⟨L, h⟩
  base := rfl
  images d hd := by
    obtain rfl := mem_singleton.mp hd
    exact ⟨_, _, _, _, h.readable, h.base⟩

theorem yields_sync (h : Mirrors s L) :
    Yields s s.w.syncOps { s with w := s.w.perform s.w.syncOps } where
  dir := rfl
  mirrors := ⟨L, h.sync⟩
  base := rfl
  images d hd := by
    simp only [WAL.syncOps, crashImages_cons, crashImages_nil, mem_cons,
      not_mem_nil, or_false] at hd
    rcases hd with rfl | rfl
    · exact ⟨_, _, _, _, h.readable, h.base⟩
    · exact ⟨_, _, _, _, h.sync.readable, h.base⟩

theorem afterHardState (h : Mirrors s L) {hs : HardState} (hfits : HardStateFits hs) :
    Mirrors (s.afterHardState hs)
      (s.w.appended L (.hardState (encodeHardState hs))) :=
  ⟨h.toBacks.appendHardState hfits, h.base, h.next⟩

theorem setHardState (h : Mirrors s L) {hs : HardState} (hfits : HardStateFits hs) :
    ∃ ops s', s.setHardState hs = .ok (ops, s') ∧ Yields s ops s' :=
  ⟨_, _, setHardState_eq h.coherent.toLaidOut hfits,
    (h.yields_append hfits.item (h.afterHardState hfits) rfl rfl).trans
      (h.afterHardState hfits).yields_sync⟩

theorem setClusterGeneration (h : Mirrors s L) {g : Nat} (hg : g ≤ maxSupportedGeneration) :
    ∃ ops w', s.w.setClusterGeneration g = .ok (ops, w') ∧
      Yields s ops { s with w := w' } := by
  by_cases hle : g ≤ s.w.metadata.clusterGeneration
  · exact ⟨[], s.w, by rw [WAL.setClusterGeneration, if_pos hle], h.yields_nil⟩
  · have hit : (metadata { s.w.metadata with clusterGeneration := g }).Fits :=
      fits_metadata
        ⟨h.coherent.nodeID, h.coherent.metadata_fits.snapshot_lt, lt_of_le_of_lt hg (by decide)⟩
    have hc := h.coherent.appendMetadata hit le_rfl h.coherent.version hg
    simp only [← h.coherent.first] at hc
    have hm : Mirrors { s with w := { s.w.afterAppend
        (.metadata { s.w.metadata with clusterGeneration := g }) with
          metadata := { s.w.metadata with clusterGeneration := g } } }
        (s.w.appended L (.metadata { s.w.metadata with clusterGeneration := g })) := {
      coherent := hc
      ordered := h.ordered.appended_coherent h.coherent (by rintro m ⟨⟩; exact le_rfl)
      hard := h.hard
      hardFits := h.hardFits
      log := by
        rw [h.coherent.toLaidOut.items_appended, served_metadata]
        exact h.log
      base := h.base
      next := h.next }
    refine ⟨_, _, ?_, (h.yields_append hit hm rfl rfl).trans hm.yields_sync⟩
    rw [WAL.setClusterGeneration, if_neg hle, if_neg (Nat.not_lt.mpr hg),
      appendMetadata_eq h.coherent.toLaidOut hit]
    rfl

private theorem appendEntry (h : Mirrors s L) {e : Entry} (hfits : EntryFits e)
    (hindex : e.index = s.lastIndex + 1) (hrange : e.index < 2 ^ 64) :
    ∃ ops w', s.w.appendLogEntry (encodeEntryPayload e.term e.type e.data) =
        .ok (ops, w', s.w.nextLogIndex) ∧
      Yields s ops { s with w := w', entries := s.entries ++ [e] } := by
  set payload := encodeEntryPayload e.term e.type e.data
  have hnext : s.w.nextLogIndex = e.index := by rw [h.next, hindex]
  have hit : (entry s.w.nextLogIndex payload).Fits :=
    fits_entry (by omega) ((length_encodeEntryPayload_le e).trans hfits.data_le)
  have hdecode : decodeRecords (served (s.baseIndex + 1)
      [entry s.w.nextLogIndex payload]) = .ok [e] := by
    have hserved : s.baseIndex + 1 ≤ s.w.nextLogIndex := by
      rw [h.next, lastIndex]
      omega
    have hone : served (s.baseIndex + 1) [entry s.w.nextLogIndex payload] =
        [⟨.logEntry, e.index, payload⟩] := by
      rw [hnext] at hserved ⊢
      exact filter_cons_of_pos (by simpa [record] using hserved)
    have hpay : decodeEntryPayload payload = .ok (e.term, e.type, e.data) :=
      decodeEntryPayload_encodeEntryPayload hfits
    simp [hone, decodeRecords, decodeRecord, hpay]
  refine ⟨_, _, appendLogEntry_eq h.coherent.toLaidOut hit, h.yields_append hit ?_ rfl rfl⟩
  exact {
    coherent := h.coherent.appendLogEntry hit
    ordered := h.ordered.appended_coherent h.coherent (by simp)
    base := h.base
    next := by
      have := h.next
      simp only [lastIndex, length_append, length_singleton] at this ⊢
      omega
    hard := h.hard
    hardFits := h.hardFits
    log := by
      rw [h.coherent.toLaidOut.items_appended, served_append]
      exact decodeRecords_append h.log (h.base ▸ hdecode) }

private theorem appendEntries (h : Mirrors s L) {es : List Entry}
    (hfits : ∀ e ∈ es, EntryFits e)
    (hcontig : checkContiguous (s.lastIndex + 1) es = .ok ())
    (hrange : s.lastIndex + es.length < 2 ^ 64) :
    ∃ ops w', appendEntries s.w es = .ok (ops, w') ∧
      Yields s ops { s with w := w', entries := s.entries ++ es } := by
  induction es generalizing s L with
  | nil => exact ⟨[], s.w, rfl, by simpa using h.yields_nil⟩
  | cons e es ih =>
    have hindex : e.index = s.lastIndex + 1 := by
      by_contra hne
      simp [checkContiguous, hne] at hcontig
    simp only [length_cons] at hrange
    obtain ⟨ops, w', happend, hy⟩ :=
      h.appendEntry (hfits e mem_cons_self) hindex (by omega)
    obtain ⟨L', h'⟩ := hy.mirrors
    have hlast : ({ s with w := w', entries := s.entries ++ [e] } : WALStorage).lastIndex =
        s.lastIndex + 1 := by
      simp [lastIndex]
      omega
    obtain ⟨more, w'', hmore, hy'⟩ := ih h'
      (fun x hx => hfits x (mem_cons_of_mem _ hx))
      (by
        rw [hlast]
        simpa [checkContiguous, hindex] using hcontig)
      (by rw [hlast]; omega)
    refine ⟨ops ++ more, w'', ?_, by simpa using hy.trans hy'⟩
    have hassigned : e.index = s.w.nextLogIndex := by rw [hindex, h.next]
    simp only [appendEntries, happend, hassigned, ne_eq, not_true_eq_false, if_false]
    simp only [] at hmore
    rw [hmore]

theorem append (h : Mirrors s L) {es : List Entry} (hfits : ∀ e ∈ es, EntryFits e)
    (hcontig : WALStorage.checkContiguous (s.lastIndex + 1) es = .ok ())
    (hrange : s.lastIndex + es.length < 2 ^ 64) :
    ∃ ops s', s.append es = .ok (ops, s') ∧ Yields s ops s' := by
  by_cases hnil : es = []
  · exact ⟨[], s, by rw [WALStorage.append, if_pos hnil], h.yields_nil⟩
  · obtain ⟨ops, w', happend, hy⟩ := h.appendEntries hfits hcontig hrange
    obtain ⟨L', h'⟩ := hy.mirrors
    refine ⟨ops ++ w'.syncOps, _, ?_, hy.trans h'.yields_sync⟩
    simp only [WALStorage.append, if_neg hnil, hcontig, happend]

private theorem truncate_within (h : Mirrors s L) {i : Nat} (hbase : s.baseIndex < i)
    (hle : i ≤ s.lastIndex) (hlog : s.w.onlyLogFrom i) :
    ∃ ops s', s.truncate i = .ok (ops, s') ∧ Yields s ops s' := by
  have hnext := h.next
  have hb := h.base
  have hmem : i ∈ logIndices L.items := by
    refine mem_of_mem_filter (p := (s.w.metadata.latestSnapshotIndex < ·)) ?_
    rw [h.coherent.live, mem_range'_1]
    omega
  obtain ⟨A, t, pre, p, post, B, rfl, hpre, -⟩ := exists_target hmem h.coherent.increasing
  have hfresh : i ∉ logIndices (A.items ++ pre) := fun hc => lt_irrefl i (hpre i hc)
  have hlog := (h.coherent.toLaidOut.onlyLogFrom_iff hfresh).mp hlog
  have hcut := h.coherent.truncate hpre hlog
  simp only [logIndices_append, mem_append, not_or] at hfresh
  have htruncate := truncate_eq h.coherent.toLaidOut (by omega) (by omega)
    hfresh.1 hfresh.2
  have hitems : items (A ++ [(t, pre)]) = A.items ++ pre := by simp
  have hlen : (served (s.baseIndex + 1) (A.items ++ pre)).length = i - s.baseIndex - 1 := by
    have hlive := congrArg length hcut.live
    rw [← map_index_served, length_map, length_range', hitems] at hlive
    change (served (s.w.metadata.latestSnapshotIndex + 1) (A.items ++ pre)).length =
      i - (s.w.metadata.latestSnapshotIndex + 1) at hlive
    rw [hb] at hlive
    omega
  have hmirrors : Mirrors { s with
      w := { s.w.perform (truncateOps B t pre) with current := t, nextLogIndex := i }
      entries := s.entries.take (i - s.baseIndex - 1) } (A ++ [(t, pre)]) := {
    coherent := hcut
    ordered := h.ordered.cut
    base := h.base
    next := by
      simp only [lastIndex, length_take] at hle ⊢
      omega
    hard := h.hard
    hardFits := h.hardFits
    log := by
      have := h.log
      rw [items_target, served_append] at this
      have := (decodeRecords_split this).1
      rw [hb, hlen, ← hitems] at this
      change decodeRecords (served (s.w.metadata.latestSnapshotIndex + 1) _) = _
      rw [hb]
      exact this }
  refine ⟨truncateOps B t pre, _, ?_, rfl, ⟨_, hmirrors⟩, rfl, fun d hd => ?_⟩
  · simp only [truncate, htruncate, if_neg (Nat.not_le.mpr hbase)]
  · rcases h.coherent.toLaidOut.truncate_images hd with ⟨k, hk⟩ | hd
    · -- some of the newer segments are gone
      have hsplit : A ++ (t, pre ++ entry i p :: post) :: B =
          (A ++ (t, pre ++ .entry i p :: post) :: B.take k) ++ B.drop k := by
        simp
      obtain ⟨kept, hread⟩ := h.readable.front hk
        (by
          conv_lhs => rw [hsplit]
          exact items_append ..)
        (fun it hit => hlog it (mem_append_right _ (by
          rw [← take_append_drop k B, items_append]
          exact mem_append_right _ hit)))
        (Ordered.front (hsplit ▸ h.ordered))
      exact ⟨_, _, _, _, hread, hb⟩
    · exact ⟨_, _, _, _, hmirrors.readable.rehold hd, hb⟩

theorem truncate (h : Mirrors s L) {i : Nat} (hbase : s.baseIndex < i)
    (hle : i ≤ s.lastIndex + 1) (hlog : i ≤ s.lastIndex → s.w.onlyLogFrom i) :
    ∃ ops s', s.truncate i = .ok (ops, s') ∧ Yields s ops s' := by
  by_cases hin : i ≤ s.lastIndex
  · exact h.truncate_within hbase hin (hlog hin)
  · have hnext : s.w.nextLogIndex = i := by rw [h.next]; omega
    have hsame : s.w.truncate i = .ok ([], s.w) := by
      rw [WAL.truncate, if_neg (by omega), if_pos hnext.le, ← hnext]
    refine ⟨[], s, ?_, h.yields_nil⟩
    simp only [WALStorage.truncate, hsame, if_neg (Nat.not_le.mpr hbase)]
    rw [take_of_length_le]
    simp only [WALStorage.lastIndex] at hin
    omega

end Mirrors

end ChronicleDB.Node
