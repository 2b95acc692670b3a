import ChronicleDB.Node.Install
import ChronicleDB.Snapshot.Manager

/-!
# Local snapshots

`maybeSnapshot` of `internal/node/node.go`, on a disk that holds the WAL
segments and the snapshot files, and the recovery that `Open` performs on such a
disk.  A local snapshot keeps the log above its boundary, so only one layout is
dangerous: the boundary is the end of the log, no extra segment is retained, and
the repeated hard state opened a segment of its own.
-/

namespace ChronicleDB.Node

open Foundation Raft Wal Snapshots List

/-! ## The disk of a node -/

structure Disk where
  wal : Dir
  snaps : Files
  deriving DecidableEq, Repr

inductive DiskOp where
  | wal (op : Wal.FileOp)
  | snap (op : Snapshots.FileOp)
  deriving DecidableEq, Repr

def applyDiskOp (d : Disk) : DiskOp → Disk
  | .wal op => { d with wal := Wal.applyOp d.wal op }
  | .snap op => { d with snaps := Snapshots.applyOp d.snaps op }

theorem mem_images_wal {d : Disk} {wal : Dir} {snaps : Files} {ops : List Wal.FileOp} :
    d ∈ crashImages applyDiskOp ⟨wal, snaps⟩ (ops.map .wal) ↔
      ∃ dir ∈ crashImages Wal.applyOp wal ops, (⟨dir, snaps⟩ : Disk) = d :=
  mem_crashImages_map (g := fun dir => (⟨dir, snaps⟩ : Disk)) fun _ _ => rfl

theorem mem_images_snap {d : Disk} {wal : Dir} {snaps : Files}
    {ops : List Snapshots.FileOp} :
    d ∈ crashImages applyDiskOp ⟨wal, snaps⟩ (ops.map .snap) ↔
      ∃ files ∈ crashImages Snapshots.applyOp snaps ops, (⟨wal, files⟩ : Disk) = d :=
  mem_crashImages_map (g := fun files => (⟨wal, files⟩ : Disk)) fun _ _ => rfl

theorem perform_wal {wal : Dir} {snaps : Files} {ops : List Wal.FileOp} :
    perform applyDiskOp ⟨wal, snaps⟩ (ops.map .wal) =
      ⟨perform Wal.applyOp wal ops, snaps⟩ :=
  perform_map (g := fun dir => (⟨dir, snaps⟩ : Disk)) fun _ _ => rfl

theorem perform_snap {wal : Dir} {snaps : Files} {ops : List Snapshots.FileOp} :
    perform applyDiskOp ⟨wal, snaps⟩ (ops.map .snap) =
      ⟨wal, perform Snapshots.applyOp snaps ops⟩ :=
  perform_map (g := fun files => (⟨wal, files⟩ : Disk)) fun _ _ => rfl

/-! ## Recovery -/

inductive NodeError where
  | wal (e : OpenError)
  | recoveryGap (firstIndex covered : Nat)
  | storage (e : StorageError)
  deriving DecidableEq, Repr

structure Opened (F : Type) where
  storage : WALStorage
  pointer : Nat
  snapshot : Option (Snapshot F)
  baseIndex : Nat
  baseTerm : Nat
  hs : HardState
  entries : List Entry

def openNode {F : Type} (codec : FSMCodec F) (d : Disk) (maxSize : Nat) (nodeID : Bytes) :
    Except NodeError (Opened F) :=
  match openWAL d.wal maxSize nodeID with
  | .error e => .error (.wal e)
  | .ok (w, _) =>
    let pointer := w.metadata.latestSnapshotIndex
    let snap := load codec pointer d.snaps
    let baseIndex := snap.elim 0 (·.info.lastIncludedIndex)
    let baseTerm := snap.elim 0 (·.info.lastIncludedTerm)
    if w.firstLogIndex > baseIndex + 1 then .error (.recoveryGap w.firstLogIndex baseIndex)
    else match openWALStorage w with
      | .error e => .error (.storage e)
      | .ok st =>
        .ok ⟨st, pointer, snap, baseIndex, baseTerm, st.hs,
          st.entries.drop (baseIndex - st.baseIndex)⟩

theorem openWAL_of_openNode {F : Type} {codec : FSMCodec F} {d : Disk} {maxSize : Nat}
    {nodeID : Bytes} {o : Opened F} (h : openNode codec d maxSize nodeID = .ok o) :
    ∃ p, openWAL d.wal maxSize nodeID = .ok p := by
  cases hopen : openWAL d.wal maxSize nodeID with
  | error e => simp [openNode, hopen] at h
  | ok p => exact ⟨p, rfl⟩

/-! ## maybeSnapshot -/

/-- The fields of a node that snapshots read: the storage and the snapshot
directory, what the core answers, and the options. -/
structure NodeState (F : Type) where
  storage : WALStorage
  snaps : Files
  snapshotIndex : Nat
  appliedIndex : Nat
  termAtApplied : Nat
  configAtApplied : Configuration
  fsm : F
  snapshotWriteVersion : UInt8
  snapshotThreshold : Nat
  walRetainExtraSegments : Nat
  snapshotRetainCount : Nat

namespace NodeState

variable {F : Type}

def disk (n : NodeState F) : Disk := ⟨n.storage.w.dir, n.snaps⟩

def snapshotMeta (n : NodeState F) : Meta :=
  ⟨n.appliedIndex, n.termAtApplied, true, n.configAtApplied⟩

/-- The distance is unsigned. -/
def belowThreshold (n : NodeState F) : Prop :=
  (n.appliedIndex + 2 ^ 64 - n.snapshotIndex) % 2 ^ 64 < n.snapshotThreshold

instance (n : NodeState F) : Decidable n.belowThreshold :=
  inferInstanceAs (Decidable (_ < _))

/-- `none` stands for the panic of `Encode`. An error on the way ends the attempt
and keeps what was done. -/
def maybeSnapshot (codec : FSMCodec F) (n : NodeState F) : Option (List DiskOp × NodeState F) :=
  if n.belowThreshold then some ([], n)
  else
    let upto := n.appliedIndex
    match encode codec n.snapshotMeta n.fsm n.snapshotWriteVersion with
    | none => none
    | some data =>
      let create : List DiskOp := [.snap (.write upto data)]
      let n := { n with snaps := Snapshots.applyOp n.snaps (.write upto data) }
      match n.storage.w.appendMetadataSnapshot upto with
      | .error _ => some (create, n)
      | .ok (pointer, w) =>
        -- the core and the mirror are compacted in memory
        let storage := { n.storage with w := w }.compact upto
        let n := { n with snapshotIndex := upto, storage := storage }
        match n.storage.reaffirm with
        | .error _ => some (create ++ pointer.map .wal, n)
        | .ok (reaffirm, storage) =>
          let n := { n with storage := storage }
          match n.storage.w.compactBeforeRetaining upto n.walRetainExtraSegments with
          | .error _ => some (create ++ (pointer ++ reaffirm).map .wal, n)
          | .ok (compact, w) =>
            let removed := prune n.snapshotRetainCount upto n.snaps
            some (create ++ ((pointer ++ reaffirm ++ compact).map .wal ++
                removed.map .snap),
              { n with
                storage := { n.storage with w := w }
                snaps := perform Snapshots.applyOp n.snaps removed })

end NodeState

/-- Wherever `maybeSnapshot` stops, and after it, a restart finds the old or the
new boundary with its snapshot, the hard state and every entry above it. -/
def SnapshotSafe {F : Type} (codec : FSMCodec F) (n : NodeState F) : Prop :=
  ∃ ops n', n.maybeSnapshot codec = some (ops, n') ∧
    ∀ d ∈ crashImages applyDiskOp n.disk ops, ∀ nodeID,
      ∃ o, openNode codec d n.storage.w.segmentMaxSize nodeID = .ok o ∧
        (o.pointer = n.storage.baseIndex ∨ o.pointer = n.appliedIndex) ∧
        (o.pointer ≠ 0 → ∃ s, o.snapshot = some s ∧ s.info.lastIncludedIndex = o.pointer) ∧
        o.baseIndex = o.pointer ∧ o.hs = n.storage.hs ∧
        o.entries = n.storage.entries.drop (o.pointer - n.storage.baseIndex)

/-! ## When it is safe -/

/-- A node between two steps: its storage mirrors its directory, the snapshot of
the boundary is on disk, and what has been applied lies in the log. -/
structure NodeState.Sound {F : Type} (codec : FSMCodec F) (n : NodeState F) (L : Layout)
    (snap : Option (Snapshot F)) : Prop where
  mirrors : Mirrors n.storage L
  covers : Covers codec n.snaps n.storage.baseIndex snap
  boundary : n.snapshotIndex = n.storage.baseIndex
  applied_ge : n.storage.baseIndex ≤ n.appliedIndex
  applied_le : n.appliedIndex ≤ n.storage.lastIndex
  threshold : n.snapshotThreshold ≠ 0
  version : n.snapshotWriteVersion = 1 ∨ n.snapshotWriteVersion = 2
  fits : (Snapshot.mk n.snapshotMeta n.fsm).Fits codec

/-- A disk from which a restart reads hard state `hs`, boundary `base` with its
snapshot, and log `es`. -/
def DiskHolds {F : Type} (codec : FSMCodec F) (d : Disk) (hs : HardState) (base : Nat)
    (es : List Entry) : Prop :=
  ∃ M m snap, Readable d.wal M m hs es ∧ Covers codec d.snaps base snap ∧
    m.latestSnapshotIndex = base

theorem openNode_readable {F : Type} {codec : FSMCodec F} {d : Disk} {M : Layout}
    {m : Metadata} {hs : HardState} {es : List Entry} {snap : Option (Snapshot F)}
    (h : Readable d.wal M m hs es) (hc : Covers codec d.snaps m.latestSnapshotIndex snap)
    {maxSize : Nat} (hmax : maxSize ≠ 0) (nodeID : Bytes) :
    ∃ o, openNode codec d maxSize nodeID = .ok o ∧
      o.pointer = m.latestSnapshotIndex ∧ o.snapshot = snap ∧
      o.baseIndex = m.latestSnapshotIndex ∧
      o.baseTerm = snap.elim 0 (·.info.lastIncludedTerm) ∧ o.hs = hs ∧ o.entries = es ∧
      ∃ L, Mirrors o.storage L ∧ o.storage.w.dir = d.wal ∧
        o.storage.w.segmentMaxSize = maxSize ∧ o.storage.state = (hs, o.pointer, es) := by
  obtain ⟨c, k, report, -, -, hopen⟩ := openWAL_holds h.holds h.consistent hmax nodeID
  obtain ⟨s, hreopen, hmirror⟩ := h.restart hmax nodeID
  have hstate := h.reopens hmax nodeID
  rw [hreopen] at hstate
  have hbase : (snap.elim 0 (·.info.lastIncludedIndex)) = m.latestSnapshotIndex := by
    by_cases hzero : m.latestSnapshotIndex = 0
    · rw [hc.zero hzero, hzero]
      rfl
    · obtain ⟨data, s, rfl, -, htrusted⟩ := hc.file hzero
      exact trusted_index htrusted
  simp only [reopen, hopen] at hreopen
  cases hst : openWALStorage ⟨d.wal, maxSize, c, m, m.latestSnapshotIndex + k + 1,
      m.latestSnapshotIndex + 1, lastHardState M.items⟩ with
  | error e => simp [hst] at hreopen
  | ok st =>
    obtain rfl : st = s := by simpa [hst] using hreopen
    have hstate' : st.state = (hs, m.latestSnapshotIndex, es) := by
      simpa [Except.map] using hstate
    simp only [WALStorage.state, Prod.mk.injEq] at hstate'
    obtain ⟨hhs, hb, hes⟩ := hstate'
    have hw : st.w = ⟨d.wal, maxSize, c, m, m.latestSnapshotIndex + k + 1,
        m.latestSnapshotIndex + 1, lastHardState M.items⟩ := by
      unfold openWALStorage at hst
      split at hst
      · cases hst
      · split at hst
        · cases hst
        · split at hst
          · cases hst
          · rw [← Except.ok.inj hst]
    refine ⟨⟨st, m.latestSnapshotIndex, snap, m.latestSnapshotIndex,
      snap.elim 0 (·.info.lastIncludedTerm), st.hs,
      st.entries.drop (m.latestSnapshotIndex - st.baseIndex)⟩,
      ?_, rfl, rfl, rfl, rfl, hhs, ?_, M, hmirror, ?_, ?_, ?_⟩
    · simp only [openNode, hopen, hc.load_eq, hbase, hst, gt_iff_lt, lt_irrefl, if_false]
    · simp [hb, hes]
    · rw [hw]
    · rw [hw]
    · simp [WALStorage.state, hhs, hb, hes]

namespace NodeState.Sound

variable {F : Type} {codec : FSMCodec F} {n : NodeState F} {L : Layout}
  {snap : Option (Snapshot F)}

theorem base_lt_applied (h : n.Sound codec L snap) (hrun : ¬n.belowThreshold) :
    n.storage.baseIndex < n.appliedIndex := by
  have hge := h.applied_ge
  have hthreshold := h.threshold
  rw [NodeState.belowThreshold, h.boundary] at hrun
  by_contra hle
  have heq : n.appliedIndex = n.storage.baseIndex := by omega
  rw [heq, Nat.add_sub_cancel_left] at hrun
  simp at hrun
  omega

theorem applied_lt (h : n.Sound codec L snap) : n.appliedIndex < 2 ^ 64 :=
  h.fits.info.index_lt

theorem maybeSnapshot_eq (h : n.Sound codec L snap) (hrun : ¬n.belowThreshold)
    {data : Bytes}
    (hdata : encode codec n.snapshotMeta n.fsm n.snapshotWriteVersion = some data) :
    ∃ P q Q, advancedLayout n.storage.w L n.appliedIndex n.storage.hs = P ++ q :: Q ∧
      (P ≠ [] → q.1 - 1 ≤ n.appliedIndex) ∧
      (∀ q' ∈ Q.head?, n.appliedIndex < q'.1 - 1) ∧
      let u := n.appliedIndex
      let w := advanced n.storage.w u n.storage.hs
      let snaps := Snapshots.applyOp n.snaps (.write u data)
      let ops := compactOps P n.walRetainExtraSegments
      let removed := prune n.snapshotRetainCount u snaps
      n.maybeSnapshot codec = some
        ([DiskOp.snap (.write u data)] ++ ((pointerOps n.storage.w u ++
            reaffirmOps (synced (pointed n.storage.w u)) n.storage.hs ++ ops).map .wal ++
            removed.map .snap),
          { n with
            snapshotIndex := u
            storage := ⟨w.perform ops, n.storage.hs, u,
              n.storage.entries.drop (u - n.storage.baseIndex)⟩
            snaps := perform Snapshots.applyOp snaps removed }) := by
  have hlt := h.base_lt_applied hrun
  have hu : n.storage.w.metadata.latestSnapshotIndex ≤ n.appliedIndex := by
    rw [h.mirrors.base]
    exact hlt.le
  have hback := h.mirrors.toBacks.advanced hu h.applied_lt
  have hlaid : LaidOut (synced (pointed n.storage.w n.appliedIndex)) _ :=
    (h.mirrors.toBacks.pointed hu h.applied_lt).sync.coherent.toLaidOut
  obtain ⟨P, q, Q, hsplit, hq, hQ, hcompact⟩ :=
    compact_eq hback.coherent.toLaidOut n.appliedIndex n.walRetainExtraSegments
  refine ⟨P, q, Q, hsplit, hq, hQ, ?_⟩
  have hreaffirm := reaffirm_eq
    (s := ⟨n.storage.w, n.storage.hs, n.appliedIndex,
      n.storage.entries.drop (n.appliedIndex - n.storage.baseIndex)⟩)
    hlaid h.mirrors.hardFits
  simp only at hreaffirm
  simp only [NodeState.maybeSnapshot, if_neg hrun, hdata,
    appendMetadataSnapshot_eq h.mirrors.coherent hu h.applied_lt, WALStorage.compact,
    if_neg (Nat.not_le.mpr hlt), hreaffirm]
  rw [advanced] at hcompact
  simp only [hcompact]
  rfl

theorem need_le (h : n.Sound codec L snap)
    (hlt : n.storage.baseIndex < n.appliedIndex)
    (hgood : ¬(Separates n.storage.w n.appliedIndex n.storage.hs ∧
      n.appliedIndex = n.storage.lastIndex ∧ n.walRetainExtraSegments = 0))
    {P Q : Layout} {q : Nat × List Item}
    (hsplit : advancedLayout n.storage.w L n.appliedIndex n.storage.hs = P ++ q :: Q)
    (hq : P ≠ [] → q.1 - 1 ≤ n.appliedIndex) :
    pairSegments n.storage.w n.appliedIndex n.storage.hs ≤
      min P.length n.walRetainExtraSegments + 1 + Q.length := by
  by_cases hsep : Separates n.storage.w n.appliedIndex n.storage.hs
  · have hu : n.storage.w.metadata.latestSnapshotIndex ≤ n.appliedIndex := by
      rw [h.mirrors.base]
      exact hlt.le
    rw [pairSegments, if_pos hsep]
    rw [advancedLayout_apart h.mirrors.coherent hu h.applied_lt hsep] at hsplit
    cases Q with
    | cons =>
      simp only [length_cons]
      omega
    | nil =>
      -- everything before the new segment is eligible, so the log ends here
      obtain ⟨rfl, hq'⟩ := append_inj' hsplit rfl
      obtain rfl : (n.storage.w.nextLogIndex, [hardStateItem n.storage.hs]) = q := by
        simpa using hq'
      obtain ⟨A, its, hA, -⟩ :=
        appended_last h.mirrors.coherent.toLaidOut (pointerItem n.storage.w n.appliedIndex)
      rw [hA] at hq ⊢
      have hend := hq (by simp)
      have hnext := h.mirrors.next
      have hle := h.applied_le
      simp only [length_append, length_singleton, length_nil]
      have : n.walRetainExtraSegments ≠ 0 := fun hzero =>
        hgood ⟨hsep, by simp only at hend; omega, hzero⟩
      omega
  · rw [pairSegments, if_neg hsep]
    omega

theorem maybeSnapshot (h : n.Sound codec L snap) (hrun : ¬n.belowThreshold)
    (hgood : ¬(Separates n.storage.w n.appliedIndex n.storage.hs ∧
      n.appliedIndex = n.storage.lastIndex ∧ n.walRetainExtraSegments = 0)) :
    ∃ ops n', n.maybeSnapshot codec = some (ops, n') ∧
      n'.disk = perform applyDiskOp n.disk ops ∧ (∃ M s, n'.Sound codec M s) ∧
      ∀ d ∈ crashImages applyDiskOp n.disk ops,
        DiskHolds codec d n.storage.hs n.storage.baseIndex n.storage.entries ∨
          DiskHolds codec d n.storage.hs n.appliedIndex
            (n.storage.entries.drop (n.appliedIndex - n.storage.baseIndex)) := by
  obtain ⟨data, file, hdata, hfits, hfile, -⟩ := trusted_encode h.version h.fits
  obtain ⟨P, q, Q, hsplit, hq, hQ, heq⟩ := h.maybeSnapshot_eq hrun hdata
  have hlt := h.base_lt_applied hrun
  have hb := h.mirrors.base
  have hu : n.storage.w.metadata.latestSnapshotIndex ≤ n.appliedIndex := hb ▸ hlt.le
  have hback := h.mirrors.toBacks.advanced hu h.applied_lt
  rw [hsplit, hb] at hback
  obtain ⟨himages, M, hfinal⟩ := hback.compact _ n.walRetainExtraSegments
    (fun S hS hlen => advanced_newest h.mirrors hu h.applied_lt (hsplit ▸ hS) hlen) hq
    (h.need_le hlt hgood hsplit hq)
  set snaps := Snapshots.applyOp n.snaps (.write n.appliedIndex data) with hsnaps
  have hold : Covers codec snaps n.storage.baseIndex snap := h.covers.write data hlt.ne'
  have hnew : Covers codec snaps n.appliedIndex (some file) :=
    Covers.written h.covers.sorted (by omega) hfile hfits
  refine ⟨_, _, heq, ?_, ⟨M, some file, ?_⟩, fun d hd => ?_⟩
  · rw [perform_append, perform_cons, perform_nil, perform_append]
    simp only [NodeState.disk, applyDiskOp, perform_wal, perform_snap]
    rw [perform_append, ← advanced_dir]
    rfl
  · exact {
      mirrors := ⟨hfinal, rfl, by
        have := h.mirrors.next
        have hle := h.applied_le
        change n.storage.w.nextLogIndex = _
        simp only [WALStorage.lastIndex, length_drop] at this hle ⊢
        omega⟩
      covers := hnew.prune_images _ perform_mem_crashImages
      boundary := rfl
      applied_ge := le_rfl
      applied_le := Nat.le_add_right ..
      threshold := h.threshold
      version := h.version
      fits := h.fits }
  · rw [mem_crashImages_append, perform_cons, perform_nil, crashImages_cons, crashImages_nil,
      mem_crashImages_append] at hd
    simp only [NodeState.disk, applyDiskOp, perform_wal, mem_cons, not_mem_nil, or_false] at hd
    rcases hd with (rfl | rfl) | hd | hd
    · exact .inl ⟨L, _, snap, h.mirrors.readable, h.covers, hb⟩
    · exact .inl ⟨L, _, snap, h.mirrors.readable, hold, hb⟩
    · obtain ⟨dir, hdir, rfl⟩ := mem_images_wal.mp hd
      rw [mem_crashImages_append, ← advanced_dir] at hdir
      rcases hdir with hdir | hdir
      · rcases h.mirrors.toBacks.advance_image hu h.applied_lt hdir with ⟨M, hM⟩ | ⟨M, hM⟩
        · exact .inl ⟨M, _, snap, hM, hold, hb⟩
        · rw [hb] at hM
          exact .inr ⟨M, _, some file, hM, hnew, rfl⟩
      · obtain ⟨M, hM⟩ := himages dir hdir
        exact .inr ⟨M, _, some file, hM, hnew, rfl⟩
    · obtain ⟨files, hfiles, rfl⟩ := mem_images_snap.mp hd
      refine .inr ⟨M, (advanced n.storage.w n.appliedIndex n.storage.hs).metadata, some file,
        ?_, hnew.prune_images _ hfiles, rfl⟩
      rw [perform_append, ← advanced_dir]
      exact hfinal.readable

/-- In the dangerous layout the last segment left holds the hard state alone. -/
private theorem not_snapshotSafe (h : n.Sound codec L snap) (hrun : ¬n.belowThreshold)
    (hsep : Separates n.storage.w n.appliedIndex n.storage.hs)
    (hend : n.appliedIndex = n.storage.lastIndex) (hretain : n.walRetainExtraSegments = 0) :
    ¬SnapshotSafe codec n := by
  obtain ⟨data, file, hdata, -⟩ := trusted_encode h.version h.fits
  obtain ⟨P, q, Q, hsplit, hq, hQ, heq⟩ := h.maybeSnapshot_eq hrun hdata
  have hb := h.mirrors.base
  have hu : n.storage.w.metadata.latestSnapshotIndex ≤ n.appliedIndex :=
    hb ▸ (h.base_lt_applied hrun).le
  have hback := h.mirrors.toBacks.advanced hu h.applied_lt
  rw [hsplit] at hback
  have hnext : n.storage.w.nextLogIndex ≤ n.appliedIndex + 1 := by rw [h.mirrors.next, hend]
  obtain rfl : Q = [] := hback.compacts_all hnext hQ
  rw [advancedLayout_apart h.mirrors.coherent hu h.applied_lt hsep] at hsplit
  obtain ⟨rfl, hq'⟩ := append_inj' hsplit rfl
  obtain rfl : (n.storage.w.nextLogIndex, [hardStateItem n.storage.hs]) = q := by
    simpa using hq'
  have hfinal := (hback.coherent.toHolds.compact (cons_ne_nil _ _) 0).2
  rintro ⟨ops, n', hrun', hall⟩
  rw [heq, Option.some.injEq, Prod.mk.injEq] at hrun'
  obtain ⟨rfl, -⟩ := hrun'
  obtain ⟨o, ho, -⟩ := hall _ perform_mem_crashImages []
  simp only [perform_append, perform_cons, perform_nil, NodeState.disk, applyDiskOp,
    perform_wal, perform_snap] at ho
  have hdir := advanced_dir n.storage.w n.appliedIndex n.storage.hs
  rw [perform_append] at hdir
  rw [← hdir, hretain] at ho
  obtain ⟨p, hopen⟩ := openWAL_of_openNode ho
  have hm := (openWAL_written_inv hfinal.written hfinal.fit hfinal.ne_nil hopen).1
  simp [hardStateItem, lastMetadata, Item.metadata?] at hm

theorem snapshotSafe_iff (h : n.Sound codec L snap) :
    SnapshotSafe codec n ↔ n.belowThreshold ∨
      ¬(Separates n.storage.w n.appliedIndex n.storage.hs ∧
        n.appliedIndex = n.storage.lastIndex ∧ n.walRetainExtraSegments = 0) := by
  have hsized := h.mirrors.coherent.sized
  have hopens : ∀ (d : Disk) (base : Nat),
      (base = n.storage.baseIndex ∨ base = n.appliedIndex) →
      DiskHolds codec d n.storage.hs base
        (n.storage.entries.drop (base - n.storage.baseIndex)) → ∀ nodeID,
      ∃ o, openNode codec d n.storage.w.segmentMaxSize nodeID = .ok o ∧
        (o.pointer = n.storage.baseIndex ∨ o.pointer = n.appliedIndex) ∧
        (o.pointer ≠ 0 → ∃ s, o.snapshot = some s ∧ s.info.lastIncludedIndex = o.pointer) ∧
        o.baseIndex = o.pointer ∧ o.hs = n.storage.hs ∧
        o.entries = n.storage.entries.drop (o.pointer - n.storage.baseIndex) := by
    rintro d base hbase ⟨M, m, file, hM, hcovers, rfl⟩ nodeID
    obtain ⟨o, ho, hpointer, hsnap, hbaseIndex, -, hhs, hentries, -⟩ :=
      openNode_readable hM hcovers hsized nodeID
    refine ⟨o, ho, hpointer ▸ hbase, fun hzero => ?_, by rw [hbaseIndex, hpointer], hhs,
      by rw [hentries, hpointer]⟩
    obtain ⟨bytes, s, hs, -, htrusted⟩ := hcovers.file (hpointer ▸ hzero)
    exact ⟨s, by rw [hsnap, hs], by rw [trusted_index htrusted, hpointer]⟩
  have hkeep : DiskHolds codec n.disk n.storage.hs n.storage.baseIndex
      (n.storage.entries.drop (n.storage.baseIndex - n.storage.baseIndex)) := by
    rw [Nat.sub_self, drop_zero]
    exact ⟨L, _, snap, h.mirrors.readable, h.covers, h.mirrors.base⟩
  constructor
  · intro hsafe
    by_contra hbad
    rw [not_or, not_not] at hbad
    obtain ⟨hrun, hsep, hend, hretain⟩ := hbad
    exact h.not_snapshotSafe hrun hsep hend hretain hsafe
  · intro hgood
    by_cases hrun : n.belowThreshold
    · refine ⟨[], n, if_pos hrun, fun d hd => ?_⟩
      obtain rfl := mem_singleton.mp hd
      exact hopens _ _ (.inl rfl) hkeep
    · obtain ⟨ops, n', heq, -, -, himages⟩ :=
        h.maybeSnapshot hrun (hgood.resolve_left hrun)
      refine ⟨ops, n', heq, fun d hd => ?_⟩
      rcases himages d hd with hd | hd
      · exact hopens d _ (.inl rfl) (by rwa [Nat.sub_self, drop_zero])
      · exact hopens d _ (.inr rfl) hd

end NodeState.Sound

end ChronicleDB.Node
