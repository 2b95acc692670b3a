import ChronicleDB.Node.Snapshot

/-!
# Runs of a node on its disk

The steps by which a node changes its disk, with crashes inside a step and
restarts from what the crash left.  A run keeps the node sound as long as each
truncation, installation and snapshot in it stays clear of the layouts in which
it drops a record that is still needed.
-/

namespace ChronicleDB.Node

open Foundation Raft Wal Snapshots Option Except WALStorage

variable {s s' : WALStorage} {ops : List Wal.FileOp} {config : Configuration}

/-! ## Steps -/

inductive Act (F : Type) where
  | setHardState (hs : HardState)
  | append (entries : List Entry)
  | truncate (fromIndex : Nat)
  | adoptClusterGeneration (generation : Nat)
  -- the core and the state machine move on; nothing is written
  | apply (index term : Nat) (config : Configuration) (fsm : F) (version : UInt8)
  | maybeSnapshot
  -- `advance` is the driver's own check, `config` what the core answers afterwards
  | handleInstallSnapshot (data : Bytes) (advance : Bool) (config : Configuration)

namespace NodeState

variable {F : Type}

def onStorage {ε : Type} (n : NodeState F) :
    Except ε (List Wal.FileOp × WALStorage) → Option (List DiskOp × NodeState F)
  | .error _ => none
  | .ok (ops, storage) => some (ops.map .wal, { n with storage := storage })

def handleInstallSnapshot (codec : FSMCodec F) (n : NodeState F) (data : Bytes)
    (advance : Bool) (config : Configuration) : Option (List DiskOp × NodeState F) :=
  match decode codec data with
  | .error _ => some ([], n)
  | .ok snap =>
    let upto := snap.info.lastIncludedIndex
    let create : List DiskOp := [.snap (.write upto data)]
    let n := { n with snaps := Snapshots.applyOp n.snaps (.write upto data) }
    if advance = false then some (create, n)
    else match n.storage.installSnapshot upto with
      | .error _ => none
      | .ok (install, storage) =>
        match storage.w.setClusterGeneration (codec.clusterGeneration snap.fsm) with
        | .error _ => none
        | .ok (adopt, w) =>
          let removed := prune n.snapshotRetainCount upto n.snaps
          some (create ++ ((install ++ adopt).map .wal ++ removed.map .snap),
            { n with
              storage := { storage with w := w }
              snaps := perform Snapshots.applyOp n.snaps removed
              snapshotIndex := upto
              appliedIndex := upto
              termAtApplied := snap.info.lastIncludedTerm
              configAtApplied := config
              fsm := snap.fsm })

/-- `none` stands for a panic and for a node that stops itself. -/
def act (codec : FSMCodec F) (n : NodeState F) : Act F → Option (List DiskOp × NodeState F)
  | .setHardState hs => n.onStorage (n.storage.setHardState hs)
  | .append entries => n.onStorage (n.storage.append entries)
  | .truncate fromIndex => n.onStorage (n.storage.truncate fromIndex)
  | .adoptClusterGeneration generation =>
    n.onStorage ((n.storage.w.setClusterGeneration generation).map fun p =>
      (p.1, { n.storage with w := p.2 }))
  | .apply index term config fsm version =>
    some ([], { n with
      appliedIndex := index
      termAtApplied := term
      configAtApplied := config
      fsm := fsm
      snapshotWriteVersion := version })
  | .maybeSnapshot => n.maybeSnapshot codec
  | .handleInstallSnapshot data advance config =>
    n.handleInstallSnapshot codec data advance config

structure Options where
  maxSize : Nat
  snapshotThreshold : Nat
  walRetainExtraSegments : Nat
  snapshotRetainCount : Nat

def defaultSnapshotThreshold : Nat := 4096

/-- `Open`; `fresh` is the empty state machine. -/
def restart (codec : FSMCodec F) (fresh : F) (d : Disk) (opts : Options) (nodeID : Bytes)
    (config : Configuration) (version : UInt8) : Except NodeError (NodeState F) :=
  match openNode codec d opts.maxSize nodeID with
  | .error e => .error e
  | .ok o => .ok {
      storage := o.storage
      snaps := d.snaps
      snapshotIndex := o.baseIndex
      appliedIndex := o.baseIndex
      termAtApplied := o.baseTerm
      configAtApplied := config
      fsm := o.snapshot.elim fresh (·.fsm)
      snapshotWriteVersion := version
      snapshotThreshold :=
        if opts.snapshotThreshold = 0 then defaultSnapshotThreshold
        else opts.snapshotThreshold
      walRetainExtraSegments := opts.walRetainExtraSegments
      snapshotRetainCount := opts.snapshotRetainCount }

end NodeState

/-! ## Runs -/

/-- The layouts in which a local snapshot deletes the segment of its pointer. -/
def NodeState.LosesPointer {F : Type} (n : NodeState F) : Prop :=
  Separates n.storage.w n.appliedIndex n.storage.hs ∧
    n.appliedIndex = n.storage.lastIndex ∧ n.walRetainExtraSegments = 0

instance {F : Type} (n : NodeState F) : Decidable n.LosesPointer :=
  inferInstanceAs (Decidable (_ ∧ _ ∧ _))

/-- What the callers promise (values fit their records, entries continue the log,
applied entries stay, snapshots come from `Encode`), and for truncation, local
snapshots and installation the layouts in which they keep what is needed. -/
def Act.Keeps {F : Type} (codec : FSMCodec F) (n : NodeState F) : Act F → Prop
  | .setHardState hs => HardStateFits hs
  | .append es => (∀ e ∈ es, EntryFits e) ∧
      WALStorage.checkContiguous (n.storage.lastIndex + 1) es = .ok () ∧
      n.storage.lastIndex + es.length < 2 ^ 64
  | .truncate i => n.appliedIndex < i ∧ i ≤ n.storage.lastIndex + 1 ∧
      (i ≤ n.storage.lastIndex → n.storage.w.onlyLogFrom i)
  | .adoptClusterGeneration g => g ≤ maxSupportedGeneration
  | .apply index term config fsm version =>
    n.appliedIndex ≤ index ∧ index ≤ n.storage.lastIndex ∧ (version = 1 ∨ version = 2) ∧
      (Snapshot.mk ⟨index, term, true, config⟩ fsm).Fits codec
  | .maybeSnapshot => n.belowThreshold ∨ ¬n.LosesPointer
  | .handleInstallSnapshot data advance config =>
    ConfigurationFits config ∧ ∃ info f v, (v = 1 ∨ v = 2) ∧
      (Snapshot.mk info f).Fits codec ∧ encode codec info f v = some data ∧
      codec.clusterGeneration f ≤ maxSupportedGeneration ∧
      (advance = true → n.storage.baseIndex < info.lastIncludedIndex ∧
        n.storage.lastIndex ≤ info.lastIncludedIndex ∧
        ¬Separates n.storage.w info.lastIncludedIndex n.storage.hs)

/-- The nodes that runs from an empty disk lead to. A crash may stop a step
between any two of its disk operations. -/
inductive Reached {F : Type} (codec : FSMCodec F) (fresh : F) : NodeState F → Prop
  | start {opts nodeID config version n} (hid : nodeID.length < 2 ^ 16)
      (hversion : version = 1 ∨ version = 2) (hconfig : ConfigurationFits config)
      (hopen : NodeState.restart codec fresh ⟨[], []⟩ opts nodeID config version = .ok n) :
      Reached codec fresh n
  | act {n n' ops} (a : Act F) (h : Reached codec fresh n) (hkeeps : a.Keeps codec n)
      (hact : n.act codec a = some (ops, n')) : Reached codec fresh n'
  | crash {n n' n'' ops d opts nodeID config version} (a : Act F)
      (h : Reached codec fresh n) (hkeeps : a.Keeps codec n)
      (hact : n.act codec a = some (ops, n'))
      (hd : d ∈ crashImages applyDiskOp n.disk ops)
      (hversion : version = 1 ∨ version = 2) (hconfig : ConfigurationFits config)
      (hopen : NodeState.restart codec fresh d opts nodeID config version = .ok n'') :
      Reached codec fresh n''

/-! ## Each step keeps the node sound -/

section Steps

variable {F : Type} {codec : FSMCodec F} {n : NodeState F} {L : Layout}
  {snap : Option (Snapshot F)}

/-- A step taken from a sound node: it succeeds, the node stays sound, and each
disk on the way can be read back. -/
def StepSound (codec : FSMCodec F) (n : NodeState F)
    (result : Option (List DiskOp × NodeState F)) : Prop :=
  ∃ ops n', result = some (ops, n') ∧ (∃ L snap, n'.Sound codec L snap) ∧
    ∀ d ∈ crashImages applyDiskOp n.disk ops, ∃ hs base es, DiskHolds codec d hs base es

theorem NodeState.Sound.diskHolds (h : n.Sound codec L snap) :
    DiskHolds codec n.disk n.storage.hs n.storage.baseIndex n.storage.entries :=
  ⟨L, _, snap, h.mirrors.readable, h.covers, h.mirrors.base⟩

theorem NodeState.Sound.onStorage (h : n.Sound codec L snap) {ε : Type}
    {r : Except ε (List Wal.FileOp × WALStorage)}
    (hr : r = .ok (ops, s)) (hy : Yields n.storage ops s)
    (happlied : n.appliedIndex ≤ s.lastIndex) : StepSound codec n (n.onStorage r) := by
  subst hr
  obtain ⟨M, hM⟩ := hy.mirrors
  have hbase := hy.base
  refine ⟨_, _, rfl, ⟨M, snap, ?_⟩, fun d hd => ?_⟩
  · exact {
      mirrors := hM
      covers := by
        change Covers codec n.snaps s.baseIndex snap
        rw [hbase]
        exact h.covers
      boundary := h.boundary.trans hbase.symm
      applied_ge := by
        change s.baseIndex ≤ _
        rw [hbase]
        exact h.applied_ge
      applied_le := happlied
      threshold := h.threshold
      version := h.version
      fits := h.fits }
  · obtain ⟨dir, hdir, rfl⟩ := mem_images_wal.mp hd
    obtain ⟨M, m, hs, es, hM, hm⟩ := hy.images dir hdir
    exact ⟨hs, _, es, M, m, snap, hM, h.covers, hm⟩

theorem setHardState_lastIndex {hs : HardState} (h : s.setHardState hs = .ok (ops, s')) :
    s'.lastIndex = s.lastIndex := by
  unfold setHardState at h
  split at h
  · cases h
  · rw [← (Prod.mk.inj (ok.inj h)).2]
    rfl

theorem append_lastIndex {es : List Entry}
    (h : s.append es = .ok (ops, s')) : s'.lastIndex = s.lastIndex + es.length := by
  unfold append at h
  split at h
  · rename_i hnil
    rw [← (Prod.mk.inj (ok.inj h)).2, hnil]
    rfl
  · split at h
    · cases h
    · split at h
      · cases h
      · rw [← (Prod.mk.inj (ok.inj h)).2]
        simp [lastIndex]
        omega

theorem truncate_lastIndex {i : Nat} (hbase : s.baseIndex < i) (hle : i ≤ s.lastIndex + 1)
    (h : s.truncate i = .ok (ops, s')) : s'.lastIndex = i - 1 := by
  unfold truncate at h
  split at h
  · cases h
  · rw [← (Prod.mk.inj (ok.inj h)).2, if_neg (Nat.not_le.mpr hbase)]
    simp only [lastIndex, List.length_take] at hle ⊢
    omega

theorem NodeState.Sound.handleInstallSnapshot (h : n.Sound codec L snap) {data : Bytes}
    {advance : Bool} (hkeeps : (Act.handleInstallSnapshot data advance config).Keeps codec n) :
    StepSound codec n (n.handleInstallSnapshot codec data advance config) := by
  obtain ⟨hconfig, info, f, v, hv, hfits, hencode, hgen, hadvance⟩ := hkeeps
  obtain ⟨data', s, hencode', hs, htrusted, hdecode, hindex, rfl⟩ := trusted_encode hv hfits
  obtain rfl : data = data' := some.inj (hencode.symm.trans hencode')
  rw [← hindex] at htrusted hadvance
  set u := s.info.lastIncludedIndex with hu
  set snaps := Snapshots.applyOp n.snaps (.write u data) with hsnaps
  have hcreate : ∀ d ∈ crashImages applyDiskOp n.disk [.snap (.write u data)],
      ∃ hs base es, DiskHolds codec d hs base es := by
    intro d hd
    simp only [crashImages_cons, crashImages_nil, List.mem_cons, List.not_mem_nil, or_false] at hd
    rcases hd with rfl | rfl
    · exact ⟨_, _, _, h.diskHolds⟩
    · obtain ⟨snap', hc⟩ := h.covers.receive hs htrusted
      exact ⟨_, _, _, L, _, snap', h.mirrors.readable, hc, h.mirrors.base⟩
  cases advance with
  | false =>
    obtain ⟨snap', hc⟩ := h.covers.receive hs htrusted
    refine ⟨_, { n with snaps := snaps }, ?_, ⟨L, snap', { h with covers := hc }⟩, hcreate⟩
    simp only [NodeState.handleInstallSnapshot, hdecode, if_true]
    rfl
  | true =>
    obtain ⟨hbase, hlast, hsep⟩ := hadvance rfl
    have hold : Covers codec snaps n.storage.baseIndex snap := h.covers.write data hbase.ne'
    have hnew : Covers codec snaps u (some s) :=
      Covers.written h.covers.sorted (by omega) htrusted hs
    obtain ⟨install, st, hinstall, hstate, -, hdir, ⟨M, hM⟩, himages⟩ :=
      h.mirrors.installSnapshot hbase.le hs.info.index_lt hlast hsep
    have hst : st.baseIndex = u := congrArg (fun p => p.2.1) hstate
    obtain ⟨adopt, w, hadopt, hy⟩ := hM.setClusterGeneration hgen
    obtain ⟨M', hM'⟩ := hy.mirrors
    refine ⟨[.snap (.write u data)] ++ ((install ++ adopt).map .wal ++
        (prune n.snapshotRetainCount u snaps).map .snap),
      { n with
        storage := { st with w := w }
        snaps := perform Snapshots.applyOp snaps (prune n.snapshotRetainCount u snaps)
        snapshotIndex := u
        appliedIndex := u
        termAtApplied := s.info.lastIncludedTerm
        configAtApplied := config
        fsm := s.fsm }, ?_, ⟨M', some s, ?_⟩, fun d hd => ?_⟩
    · simp only [NodeState.handleInstallSnapshot, hdecode, Bool.true_eq_false, if_false,
        hinstall, hadopt, ← hu]
      rfl
    · exact {
        mirrors := hM'
        covers := by
          change Covers codec _ st.baseIndex _
          rw [hst]
          exact hnew.prune_images _ perform_mem_crashImages
        boundary := hst.symm
        applied_ge := hst.le
        applied_le := by
          change u ≤ st.baseIndex + _
          omega
        threshold := h.threshold
        version := h.version
        fits := ⟨⟨hs.info.index_lt, hs.info.term_lt, hconfig⟩, hs.state_lt, hs.seq_le⟩ }
    · rw [mem_crashImages_append, mem_crashImages_append] at hd
      rcases hd with hd | hd | hd
      · exact hcreate d hd
      · obtain ⟨dir, hdir', rfl⟩ := mem_images_wal.mp hd
        rw [mem_crashImages_append] at hdir'
        rcases hdir' with hdir' | hdir'
        · rcases himages dir hdir' with ⟨M, hM⟩ | ⟨M, hM⟩
          · exact ⟨_, _, _, M, _, snap, hM, hold, h.mirrors.base⟩
          · exact ⟨_, _, _, M, _, some s, hM, hnew, rfl⟩
        · change dir ∈ crashImages Wal.applyOp
            (perform Wal.applyOp n.storage.w.dir install) adopt at hdir'
          rw [← hdir] at hdir'
          obtain ⟨M, m, hs', es, hM, hm⟩ := hy.images dir hdir'
          rw [hst] at hm
          exact ⟨_, _, _, M, m, some s, hM, hnew, hm⟩
      · rw [show perform applyDiskOp n.disk [.snap (.write u data)] =
          ⟨n.storage.w.dir, snaps⟩ from rfl, perform_wal] at hd
        obtain ⟨files, hfiles, rfl⟩ := mem_images_snap.mp hd
        have hread := hM'.readable
        rw [hy.dir, hdir, ← perform_append] at hread
        exact ⟨_, u, _, M', _, some s, hread, hnew.prune_images _ hfiles, hM'.base.trans hst⟩

theorem NodeState.Sound.act (h : n.Sound codec L snap) {a : Act F}
    (hkeeps : a.Keeps codec n) : StepSound codec n (n.act codec a) := by
  cases a with
  | setHardState hs =>
    obtain ⟨ops, s, heq, hy⟩ := h.mirrors.setHardState hkeeps
    exact h.onStorage heq hy (setHardState_lastIndex heq ▸ h.applied_le)
  | append es =>
    obtain ⟨ops, s, heq, hy⟩ := h.mirrors.append hkeeps.1 hkeeps.2.1 hkeeps.2.2
    refine h.onStorage heq hy ?_
    rw [append_lastIndex heq]
    exact Nat.le_add_right_of_le h.applied_le
  | truncate i =>
    obtain ⟨hi, hle, hlog⟩ := hkeeps
    have hbase : n.storage.baseIndex < i := lt_of_le_of_lt h.applied_ge hi
    obtain ⟨ops, s, heq, hy⟩ := h.mirrors.truncate hbase hle hlog
    refine h.onStorage heq hy ?_
    rw [truncate_lastIndex hbase hle heq]
    omega
  | adoptClusterGeneration g =>
    obtain ⟨ops, w, heq, hy⟩ := h.mirrors.setClusterGeneration hkeeps
    refine h.onStorage (s := { n.storage with w := w }) ?_ hy h.applied_le
    rw [heq]
    rfl
  | apply index term config fsm version =>
    obtain ⟨hge, hle, hversion, hfits⟩ := hkeeps
    refine ⟨[], _, rfl, ⟨L, snap, ?_⟩, fun d hd => ?_⟩
    · exact {
        mirrors := h.mirrors
        covers := h.covers
        boundary := h.boundary
        applied_ge := h.applied_ge.trans hge
        applied_le := hle
        threshold := h.threshold
        version := hversion
        fits := hfits }
    · obtain rfl := List.mem_singleton.mp hd
      exact ⟨_, _, _, h.diskHolds⟩
  | maybeSnapshot =>
    by_cases hrun : n.belowThreshold
    · refine ⟨[], n, if_pos hrun, ⟨L, snap, h⟩, fun d hd => ?_⟩
      obtain rfl := List.mem_singleton.mp hd
      exact ⟨_, _, _, h.diskHolds⟩
    · obtain ⟨ops, n', heq, -, hn', himages⟩ :=
        h.maybeSnapshot hrun (hkeeps.resolve_left hrun)
      refine ⟨ops, n', heq, hn', fun d hd => ?_⟩
      rcases himages d hd with hd | hd
      · exact ⟨_, _, _, hd⟩
      · exact ⟨_, _, _, hd⟩
  | handleInstallSnapshot data advance config => exact h.handleInstallSnapshot hkeeps

end Steps

/-! ## Restarts -/

section Restart

variable {F : Type} {codec : FSMCodec F} {fresh : F}

structure FreshFits (codec : FSMCodec F) (fresh : F) : Prop where
  state_lt : (codec.encodeState fresh).length < 2 ^ 64
  seq : codec.maxSeq fresh = 0

theorem openWAL_zero (d : Dir) (nodeID : Bytes) :
    openWAL d 0 nodeID = openWAL d defaultSegmentMaxSize nodeID := by
  unfold openWAL
  cases d.getLast? with
  | none => rfl
  | some s => rfl

theorem openNode_zero (d : Disk) (nodeID : Bytes) :
    openNode codec d 0 nodeID = openNode codec d defaultSegmentMaxSize nodeID := by
  simp only [openNode, openWAL_zero]

theorem restored_fits {files : Files} {pointer : Nat} {snap : Option (Snapshot F)}
    (h : Covers codec files pointer snap)
    (hfresh : FreshFits codec fresh) (hconfig : ConfigurationFits config) :
    (Snapshot.mk ⟨pointer, snap.elim 0 (·.info.lastIncludedTerm), true, config⟩
      (snap.elim fresh (·.fsm))).Fits codec := by
  by_cases hzero : pointer = 0
  · rw [h.zero hzero, hzero]
    exact ⟨⟨by simp, by simp, hconfig⟩, hfresh.state_lt, hfresh.seq.le⟩
  · obtain ⟨data, s, rfl, -, htrusted⟩ := h.file hzero
    have hs := h.fits s rfl
    rw [← show s.info.lastIncludedIndex = pointer from trusted_index htrusted]
    exact ⟨⟨hs.info.index_lt, hs.info.term_lt, hconfig⟩, hs.state_lt, hs.seq_le⟩

theorem DiskHolds.restart {d : Disk} {hs : HardState} {base : Nat} {es : List Entry}
    (h : DiskHolds codec d hs base es) (hfresh : FreshFits codec fresh)
    {opts : NodeState.Options} {nodeID : Bytes} {version : UInt8}
    {n : NodeState F} (hversion : version = 1 ∨ version = 2) (hconfig : ConfigurationFits config)
    (hopen : NodeState.restart codec fresh d opts nodeID config version = .ok n) :
    ∃ L snap, n.Sound codec L snap := by
  obtain ⟨M, m, snap, hM, hc, rfl⟩ := h
  obtain ⟨size, hsize, hopen'⟩ : ∃ size ≠ 0,
      openNode codec d opts.maxSize nodeID = openNode codec d size nodeID := by
    by_cases hzero : opts.maxSize = 0
    · exact ⟨defaultSegmentMaxSize, by decide, by rw [hzero, openNode_zero]⟩
    · exact ⟨_, hzero, rfl⟩
  obtain ⟨o, ho, hpointer, hsnap, hbase, hterm, -, -, L, hL, -, -, hstate⟩ :=
    openNode_readable hM hc hsize nodeID
  rw [← hopen'] at ho
  simp only [NodeState.restart, ho, ok.injEq] at hopen
  subst hopen
  have hb : o.storage.baseIndex = m.latestSnapshotIndex :=
    (congrArg (fun p => p.2.1) hstate).trans hpointer
  refine ⟨L, snap, ?_⟩
  exact {
    mirrors := hL
    covers := by
      change Covers codec d.snaps o.storage.baseIndex snap
      rw [hb]
      exact hc
    boundary := hbase.trans hb.symm
    applied_ge := by
      change o.storage.baseIndex ≤ o.baseIndex
      omega
    applied_le := by
      change o.baseIndex ≤ o.storage.baseIndex + _
      omega
    threshold := by
      change (if opts.snapshotThreshold = 0 then NodeState.defaultSnapshotThreshold
        else opts.snapshotThreshold) ≠ 0
      split
      · decide
      · assumption
    version := hversion
    fits := by
      simp only [NodeState.snapshotMeta, hbase, hterm, hsnap]
      exact restored_fits hc hfresh hconfig }

theorem hardStateFits_zero : HardStateFits .zero := ⟨by decide, by decide⟩

theorem restart_fresh {opts : NodeState.Options} {nodeID : Bytes}
    {version : UInt8} {n : NodeState F} (hfresh : FreshFits codec fresh)
    (hid : nodeID.length < 2 ^ 16) (hversion : version = 1 ∨ version = 2)
    (hconfig : ConfigurationFits config)
    (hopen : NodeState.restart codec fresh ⟨[], []⟩ opts nodeID config version = .ok n) :
    ∃ L snap, n.Sound codec L snap := by
  -- the first open writes the segment that a later one finds
  cases hwal : openWAL [] opts.maxSize nodeID with
  | error e => simp [NodeState.restart, openNode, hwal] at hopen
  | ok p =>
    obtain ⟨w, report⟩ := p
    obtain ⟨hc, hnext⟩ := openWAL_fresh_coherent hid hwal
    have hmeta : w.metadata = ⟨nodeID, Wal.formatVersion, 0, 0⟩ :=
      (some.inj hc.metadata).symm
    have hhard : w.latestHardState = none := hc.hardState.symm
    have hfirst : w.firstLogIndex = 1 := by rw [hc.first, hmeta]
    have hreplay : w.replay 1 = .ok [] := by
      rw [← hfirst, hc.replay_eq, hmeta]
      rfl
    have hstorage : openWALStorage w = .ok ⟨w, .zero, 0, []⟩ := by
      simp [openWALStorage, hhard, initialHardState, hreplay, decodeRecords, hfirst]
    simp only [NodeState.restart, openNode, hwal, hmeta, load, if_true, elim_none,
      hfirst, Nat.zero_add, gt_iff_lt, lt_irrefl, if_false, hstorage,
      ok.injEq] at hopen
    subst hopen
    have hordered : Ordered [(1, [Item.metadata ⟨nodeID, Wal.formatVersion, 0, 0⟩])] 0 := {
      spans := List.pairwise_singleton ..
      pointers := by simp
      anchored := by
        intro A p B hsplit
        obtain ⟨rfl, rfl, rfl⟩ : A = [] ∧ p = (1, [_]) ∧ B = [] := by
          simpa [List.singleton_eq_append_iff] using hsplit
        exact .inl le_rfl }
    refine ⟨_, none, ⟨⟨⟨hc, ?_, ?_, ?_, ?_⟩, ?_, hnext⟩, ?_, rfl, le_rfl, le_rfl, ?_, hversion, ?_⟩⟩
    · rw [hmeta]
      exact hordered
    · rw [hhard]
      rfl
    · exact hardStateFits_zero
    · rw [hmeta]
      rfl
    · rw [hmeta]
    · exact ⟨.nil, by simp, fun _ => rfl, fun hz => absurd rfl hz⟩
    · simp only [ne_eq]
      split
      · decide
      · assumption
    · exact ⟨⟨by simp [NodeState.snapshotMeta], by simp [NodeState.snapshotMeta], hconfig⟩,
        hfresh.state_lt, hfresh.seq.le⟩

theorem Reached.sound (hfresh : FreshFits codec fresh) {n : NodeState F}
    (h : Reached codec fresh n) : ∃ L snap, n.Sound codec L snap := by
  induction h with
  | start hid hversion hconfig hopen =>
    exact restart_fresh hfresh hid hversion hconfig hopen
  | act a _ hkeeps hact ih =>
    obtain ⟨L, snap, hn⟩ := ih
    obtain ⟨ops', n'', heq, hsound, -⟩ := hn.act hkeeps
    obtain ⟨rfl, rfl⟩ := Prod.mk.inj (some.inj (hact.symm.trans heq))
    exact hsound
  | crash a _ hkeeps hact hd hversion hconfig hopen ih =>
    obtain ⟨L, snap, hn⟩ := ih
    obtain ⟨ops', n'', heq, -, himages⟩ := hn.act hkeeps
    obtain ⟨rfl, rfl⟩ := Prod.mk.inj (some.inj (hact.symm.trans heq))
    obtain ⟨hs, base, es, hholds⟩ := himages _ hd
    exact hholds.restart hfresh hversion hconfig hopen

end Restart

/-! ## Crash safety over runs -/

section Claims

variable {F : Type} {codec : FSMCodec F} {fresh : F}

end Claims

/-! ## Short runs of a node without a state machine -/

def unitCodec : FSMCodec Unit :=
  ⟨⟨fun _ => [], fun _ => some ((), 0)⟩, fun _ => 0, fun _ => 0, fun _ => rfl⟩

theorem freshFits_unit : FreshFits unitCodec () := ⟨by decide, rfl⟩

def voteTermOne : HardState := ⟨1, [98]⟩

def entryTermOne (index : Nat) : Entry := ⟨index, 1, .normal, [7]⟩

def freshNode (maxSize : Nat) : Option (NodeState Unit) :=
  (NodeState.restart unitCodec () ⟨[], []⟩ ⟨maxSize, 1, 0, 1⟩ [97] .zero 1).toOption

def NodeState.after (o : Option (NodeState Unit)) (a : Act Unit) : Option (NodeState Unit) :=
  o.bind fun n => (n.act unitCodec a).map (·.2)

def twoEntries (maxSize : Nat) : Option (NodeState Unit) :=
  NodeState.after (NodeState.after (NodeState.after (freshNode maxSize)
    (.setHardState voteTermOne)) (.append [entryTermOne 1, entryTermOne 2]))
    (.apply 2 1 .zero () 1)

private theorem reached_after {o : Option (NodeState Unit)} {a : Act Unit}
    (h : ∀ n ∈ o, Reached unitCodec () n) (hkeeps : ∀ n ∈ o, a.Keeps unitCodec n) :
    ∀ n ∈ NodeState.after o a, Reached unitCodec () n := by
  intro n hn
  obtain ⟨n₀, hn₀, hact⟩ := bind_eq_some_iff.mp hn
  obtain ⟨⟨ops, n'⟩, hstep, rfl⟩ := map_eq_some_iff.mp hact
  exact .act a (h n₀ hn₀) (hkeeps n₀ hn₀) hstep

private theorem reached_twoEntries {maxSize : Nat}
    (hlast : ∀ n ∈ NodeState.after (freshNode maxSize) (.setHardState voteTermOne),
      n.storage.lastIndex = 0)
    (happlied : ∀ n ∈ NodeState.after (NodeState.after (freshNode maxSize)
      (.setHardState voteTermOne)) (.append [entryTermOne 1, entryTermOne 2]),
      n.appliedIndex = 0 ∧ n.storage.lastIndex = 2) :
    ∀ n ∈ twoEntries maxSize, Reached unitCodec () n := by
  have hfits : ∀ i, EntryFits (entryTermOne i) := fun i =>
    ⟨by simp [entryTermOne], by simp [entryTermOne, maxRecordPayloadSize],
      by simp [entryTermOne, entryPayloadTypeSentinel]⟩
  refine reached_after (reached_after (reached_after ?_ ?_) ?_) ?_
  · intro n hn
    cases hopen : NodeState.restart unitCodec () ⟨[], []⟩ ⟨maxSize, 1, 0, 1⟩ [97] .zero 1 with
    | error e => simp [freshNode, hopen, Except.toOption] at hn
    | ok n₀ =>
      obtain rfl : n₀ = n := by simpa [freshNode, hopen, Except.toOption] using hn
      exact .start (by decide) (.inl rfl) configurationFits_zero hopen
  · exact fun n _ => ⟨by decide, by decide⟩
  · intro n hn
    refine ⟨by simp [hfits], ?_, ?_⟩ <;> rw [hlast n hn]
    · rfl
    · decide
  · intro n hn
    obtain ⟨happlied, hlast⟩ := happlied n hn
    exact ⟨by omega, hlast.ge, .inl rfl, ⟨⟨by decide, by decide, configurationFits_zero⟩,
      by decide, by decide⟩⟩

theorem installSnapshot_inside_log : ∃ n, Reached unitCodec () n ∧
    n.storage.baseIndex = 0 ∧ ¬InstallSafe n.storage 1 := by
  have hreached : ∀ n ∈ twoEntries 200, Reached unitCodec () n :=
    reached_twoEntries (by decide +kernel) (by decide +kernel)
  obtain ⟨n, hn⟩ : ∃ n, twoEntries 200 = some n :=
    isSome_iff_exists.mp (by decide +kernel)
  have hfacts : ∀ n ∈ twoEntries 200, n.storage.baseIndex = 0 ∧
      ∀ p ∈ (n.storage.installSnapshot 1).toOption,
        (reopen p.2.w.dir n.storage.w.segmentMaxSize [97]).map state =
          .ok (voteTermOne, 0, [entryTermOne 1]) := by
    decide +kernel
  obtain ⟨hbase, hold⟩ := hfacts n hn
  refine ⟨n, hreached n hn, hbase, ?_⟩
  rintro ⟨ops, s, heq, -, hreopen, -⟩
  have := hreopen [97]
  rw [hold (ops, s) (by simp [heq, Except.toOption])] at this
  simp at this

end ChronicleDB.Node
