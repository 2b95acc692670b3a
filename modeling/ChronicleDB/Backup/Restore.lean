import ChronicleDB.Backup.Files
import ChronicleDB.Foundation.Scripts
import ChronicleDB.Fsm.Controls

/-!
# Restoring a backup

What `Export` writes and `Restore` reads back, step by step, and what a node that
is started on the restored directory begins with.
-/

namespace ChronicleDB.Backup.Files

open Foundation List
open Fsm (FSM fsmFormat)
open Node
open Raft (Configuration Core Entry EntryType HardState)
open Snapshots Wal

variable {recs : List Record} {data nodeID : Bytes} {es : List Entry} {src : Source} {disk : Disk}
    {v : UInt8} {a : Archive}

/-! ## Snapshots that are read again -/

/-- What the widths of a snapshot's fields can hold, and a state that commands led to. -/
structure Source.Fits (src : Source) : Prop where
  index_lt : src.info.lastIncludedIndex < 2 ^ 64
  term_lt : src.info.lastIncludedTerm < 2 ^ 64
  configuration : ConfigurationSized src.info.configuration
  sound : ∃ n ≤ 2 ^ 64, src.fsm.Sound n
  state : src.fsm.Fits
  size_lt : src.fsm.encodeState.length < 2 ^ 64

theorem version_of_encode {info : Meta} {f : FSM}
    (h : encode fsmFormat info f v = some data) : v = 1 ∨ v = 2 := by
  rw [encode] at h
  split at h
  · cases h
  rename_i hv
  rw [not_or, UInt8.not_lt, gt_iff_lt, UInt8.not_lt, UInt8.le_iff_toNat_le,
    UInt8.le_iff_toNat_le] at hv
  have h1 : minReadVersion.toNat = 1 := rfl
  have h2 : Snapshots.formatVersion.toNat = 2 := rfl
  rw [h1, h2] at hv
  rcases Nat.lt_or_ge v.toNat 2 with hlt | hge
  · exact .inl (UInt8.toNat_inj.mp (by change v.toNat = 1; omega))
  · exact .inr (UInt8.toNat_inj.mp (by change v.toNat = 2; omega))

theorem decode_of_encode {info : Meta} {f : FSM}
    {snap : Snapshot FSM} (hindex : info.lastIncludedIndex < 2 ^ 64)
    (hterm : info.lastIncludedTerm < 2 ^ 64) (hconfig : ConfigurationSized info.configuration)
    (hsound : ∃ n ≤ 2 ^ 64, f.Sound n) (hfits : f.Fits) (hsize : f.encodeState.length < 2 ^ 64)
    (hencode : encode fsmFormat info f v = some data) (hdecode : decode fsmFormat data = .ok snap) :
    snap.fsm = f.written ∧ snap.info.lastIncludedIndex = info.lastIncludedIndex ∧
      snap.info.lastIncludedTerm = info.lastIncludedTerm ∧
      (snap.info.hasConfiguration = true → info.hasConfiguration = true) ∧
      (snap.info.hasConfiguration = false → snap.info.configuration = .zero) := by
  have hv := version_of_encode hencode
  rw [encode_eq fsmFormat info f hv] at hencode
  cases hencode
  obtain ⟨cfg, hcfg⟩ : ∃ cfg, (if v ≥ 2 ∧ info.hasConfiguration then
      (decodeConfiguration (encodeConfiguration info.configuration)).map some
      else .ok none) = cfg := ⟨_, rfl⟩
  have hlen : (fsmFormat.encodeState f).length < 2 ^ 64 := hsize
  rw [decode_frame fsmFormat hv hindex hterm hconfig hlen hcfg] at hdecode
  cases cfg with
  | error e => cases hdecode
  | ok cfg =>
    simp only at hdecode
    split at hdecode
    · cases hdecode
    rename_i g seq hstate
    split at hdecode
    · cases hdecode
    cases hdecode
    obtain ⟨n, hn, hs⟩ := hsound
    have hread : Fsm.decodeState f.encodeState = .ok (g, seq) := by
      change (Fsm.decodeState f.encodeState).toOption = some (g, seq) at hstate
      cases hd : Fsm.decodeState f.encodeState with
      | error e =>
        rw [hd] at hstate
        cases hstate
      | ok p =>
        rw [hd] at hstate
        cases hstate
        rfl
    refine ⟨Fsm.FSM.decodeState_encodeState hs hn hfits hread, rfl, rfl, ?_, ?_⟩
    · intro hsome
      by_contra hnone
      rw [if_neg (fun h => hnone h.2)] at hcfg
      cases hcfg
      cases hsome
    · intro hnone
      cases cfg with
      | none => rfl
      | some cfg => cases hnone

/-! ## Voided entries -/

def voidEntry (e : Entry) : Entry :=
  if e.type = .config then { e with data := voidedConfigChangePayload } else e

theorem configuration?_voidEntry (e : Entry) : (voidEntry e).configuration? = none := by
  rw [voidEntry]
  split
  · rename_i htype
    have hvoid : (Raft.decodeConfigChange voidedConfigChangePayload).toOption.map (·.cfg) =
        some none := by decide +kernel
    cases hchange : Raft.decodeConfigChange voidedConfigChangePayload with
    | error e => simp [Raft.Entry.configuration?, htype, hchange]
    | ok change =>
      rw [hchange] at hvoid
      simpa [Raft.Entry.configuration?, htype, hchange, Except.toOption] using hvoid
  · rename_i htype
    cases htype' : e.type with
    | config => exact absurd htype' htype
    | normal => simp [Raft.Entry.configuration?, htype']

/-- The bytes are those that the Raft core encodes a voided change as. -/
example : voidedConfigChangePayload = Raft.encodeVoidedEntryConfigPayload := by decide

theorem decodeEntryPayload_append {head : Bytes} (hlen : head.length = 8) (rest : Bytes) :
    decodeEntryPayload (head ++ rest) = match rest with
      | sentinel :: code :: data =>
        if sentinel = entryPayloadTypeSentinel then
          if code = EntryType.config.code then .ok (getUint head, .config, data)
          else .error (.unknownEntryType code)
        else .ok (getUint head, .normal, sentinel :: code :: data)
      | data => .ok (getUint head, .normal, data) := by
  rw [decodeEntryPayload, if_neg (by simp [hlen]), take_left' hlen, drop_left' hlen]
  rcases rest with _ | ⟨x, _ | ⟨y, rest⟩⟩ <;> rfl

theorem decodeEntryPayload_void {b : Bytes} {term : Nat} {typ : EntryType}
    (h : decodeEntryPayload b = .ok (term, typ, data)) :
    decodeEntryPayload (voidConfigEntryPayload b) =
      .ok (term, typ, if typ = .config then voidedConfigChangePayload else data) := by
  obtain ⟨head, tail, hlen, rfl⟩ : ∃ head tail, head.length = 8 ∧ b = head ++ tail := by
    refine ⟨b.take 8, b.drop 8, ?_, (take_append_drop 8 b).symm⟩
    by_contra hshort
    rw [decodeEntryPayload, if_pos (by simp at hshort; omega)] at h
    cases h
  have hdecode := decodeEntryPayload_append hlen
  rw [hdecode] at h
  rcases tail with _ | ⟨sentinel, _ | ⟨code, rest⟩⟩
  · cases h
    rw [voidConfigEntryPayload, if_pos (by simp [hlen, entryPayloadTypedHeaderLen]), hdecode]
    rfl
  · cases h
    rw [voidConfigEntryPayload, if_pos (by simp [hlen, entryPayloadTypedHeaderLen]), hdecode]
    rfl
  · have hlong : ¬(head ++ sentinel :: code :: rest).length < entryPayloadTypedHeaderLen := by
      simp only [length_append, length_cons, hlen, entryPayloadTypedHeaderLen]
      omega
    have h8 : (head ++ sentinel :: code :: rest).getD 8 0 = sentinel := by
      simp [getD_eq_getElem?_getD, hlen]
    have h9 : (head ++ sentinel :: code :: rest).getD 9 0 = code := by
      simp [getD_eq_getElem?_getD, getElem?_append_right, hlen]
    have hfront : (head ++ sentinel :: code :: rest).take entryPayloadTypedHeaderLen =
        head ++ [sentinel, code] := by
      rw [entryPayloadTypedHeaderLen, Nat.add_assoc, ← hlen, take_length_add_append]
      rfl
    rw [voidConfigEntryPayload, if_neg hlong, h8, h9, hfront]
    simp only at h
    split at h
    · rename_i hsentinel
      split at h
      · rename_i hcode
        cases h
        rw [if_neg (by simp [hsentinel, hcode, entryTypeConfigByte, EntryType.code]),
          append_assoc, hdecode]
        simp [hsentinel, hcode]
      · cases h
    · rename_i hsentinel
      cases h
      rw [if_pos (.inl hsentinel), hdecode]
      simp [hsentinel]

theorem decodeRecord_moved {rec : Record} {e : Entry} (h : decodeRecord rec = .ok e) :
    decodeRecord (moved voidConfigEntryPayload rec) = .ok (voidEntry e) := by
  rw [decodeRecord] at h
  split at h
  · cases h
  rename_i term typ data hdecode
  cases h
  rw [decodeRecord]
  simp only [moved, decodeEntryPayload_void hdecode, voidEntry]
  cases typ <;> rfl

theorem decodeRecords_moved (h : decodeRecords recs = .ok es) :
    decodeRecords (recs.map (moved voidConfigEntryPayload)) = .ok (es.map voidEntry) := by
  induction recs generalizing es with
  | nil =>
    cases h
    rfl
  | cons rec recs ih =>
    rw [decodeRecords] at h
    split at h
    · cases h
    rename_i e he
    split at h
    · cases h
    rename_i es' hes
    cases h
    simp only [map_cons, decodeRecords, decodeRecord_moved he, ih hes]

theorem decodeRecords_take
    (h : decodeRecords recs = .ok es) (k : Nat) : decodeRecords (recs.take k) = .ok (es.take k) := by
  induction recs generalizing es k with
  | nil =>
    cases h
    simp [decodeRecords]
  | cons rec recs ih =>
    rw [decodeRecords] at h
    split at h
    · cases h
    rename_i e he
    split at h
    · cases h
    rename_i es' hes
    cases h
    cases k with
    | zero => rfl
    | succ k => simp only [take_succ_cons, decodeRecords, he, ih hes]

theorem gapFree_decodeRecords {n : Nat}
    (hcontiguous : Contiguous n recs) (h : decodeRecords recs = .ok es) :
    Raft.Core.gapFree n (es.map voidEntry) = true := by
  induction recs generalizing es n with
  | nil =>
    cases h
    rfl
  | cons rec recs ih =>
    obtain ⟨hindex, hrest⟩ := hcontiguous.tail
    rw [decodeRecords] at h
    split at h
    · cases h
    rename_i e he
    split at h
    · cases h
    rename_i es' hes
    cases h
    have heindex : (voidEntry e).index = n := by
      rw [decodeRecord] at he
      split at he
      · cases he
      cases he
      rw [voidEntry]
      split <;> exact hindex
    rw [map_cons, Core.gapFree, heindex, ih hrest hes]
    simp

theorem loggedConfig_eq_none {c : Core} (hlog : ∀ e ∈ c.log, e.configuration? = none) (i : Nat) :
    c.loggedConfig i = none := by
  induction i with
  | zero => rfl
  | succ i ih =>
    have hentry : (c.log[i - c.snapshotIndex]?).bind Raft.Entry.configuration? = none := by
      cases he : c.log[i - c.snapshotIndex]? with
      | none => rfl
      | some e => exact hlog e (mem_of_getElem? he)
    rw [Core.loggedConfig, hentry, ih, ite_self]

theorem configAt_of_unconfigured {c : Core} (hsnap : c.snapshotHasConfig = false)
    (hlog : ∀ e ∈ c.log, e.configuration? = none) (i : Nat) :
    c.configAt i = (c.cfg.bootstrap, 0) := by
  rw [Core.configAt, loggedConfig_eq_none hlog, hsnap]
  rfl

theorem configAt_voided {cfg : Raft.Config} {hs : HardState} {index term : Nat}
    (hvalid : cfg.valid = true) (hgap : Raft.Core.gapFree (index + 1) (es.map voidEntry) = true) :
    ∃ core, Core.newCoreFromSnapshot cfg hs index term .zero false (es.map voidEntry) = some core ∧
      ∀ i, core.configAt i = (cfg.bootstrap, 0) := by
  refine ⟨_, by rw [Core.newCoreFromSnapshot, if_neg (by simp [hvalid, hgap])], fun i => ?_⟩
  refine configAt_of_unconfigured rfl (fun e he => ?_) i
  obtain ⟨e, -, rfl⟩ := mem_map.mp he
  exact configuration?_voidEntry e

/-! ## The steps of a backup -/

theorem Copied.reopened {w : WAL} {m : Metadata} (h : Copied w m recs)
    (maxSize : Nat) (nodeID : Bytes) :
    ∃ w' report, openWAL w.dir maxSize nodeID = .ok (w', report) ∧ w'.metadata = m ∧
      w'.latestHardState = none ∧ w'.firstLogIndex = m.latestSnapshotIndex + 1 ∧
      w'.replay (m.latestSnapshotIndex + 1) = .ok recs := by
  obtain ⟨L, hL⟩ := h.coherent
  obtain ⟨w', report, hopen, hdir, hmeta, hhard, hfirst⟩ := openWAL_coherent hL maxSize nodeID
  refine ⟨w', report, hopen, hmeta.trans h.metadata, hhard.trans h.unvoted, h.metadata ▸ hfirst, ?_⟩
  rw [WAL.replay, hdir, h.replay]

theorem exportSource_spec {untilIndex : Option Nat}
    (hfits : src.Fits) (hid : nodeID.length < 2 ^ 16)
    (hreplay : src.wal.replay (src.info.lastIncludedIndex + 1) = .ok recs)
    (hcontiguous : Contiguous (src.info.lastIncludedIndex + 1) recs)
    (h : exportSource src untilIndex nodeID = .ok a) :
    a.manifest.lastIncludedIndex = src.info.lastIncludedIndex ∧
      a.manifest.snapshotFile = src.info.lastIncludedIndex ∧
      a.manifest.walUntilIndex = src.info.lastIncludedIndex + (upTo untilIndex recs).length ∧
      (∃ v data, encode fsmFormat src.info src.fsm v = some data ∧
        a.snapshots = [(src.info.lastIncludedIndex, data)]) ∧
      ∃ w, a.wal = w.dir ∧ Copied w
        ⟨nodeID, Wal.formatVersion, src.info.lastIncludedIndex, 0⟩ (upTo untilIndex recs) := by
  simp only [exportSource] at h
  split at h
  · cases h
  split at h
  · cases h
  rename_i data hencode
  split at h
  · cases h
  rename_i bw hbase
  split at h
  · cases h
  rename_i bw' walUntil hcopy
  cases h
  obtain ⟨-, L, hempty⟩ := newBaseWAL_spec hid hfits.index_lt hbase
  obtain ⟨hcopied, hlast⟩ := copyWALSuffix_spec hempty rfl hreplay hcontiguous hcopy
  have hsame : (upTo untilIndex recs).map (moved id) = upTo untilIndex recs := map_id _
  rw [hsame] at hcopied
  exact ⟨rfl, rfl, hlast, ⟨_, data, hencode, rfl⟩, _, rfl, hcopied.sync⟩

theorem decode_stripped (hfits : src.Fits) {staged : Bytes}
    {installed : Snapshot FSM} (hencode : encode fsmFormat src.info src.fsm v = some data)
    (hstrip : stripSnapshotConfiguration data = .ok staged)
    (hdecode : decode fsmFormat staged = .ok installed) :
    installed = ⟨⟨src.info.lastIncludedIndex, src.info.lastIncludedTerm, false, .zero⟩,
      src.fsm.written⟩ := by
  rw [stripSnapshotConfiguration] at hstrip
  split at hstrip
  · cases hstrip
  rename_i snap hsnap
  obtain ⟨hfsm, hindex, hterm, -, hnone⟩ := decode_of_encode hfits.index_lt hfits.term_lt
    hfits.configuration hfits.sound hfits.state hfits.size_lt hencode hsnap
  split at hstrip
  · rename_i hbare
    cases hstrip
    rw [hsnap] at hdecode
    cases hdecode
    have hfalse : installed.info.hasConfiguration = false := by simpa using hbare
    rw [← hindex, ← hterm, ← hfsm, ← hfalse, ← hnone hfalse]
  · split at hstrip
    · cases hstrip
    rename_i data' hencode'
    cases hstrip
    obtain ⟨n, hn, hs⟩ := hfits.sound
    have hsized : ConfigurationSized Configuration.zero :=
      configurationFits_zero.toConfigurationSized
    rw [hfsm] at hencode'
    obtain ⟨hfsm', hindex', hterm', hconfig', hnone'⟩ := decode_of_encode
      (by rw [hindex]; exact hfits.index_lt) (by rw [hterm]; exact hfits.term_lt) hsized
      ⟨n, hn, hs.written⟩ hfits.state.written
      (by rw [Fsm.FSM.encodeState_written]; exact hfits.size_lt) hencode' hdecode
    have hfalse : installed.info.hasConfiguration = false := by
      cases hhas : installed.info.hasConfiguration with
      | false => rfl
      | true => exact absurd (hconfig' hhas) (by simp)
    have hwritten : src.fsm.written.written = src.fsm.written :=
      (Fsm.FSM.written_eq_iff hs.written).mpr (Fsm.FSM.gated_written _)
    rw [hwritten] at hfsm'
    rw [← hfsm', ← hindex, ← hterm, ← hindex', ← hterm', ← hnone' hfalse, ← hfalse]

theorem restore_spec {clean : Bool} {opts : RestoreOptions}
    {bound : Nat} (h : restore a clean opts nodeID = .ok (disk, bound)) :
    bound = opts.untilIndex.getD a.manifest.walUntilIndex ∧
      a.manifest.lastIncludedIndex ≤ bound ∧ bound ≤ a.manifest.walUntilIndex ∧
      ∃ data, verifySnapshotComponent a = .ok data ∧
        buildStaging a data bound nodeID = .ok disk := by
  simp only [restore] at h
  split at h
  · cases h
  rename_i data hdata
  split at h
  · cases h
  split at h
  · cases h
  rename_i hrange
  split at h
  · cases h
  split at h
  · cases h
  rename_i hstaging
  cases h
  rw [not_or, not_lt, gt_iff_lt, not_lt] at hrange
  exact ⟨rfl, hrange.1, hrange.2, data, hdata, hstaging⟩

structure Staged (src : Source) (nodeID : Bytes) (recs : List Record) (disk : Disk) : Prop where
  snaps : ∃ data, disk.snaps = [(src.info.lastIncludedIndex, data)] ∧
    decode fsmFormat data = .ok ⟨⟨src.info.lastIncludedIndex, src.info.lastIncludedTerm, false,
      .zero⟩, src.fsm.written⟩
  wal : ∃ w, disk.wal = w.dir ∧ Copied w ⟨nodeID, Wal.formatVersion, src.info.lastIncludedIndex,
    src.fsm.clusterGeneration⟩ (recs.map (moved voidConfigEntryPayload))

theorem staged_of_restore {untilIndex : Option Nat} {exportID restoreID : Bytes}
    {clean : Bool} {opts : RestoreOptions} {bound : Nat}
    (hfits : src.Fits) (hexportID : exportID.length < 2 ^ 16)
    (hrestoreID : restoreID.length < 2 ^ 16)
    (hreplay : src.wal.replay (src.info.lastIncludedIndex + 1) = .ok recs)
    (hcontiguous : Contiguous (src.info.lastIncludedIndex + 1) recs)
    (hexport : exportSource src untilIndex exportID = .ok a)
    (hrestore : restore a clean opts restoreID = .ok (disk, bound)) :
    Staged src restoreID (recs.take (bound - src.info.lastIncludedIndex)) disk := by
  obtain ⟨hindex, hfile, huntil, ⟨v, data, hencode, hsnaps⟩, w, hwal, hcopied⟩ :=
    exportSource_spec hfits hexportID hreplay hcontiguous hexport
  obtain ⟨-, hlow, hhigh, data', hverify, hbuild⟩ := restore_spec hrestore
  -- the snapshot that is verified is the one that was written
  have hdata : data' = data := by
    simp only [verifySnapshotComponent, hsnaps, hfile, find?_cons_of_pos, decide_true] at hverify
    split at hverify
    · cases hverify
    split at hverify
    · cases hverify
    split at hverify
    · cases hverify
    · cases hverify
      rfl
  subst hdata
  simp only [buildStaging, hindex] at hbuild
  split at hbuild
  · cases hbuild
  rename_i staged hstrip
  split at hbuild
  · cases hbuild
  rename_i installed hinstalled
  have hstate := decode_stripped hfits hencode hstrip hinstalled
  subst hstate
  split at hbuild
  · cases hbuild
  rename_i sw hbase
  split at hbuild
  · cases hbuild
  rename_i ops sw' hgeneration
  split at hbuild
  · cases hbuild
  rename_i srcWAL report hopen
  split at hbuild
  · cases hbuild
  rename_i sw'' last hcopy
  cases hbuild
  obtain ⟨hlt, L, hempty⟩ := newBaseWAL_spec hrestoreID hfits.index_lt hbase
  obtain ⟨L', hempty'⟩ := setClusterGeneration_spec hempty ⟨hrestoreID, hfits.index_lt, by simp⟩ rfl
    hgeneration
  obtain ⟨w', report', hopen', -, -, -, hserved⟩ := hcopied.reopened 0 restoreID
  rw [hwal, hopen'] at hopen
  cases hopen
  obtain ⟨k, hk⟩ := exists_upTo_eq_take untilIndex recs
  have hcontiguous' : Contiguous (src.info.lastIncludedIndex + 1) (upTo untilIndex recs) :=
    hk ▸ hcontiguous.take k
  obtain ⟨hcopied', -⟩ := copyWALSuffix_spec hempty' rfl hserved hcontiguous' hcopy
  have hbound : upTo (some bound) (upTo untilIndex recs) =
      recs.take (bound - src.info.lastIncludedIndex) := by
    rw [upTo_eq_take hcontiguous', hk, take_take]
    congr 1
    have hlen : (upTo untilIndex recs).length ≤ k := by
      rw [hk]
      exact length_take_le _ _
    omega
  rw [hbound] at hcopied'
  exact ⟨⟨staged, rfl, hinstalled⟩, _, rfl, hcopied'.sync⟩

/-! ## What a restored node starts from -/

/-- The node starts from the base of the backup and the entries up to the bound, their
configurations voided, and knows no configuration but the one it is given. -/
structure RestoredExactly (src : Source) (recs : List Record) (es : List Entry) (bound : Nat)
    (o : Opened FSM) : Prop where
  index : o.baseIndex = src.info.lastIncludedIndex
  term : o.baseTerm = src.info.lastIncludedTerm
  records : o.storage.w.replay (src.info.lastIncludedIndex + 1) =
    .ok ((recs.take (bound - src.info.lastIncludedIndex)).map (moved voidConfigEntryPayload))
  entries : o.entries = (es.take (bound - src.info.lastIncludedIndex)).map voidEntry
  fsm : openedFSM o = src.fsm
  generation : o.storage.w.metadata.clusterGeneration = src.fsm.clusterGeneration
  configuration : ∀ cfg : Raft.Config, cfg.valid = true →
    ∃ core, openedCore o cfg = some core ∧ ∀ i, core.configAt i = (cfg.bootstrap, 0)

theorem load_staged (h : Staged src nodeID recs disk) :
    load fsmFormat src.info.lastIncludedIndex disk.snaps =
      if src.info.lastIncludedIndex = 0 then none
      else some ⟨⟨src.info.lastIncludedIndex, src.info.lastIncludedTerm, false, .zero⟩,
        src.fsm.written⟩ := by
  obtain ⟨data, hsnaps, hdecode⟩ := h.snaps
  rw [load]
  split
  · rfl
  · rw [hsnaps]
    simp [trusted, hdecode]

theorem openDataDir_staged (h : Staged src nodeID recs disk)
    (hdecode : decodeRecords recs = .ok es) (maxSize : Nat) (openID : Bytes) :
    ∃ o, openDataDir disk maxSize openID = .ok o ∧ o.baseIndex = src.info.lastIncludedIndex ∧
      o.snapshot = (if src.info.lastIncludedIndex = 0 then none
        else some ⟨⟨src.info.lastIncludedIndex, src.info.lastIncludedTerm, false, .zero⟩,
          src.fsm.written⟩) ∧
      o.baseTerm = o.snapshot.elim 0 (·.info.lastIncludedTerm) ∧
      o.storage.w.replay (src.info.lastIncludedIndex + 1) =
        .ok (recs.map (moved voidConfigEntryPayload)) ∧
      o.entries = es.map voidEntry ∧
      o.storage.w.metadata.clusterGeneration = src.fsm.clusterGeneration := by
  obtain ⟨w, hwal, hcopied⟩ := h.wal
  obtain ⟨w', report, hopen, hmeta, hhard, hfirst, hreplay⟩ := hcopied.reopened maxSize openID
  have hload := load_staged h
  have hbase : (load fsmFormat src.info.lastIncludedIndex disk.snaps).elim 0
      (·.info.lastIncludedIndex) = src.info.lastIncludedIndex := by
    rw [hload]
    split
    · rename_i hzero
      exact hzero.symm
    · rfl
  have hstorage : openWALStorage w' = .ok ⟨w', .zero, src.info.lastIncludedIndex,
      es.map voidEntry⟩ := by
    simp only [openWALStorage, hhard, initialHardState, hfirst, hreplay,
      decodeRecords_moved hdecode, Nat.add_sub_cancel]
  refine ⟨_, by
    simp only [openDataDir, hwal, hopen, hmeta, hbase, hfirst, lt_irrefl, if_false, hstorage]
    rfl, rfl, hload, rfl, hreplay, ?_, congrArg Metadata.clusterGeneration hmeta⟩
  simp

/-- A restored node starts from exactly the base and the entries of the backup if and only if
the state holds nothing that its encoding leaves out and the base, if there is none, is empty. -/
theorem backup_round_trip_iff {src : Source} {untilIndex : Option Nat}
    {exportID restoreID : Bytes} {a : Archive} {clean : Bool} {opts : RestoreOptions} {disk : Disk}
    {bound : Nat} {recs : List Record} {es : List Entry} (hfits : src.Fits)
    (hexportID : exportID.length < 2 ^ 16) (hrestoreID : restoreID.length < 2 ^ 16)
    (hreplay : src.wal.replay (src.info.lastIncludedIndex + 1) = .ok recs)
    (hcontiguous : Contiguous (src.info.lastIncludedIndex + 1) recs)
    (hdecode : decodeRecords recs = .ok es)
    (hexport : exportSource src untilIndex exportID = .ok a)
    (hrestore : restore a clean opts restoreID = .ok (disk, bound)) (maxSize : Nat)
    (openID : Bytes) :
    ∃ o, openDataDir disk maxSize openID = .ok o ∧
      (RestoredExactly src recs es bound o ↔ src.fsm.Gated ∧
        (src.info.lastIncludedIndex = 0 → src.fsm = .new .new ∧ src.info.lastIncludedTerm = 0)) := by
  have hstaged := staged_of_restore hfits hexportID hrestoreID hreplay hcontiguous hexport hrestore
  have htake := decodeRecords_take hdecode (bound - src.info.lastIncludedIndex)
  obtain ⟨o, ho, hindex, hsnapshot, hterm, hrecords, hentries, hgeneration⟩ :=
    openDataDir_staged hstaged htake maxSize openID
  have hgap := gapFree_decodeRecords (hcontiguous.take _) htake
  have hconfiguration : ∀ cfg : Raft.Config, cfg.valid = true →
      ∃ core, openedCore o cfg = some core ∧ ∀ i, core.configAt i = (cfg.bootstrap, 0) := by
    intro cfg hvalid
    have hbare : o.snapshot.elim Configuration.zero (·.info.configuration) = .zero ∧
        o.snapshot.elim false (·.info.hasConfiguration) = false := by
      rw [hsnapshot]
      split <;> exact ⟨rfl, rfl⟩
    rw [openedCore, hbare.1, hbare.2, hindex, hentries]
    exact configAt_voided hvalid hgap
  obtain ⟨n, -, hs⟩ := hfits.sound
  refine ⟨o, ho, ?_⟩
  by_cases hzero : src.info.lastIncludedIndex = 0
  · -- `Load` looks for no snapshot at index 0
    rw [if_pos hzero] at hsnapshot
    have hfsm : openedFSM o = .new .new := by rw [openedFSM, hsnapshot]; rfl
    rw [hsnapshot] at hterm
    constructor
    · intro h
      have hnew : src.fsm = .new .new := h.fsm.symm.trans hfsm
      refine ⟨?_, fun _ => ⟨hnew, h.term.symm.trans hterm⟩⟩
      rw [hnew]
      exact ⟨fun _ => rfl, fun _ => rfl, fun _ => ⟨rfl, rfl, rfl, rfl⟩⟩
    · rintro ⟨-, hempty⟩
      obtain ⟨hnew, hterm0⟩ := hempty hzero
      exact ⟨hindex, hterm.trans hterm0.symm, hrecords, hentries, hfsm.trans hnew.symm,
        hgeneration, hconfiguration⟩
  · rw [if_neg hzero] at hsnapshot
    have hfsm : openedFSM o = src.fsm.written := by rw [openedFSM, hsnapshot]; rfl
    rw [hsnapshot] at hterm
    rw [← Fsm.FSM.written_eq_iff hs]
    constructor
    · exact fun h => ⟨hfsm.symm.trans h.fsm, fun h0 => absurd h0 hzero⟩
    · rintro ⟨hwritten, -⟩
      exact ⟨hindex, hterm, hrecords, hentries, hfsm.trans hwritten, hgeneration, hconfiguration⟩

/-! ## Two restores -/

def sampleID : Bytes := List.replicate 32 97

def logOf (payloads : List Bytes) : Option WAL :=
  (openWAL [] 0 sampleID).toOption.bind fun p =>
    payloads.foldlM (fun w payload => (w.appendLogEntry payload).toOption.map (·.2.1)) p.1

def restored (src : Source) : Option (Opened FSM) :=
  (exportSource src none sampleID).toOption.bind fun a =>
    (restore a true ⟨none, false⟩ sampleID).toOption.bind fun d =>
      (openDataDir d.1 0 sampleID).toOption

def refusedSource (w : WAL) : Source := ⟨⟨1, 1, false, .zero⟩, Fsm.earlyFSM, w, 1⟩

/-- The refusal is not in the restored state. -/
theorem refusal_not_restored :
    ∃ w o, logOf [encodeEntryPayload 1 .normal (Fsm.encodeSetClusterVersion ⟨[114], 2⟩)] = some w ∧
      restored (refusedSource w) = some o ∧ openedFSM o ≠ (refusedSource w).fsm := by
  have htest : (logOf [encodeEntryPayload 1 .normal (Fsm.encodeSetClusterVersion ⟨[114], 2⟩)]).any
      (fun w => (restored (refusedSource w)).any fun o =>
        decide (openedFSM o ≠ Fsm.earlyFSM)) = true := by decide +kernel
  obtain ⟨w, hw, htest⟩ := (Option.any_eq_true _ _).mp htest
  obtain ⟨o, ho, htest⟩ := (Option.any_eq_true _ _).mp htest
  exact ⟨w, o, hw, ho, of_decide_eq_true htest⟩

theorem contiguous_of_map {n : Nat}
    (h : recs.map (·.index) = List.range' n recs.length) : Contiguous n recs := by
  intro k rec hk
  have hlt := (List.getElem?_eq_some_iff.mp hk).1
  have hindex : (recs.map (·.index))[k]? = some rec.index := by simp [hk]
  rw [h, List.getElem?_range' hlt, Nat.one_mul] at hindex
  exact (Option.some.inj hindex).symm

def changedLog : List Bytes :=
  [encodeEntryPayload 1 .normal [1], encodeEntryPayload 1 .config [0xF0, 16],
    encodeEntryPayload 2 .normal [1]]

def changedSource (w : WAL) : Source :=
  ⟨⟨1, 1, true, ⟨[⟨[97], [1]⟩], []⟩⟩, .new .new, w, 2⟩

theorem fits_new : (FSM.new .new).Fits where
  chains_lt := by decide
  key_lt c hc := absurd hc not_mem_nil
  versions_lt c hc := absurd hc not_mem_nil
  value_lt c hc := absurd hc not_mem_nil
  outcomes_lt := by decide
  requestID_lt e he := absurd he not_mem_nil
  conflictKey_lt e he := absurd he not_mem_nil
  controlOutcomes_lt := by decide
  controlID_lt e he := absurd he not_mem_nil
  membershipOutcomes_lt := by decide
  membershipID_lt e he := absurd he not_mem_nil
  gcCursor_lt := by decide

theorem changedSource_fits (w : WAL) : (changedSource w).Fits := by
  have hconfiguration : ConfigurationSized ⟨[⟨[97], [1]⟩], []⟩ :=
    ⟨by decide, by decide, fun m hm => mem_singleton.mp hm ▸ ⟨by decide, by decide⟩,
      fun m hm => absurd hm not_mem_nil, by decide⟩
  have hsize : (FSM.new .new).encodeState.length < 2 ^ 64 := by decide
  exact ⟨by simp [changedSource], by simp [changedSource], hconfiguration,
    ⟨0, Nat.zero_le _, Fsm.FSM.sound_new⟩, fits_new, hsize⟩

theorem backup_round_trip_changed :
    ∃ w recs es o, logOf changedLog = some w ∧ restored (changedSource w) = some o ∧
      RestoredExactly (changedSource w) recs es 3 o := by
  have htest : (logOf changedLog).any (fun w => (w.replay 2).toOption.any fun recs =>
      decide (recs.map (·.index) = List.range' 2 recs.length) &&
      (decodeRecords recs).toOption.any fun _ =>
      (exportSource (changedSource w) none sampleID).toOption.any fun a =>
      (restore a true ⟨none, false⟩ sampleID).toOption.any fun d =>
        decide (d.2 = 3)) = true := by decide +kernel
  obtain ⟨w, hw, htest⟩ := (Option.any_eq_true _ _).mp htest
  obtain ⟨recs, hrecs, htest⟩ := (Option.any_eq_true _ _).mp htest
  rw [Bool.and_eq_true, decide_eq_true_eq] at htest
  obtain ⟨es, hes, hrun⟩ := (Option.any_eq_true _ _).mp htest.2
  obtain ⟨a, ha, hrun⟩ := (Option.any_eq_true _ _).mp hrun
  obtain ⟨d, hd, hbound⟩ := (Option.any_eq_true _ _).mp hrun
  obtain ⟨o, ho, hiff⟩ := backup_round_trip_iff (changedSource_fits w) (by decide) (by decide)
    (toOption_eq_some hrecs) (contiguous_of_map htest.1) (toOption_eq_some hes)
    (toOption_eq_some ha) (toOption_eq_some hd) 0 sampleID
  rw [of_decide_eq_true hbound] at hiff
  refine ⟨w, recs, es, o, hw, ?_, hiff.mpr ⟨?_, fun h => absurd h Nat.one_ne_zero⟩⟩
  · rw [restored, ha, Option.bind_some, hd, Option.bind_some, ho]
    rfl
  · exact ⟨fun _ => rfl, fun _ => rfl, fun _ => ⟨rfl, rfl, rfl, rfl⟩⟩

end ChronicleDB.Backup.Files
