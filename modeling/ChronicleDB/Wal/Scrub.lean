import ChronicleDB.Wal.Recovery

/-!
# Scrubbing the log

`Scrub` of `internal/wal/scrub.go` reads every segment whole and reports what is
wrong with it; `Open` reads frame by frame and refuses the log.  Files are there
and readable, so `unreadable` is never found.
-/

namespace ChronicleDB.Wal

open Foundation List

/-! ## Scrub -/

inductive FindingKind where
  | badChecksum
  | badFraming
  | unsupportedVersion
  | indexOutOfOrder
  deriving DecidableEq, Repr

structure Finding where
  file : Nat
  offset : Nat
  kind : FindingKind
  deriving DecidableEq, Repr

structure ScrubStats where
  segmentsChecked : Nat
  framesChecked : Nat
  bytesRead : Nat
  deriving DecidableEq, Repr

structure ScrubLogRecord where
  index : Nat
  file : Nat
  offset : Nat
  deriving DecidableEq, Repr

def classifyDecodeErr : FrameError → FindingKind
  | .unsupportedVersion _ => .unsupportedVersion
  | .unknownType _ => .badChecksum
  | .checksumMismatch _ _ => .badChecksum
  | .recordTooLarge _ => .badFraming
  | .tornTail => .badFraming

structure ScrubState where
  findings : List Finding
  stats : ScrubStats
  logRecords : List ScrubLogRecord
  boundary : Nat
  scanAborted : Bool
  deriving DecidableEq, Repr

namespace ScrubState

def start : ScrubState := ⟨[], ⟨0, 0, 0⟩, [], 0, false⟩

def report (t : ScrubState) (f : Finding) : ScrubState :=
  { t with findings := t.findings ++ [f], scanAborted := true }

def add (t : ScrubState) (id offset : Nat) (rec : Record) : ScrubState :=
  let t := { t with stats := { t.stats with framesChecked := t.stats.framesChecked + 1 } }
  match rec.type with
  | .logEntry => { t with logRecords := t.logRecords ++ [⟨rec.index, id, offset⟩] }
  | .metadata =>
    match decodeMetadata rec.payload with
    | .ok m => { t with boundary := m.latestSnapshotIndex }
    | .error _ => t.report ⟨id, offset, .badFraming⟩
  | .hardState => t

end ScrubState

def scrubFrames (currentSegmentID id : Nat) (data : Bytes) : Nat → Nat → ScrubState → ScrubState
  | 0, _, t => t
  | fuel + 1, offset, t =>
    if offset < data.length then
      match decodeFrameBytes (data.drop offset) with
      | .error .tornTail =>
        if id ≠ currentSegmentID then t.report ⟨id, offset, .badFraming⟩ else t
      | .error e => t.report ⟨id, offset, classifyDecodeErr e⟩
      | .ok (rec, frameLen) =>
        scrubFrames currentSegmentID id data fuel (offset + frameLen) (t.add id offset rec)
    else t

def scrubSegment (currentSegmentID : Nat) (t : ScrubState) (f : SegmentFile) : ScrubState :=
  scrubFrames currentSegmentID f.id f.data (f.data.length + 1) 0
    { t with stats := { t.stats with
      segmentsChecked := t.stats.segmentsChecked + 1
      bytesRead := t.stats.bytesRead + f.data.length } }

/-- `lastLive` is `none` until there is a live record. -/
def scrubIndexContiguityFindings (boundary : Nat) (scanAborted : Bool) :
    List ScrubLogRecord → Option Nat → List Finding
  | [], _ => []
  | lr :: rest, lastLive =>
    if lr.index ≤ boundary then
      scrubIndexContiguityFindings boundary scanAborted rest lastLive
    else
      let found := match lastLive with
        | none => !scanAborted && decide (lr.index ≠ boundary + 1)
        | some last => decide (lr.index ≠ last + 1)
      (if found then [⟨lr.file, lr.offset, .indexOutOfOrder⟩] else []) ++
        scrubIndexContiguityFindings boundary scanAborted rest (some lr.index)

def scrub (dir : Dir) : List Finding × ScrubStats :=
  let currentSegmentID := (dir.getLast?.map (·.id)).getD 0
  let t := dir.foldl (scrubSegment currentSegmentID) .start
  (t.findings ++ scrubIndexContiguityFindings t.boundary t.scanAborted t.logRecords none, t.stats)

/-! ## The two ways to read a frame -/

def frameLength (buf : Bytes) : Nat := getUint ((buf.drop headerLengthOff).take 4)

/-- A frame that is there as a whole and declares more than a record may have. -/
def Oversized (buf : Bytes) : Prop :=
  headerSize ≤ buf.length ∧ buf.getD headerVersionOff 0 = formatVersion ∧
    maxRecordPayloadSize < frameLength buf ∧
    headerSize + frameLength buf + checksumSize ≤ buf.length

instance (buf : Bytes) : Decidable (Oversized buf) :=
  inferInstanceAs (Decidable (_ ∧ _ ∧ _ ∧ _))

variable {buf : Bytes} {n : Nat} {t : ScrubState} {dir : Dir}

theorem frameLength_take (hn : headerSize ≤ n) : frameLength (buf.take n) = frameLength buf := by
  have : min 4 (n - headerLengthOff) = 4 := by
    unfold headerSize at hn
    unfold headerLengthOff
    omega
  rw [frameLength, frameLength, drop_take, take_take, this]

theorem version_take (hn : headerSize ≤ n) :
    (buf.take n).getD headerVersionOff 0 = buf.getD headerVersionOff 0 := by
  rw [getD_eq_getElem?_getD, getD_eq_getElem?_getD, getElem?_take_of_lt]
  unfold headerSize at hn
  unfold headerVersionOff
  omega

theorem decodeFrameBytes_take (hn : headerSize + frameLength buf + checksumSize ≤ n) :
    decodeFrameBytes (buf.take n) = decodeFrameBytes buf := by
  have hhead : headerSize ≤ n := by omega
  have hcode : (buf.take n).getD 0 0 = buf.getD 0 0 := by
    rw [getD_eq_getElem?_getD, getD_eq_getElem?_getD, getElem?_take_of_lt]
    unfold headerSize at hhead
    omega
  have hindex : ((buf.take n).drop headerIndexOff).take 8 = (buf.drop headerIndexOff).take 8 := by
    have : min 8 (n - headerIndexOff) = 8 := by
      unfold headerSize at hhead
      unfold headerIndexOff
      omega
    rw [drop_take, take_take, this]
  have hbody : (buf.take n).take (headerSize + frameLength buf) =
      buf.take (headerSize + frameLength buf) := by
    rw [take_take, Nat.min_eq_left (by omega)]
  have hsum : ((buf.take n).drop (headerSize + frameLength buf)).take checksumSize =
      (buf.drop (headerSize + frameLength buf)).take checksumSize := by
    rw [drop_take, take_take, Nat.min_eq_left (by omega)]
  have hshort : (buf.take n).length < headerSize ↔ buf.length < headerSize := by
    rw [length_take]
    omega
  have hneed : (buf.take n).length < headerSize + frameLength buf + checksumSize ↔
      buf.length < headerSize + frameLength buf + checksumSize := by
    rw [length_take]
    omega
  have hlength : frameLength (buf.take n) = frameLength buf := frameLength_take hhead
  have hversion : (buf.take n).getD headerVersionOff 0 = buf.getD headerVersionOff 0 :=
    version_take hhead
  unfold frameLength at hlength hneed hbody hsum
  unfold decodeFrameBytes
  simp only [hshort, hcode, hindex, hlength, hversion, hneed, hbody, hsum]

def readCapped (buf : Bytes) : Except FrameError (Record × Nat) :=
  decodeFrameBytes (buf.take (headerSize + maxRecordPayloadSize + checksumSize))

theorem readFrame_eq_readCapped {seg : Bytes} {offset : Nat} (h : offset < seg.length) :
    readFrame seg offset = (readCapped (seg.drop offset)).map some := by
  have havail : seg.length - offset = (seg.drop offset).length := length_drop.symm
  have hpresent : ∀ (buf : Bytes) n, buf.take (min buf.length n) = buf.take n := fun buf n => by
    rw [Nat.min_comm, ← take_take, take_length]
  unfold readFrame readFrameFull readAt
  rw [if_neg (Nat.not_le.mpr h), havail]
  generalize seg.drop offset = buf
  dsimp only
  simp only [hpresent]
  rw [← frameLength]
  split
  case isTrue hshort =>
    rw [length_take] at hshort
    rw [readCapped, decodeFrameBytes, if_pos]
    · rfl
    · rw [length_take]
      omega
  case isFalse =>
    rw [frameLength_take (Nat.le_refl _)]
    split
    case isTrue => rfl
    case isFalse hfast =>
      have hsmall : frameLength buf ≤ maxRecordPayloadSize := by omega
      rw [readCapped, decodeFrameBytes_take (Nat.le_refl _), decodeFrameBytes_take (by omega)]

theorem decodeFrameBytes_of_oversized (h : Oversized buf) :
    decodeFrameBytes buf = .error (.recordTooLarge (frameLength buf)) := by
  obtain ⟨hhead, hversion, hlarge, hpresent⟩ := h
  unfold frameLength at hlarge hpresent ⊢
  unfold decodeFrameBytes
  dsimp only
  rw [if_neg (Nat.not_lt.mpr hhead), if_neg (not_not.mpr hversion),
    if_neg (Nat.not_lt.mpr hpresent), if_pos hlarge]

theorem decodeFrameBytes_of_short (hversion : buf.getD headerVersionOff 0 = formatVersion)
    (hshort : buf.length < headerSize + frameLength buf + checksumSize) :
    decodeFrameBytes buf = .error .tornTail := by
  unfold frameLength at hshort
  unfold decodeFrameBytes
  by_cases hhead : buf.length < headerSize
  · rw [if_pos hhead]
  · simp only [if_neg hhead, ne_eq, hversion, not_true_eq_false, if_false, if_pos hshort]

theorem decodeFrameBytes_of_version (hhead : headerSize ≤ buf.length)
    (hversion : buf.getD headerVersionOff 0 ≠ formatVersion) :
    decodeFrameBytes buf = .error (.unsupportedVersion (buf.getD headerVersionOff 0)) := by
  unfold decodeFrameBytes
  dsimp only
  rw [if_neg (Nat.not_lt.mpr hhead), if_pos hversion]

theorem readCapped_of_oversized (h : Oversized buf) : readCapped buf = .error .tornTail := by
  obtain ⟨_, hversion, hlarge, _⟩ := h
  have hcap : headerSize ≤ headerSize + maxRecordPayloadSize + checksumSize := by omega
  refine decodeFrameBytes_of_short (by rw [version_take hcap, hversion]) ?_
  rw [frameLength_take hcap, length_take]
  omega

/-- The cap hides exactly that a too large frame is there. -/
theorem readCapped_eq_iff (buf : Bytes) :
    readCapped buf = decodeFrameBytes buf ↔ ¬Oversized buf := by
  have hcap : headerSize ≤ headerSize + maxRecordPayloadSize + checksumSize := by omega
  by_cases hover : Oversized buf
  · refine iff_of_false (fun heq => ?_) (not_not.mpr hover)
    rw [readCapped_of_oversized hover, decodeFrameBytes_of_oversized hover] at heq
    cases heq
  refine iff_of_true ?_ hover
  by_cases hsmall : frameLength buf ≤ maxRecordPayloadSize
  · exact decodeFrameBytes_take (by omega)
  by_cases hall : buf.length ≤ headerSize + maxRecordPayloadSize + checksumSize
  · rw [readCapped, take_of_length_le hall]
  by_cases hversion : buf.getD headerVersionOff 0 = formatVersion
  · have hshort : buf.length < headerSize + frameLength buf + checksumSize :=
      Nat.not_le.mp fun hpresent => hover ⟨by omega, hversion, by omega, hpresent⟩
    rw [decodeFrameBytes_of_short hversion hshort, readCapped, decodeFrameBytes_of_short]
    · rw [version_take hcap, hversion]
    · rw [frameLength_take hcap, length_take]
      omega
  · rw [readCapped, decodeFrameBytes_of_version, decodeFrameBytes_of_version (by omega) hversion,
      version_take hcap]
    · rw [length_take]
      omega
    · rwa [version_take hcap]

/-- `Open` and `Scrub` read the same at `offset`. -/
def ReadsAlike (seg : Bytes) (offset : Nat) : Prop :=
  readFrame seg offset = (decodeFrameBytes (seg.drop offset)).map some

theorem readsAlike_iff {seg : Bytes} {offset : Nat} (h : offset < seg.length) :
    ReadsAlike seg offset ↔ ¬Oversized (seg.drop offset) := by
  rw [← readCapped_eq_iff, ReadsAlike, readFrame_eq_readCapped h]
  cases readCapped (seg.drop offset) with
  | error e => cases decodeFrameBytes (seg.drop offset) <;> simp [Except.map]
  | ok r => cases decodeFrameBytes (seg.drop offset) <;> simp [Except.map]

/-! ## The two scans in step -/

/-- Nothing is found so far, and both scans have met the same records. -/
structure Agree (s : Scan) (t : ScrubState) : Prop where
  findings : t.findings = []
  indices : t.logRecords.map (·.index) = s.logIndices
  boundary : t.boundary = (s.metadata.map (·.latestSnapshotIndex)).getD 0
  complete : t.scanAborted = false

theorem ScrubState.findings_report_ne (t : ScrubState) (f : Finding) :
    (t.report f).findings ≠ [] := by
  simp [report]

/-- A record that `Open` refuses is found; any other leaves the scans in step. -/
theorem Agree.add {s : Scan} {t : ScrubState} (h : Agree s t) (id offset : Nat) (rec : Record) :
    match s.add rec with
    | .error _ => (t.add id offset rec).findings ≠ []
    | .ok s' => Agree s' (t.add id offset rec) := by
  unfold Scan.add ScrubState.add
  cases rec.type with
  | logEntry => exact ⟨h.findings, by simp [h.indices], h.boundary, h.complete⟩
  | hardState => exact ⟨h.findings, h.indices, h.boundary, h.complete⟩
  | metadata =>
    dsimp only
    cases decodeMetadata rec.payload with
    | error e => exact ScrubState.findings_report_ne _ _
    | ok m => exact ⟨h.findings, h.indices, rfl, h.complete⟩

theorem ScrubState.findings_add_ne (h : t.findings ≠ []) (id offset : Nat) (rec : Record) :
    (t.add id offset rec).findings ≠ [] := by
  unfold add
  cases rec.type with
  | logEntry => exact h
  | hardState => exact h
  | metadata =>
    dsimp only
    cases decodeMetadata rec.payload with
    | error e => exact findings_report_ne _ _
    | ok m => exact h

theorem findings_scrubFrames_ne (h : t.findings ≠ []) (current id : Nat) (data : Bytes)
    (fuel offset : Nat) : (scrubFrames current id data fuel offset t).findings ≠ [] := by
  induction fuel generalizing offset t with
  | zero => exact h
  | succ fuel ih =>
    rw [scrubFrames]
    split
    · split
      · split
        · exact t.findings_report_ne _
        · exact h
      · exact t.findings_report_ne _
      · exact ih (t.findings_add_ne h id offset _) _
    · exact h

theorem findings_scrubSegments_ne (h : t.findings ≠ []) (current : Nat) (dir : Dir) :
    (dir.foldl (scrubSegment current) t).findings ≠ [] := by
  induction dir generalizing t with
  | nil => exact h
  | cons f dir ih => exact ih (findings_scrubFrames_ne (by exact h) current f.id f.data _ 0)

theorem le_of_decodeFrameBytes {rec : Record} {n : Nat} (h : decodeFrameBytes buf = .ok (rec, n)) :
    headerSize ≤ n := by
  unfold decodeFrameBytes at h
  dsimp only at h
  iterate 4
    split at h
    · cases h
  split at h
  · cases h
  · split at h
    · cases h
    · cases h
      omega

/-- What `Scrub` makes of a segment that `Open` scans from `s`. -/
def Follows (r : Except OpenError (Scan × Option Nat)) (final : Bool) (t : ScrubState) : Prop :=
  match r with
  | .error _ => t.findings ≠ []
  | .ok (s, torn) => if torn.isSome && !final then t.findings ≠ [] else Agree s t

theorem follows_scrubFrames {data : Bytes} (hread : ∀ offset < data.length, ReadsAlike data offset)
    {current id fuel offset : Nat} (hfuel : data.length - offset < fuel) {s : Scan}
    {t : ScrubState} (h : Agree s t) :
    Follows (scanFrames data fuel offset s) (id = current)
      (scrubFrames current id data fuel offset t) := by
  induction fuel generalizing offset s t with
  | zero => omega
  | succ fuel ih =>
    rw [scanFrames, scrubFrames]
    by_cases hoffset : offset < data.length
    · rw [if_pos hoffset, hread offset hoffset]
      cases hdecode : decodeFrameBytes (data.drop offset) with
      | error e =>
        cases e with
        | tornTail =>
          by_cases hid : id = current
          · simpa [Follows, hid, Except.map] using h
          · simpa [Follows, hid, Except.map] using t.findings_report_ne _
        | _ => exact t.findings_report_ne _
      | ok r =>
        obtain ⟨rec, n⟩ := r
        have hn := le_of_decodeFrameBytes hdecode
        have hpos : 0 < headerSize := by decide
        have hadd := h.add id offset rec
        dsimp only [Except.map]
        cases hrec : s.add rec with
        | error e =>
          rw [hrec] at hadd
          exact findings_scrubFrames_ne hadd current id data fuel _
        | ok s' =>
          rw [hrec] at hadd
          exact ih (by omega) hadd
    · rw [if_neg hoffset, readFrame, if_pos (Nat.not_lt.mp hoffset)]
      exact h

theorem follows_scrubSegments
    (hread : ∀ f ∈ dir, ∀ offset < f.data.length, ReadsAlike f.data offset)
    (hids : (dir.map (·.id)).Nodup) {last : SegmentFile} (hlast : dir.getLast? = some last)
    {s : Scan} {t : ScrubState} (h : Agree s t) :
    Follows (scanSegments dir s) true (dir.foldl (scrubSegment last.id) t) := by
  induction dir generalizing s t with
  | nil => cases hlast
  | cons f rest ih =>
    have hstart : Agree s { t with stats := { t.stats with
        segmentsChecked := t.stats.segmentsChecked + 1
        bytesRead := t.stats.bytesRead + f.data.length } } :=
      ⟨h.findings, h.indices, h.boundary, h.complete⟩
    have hframes := @follows_scrubFrames f.data (hread f mem_cons_self) last.id f.id
      (f.data.length + 1) 0 (by omega) s _ hstart
    rw [foldl_cons]
    cases rest with
    | nil =>
      obtain rfl : f = last := by simpa using hlast
      simpa [scanSegments, scrubSegment] using hframes
    | cons g rest =>
      have hid : f.id ≠ last.id := by
        intro heq
        have hmem : last ∈ g :: rest := mem_of_getLast? (by simpa using hlast)
        exact (nodup_cons.mp hids).1 (mem_map.mpr ⟨last, hmem, heq.symm⟩)
      change Follows _ _ ((g :: rest).foldl _ (scrubSegment last.id t f))
      rw [scanSegments]
      · unfold scrubSegment at hframes ⊢
        cases hscan : scanFrames f.data (f.data.length + 1) 0 s with
        | error e =>
          rw [hscan] at hframes
          exact findings_scrubSegments_ne hframes last.id (g :: rest)
        | ok r =>
          obtain ⟨s', torn⟩ := r
          rw [hscan] at hframes
          cases torn with
          | some offset =>
            simp only [Follows, hid, decide_false, Option.isSome_some, Bool.not_false,
              Bool.and_self, if_true] at hframes
            exact findings_scrubSegments_ne hframes last.id (g :: rest)
          | none =>
            exact ih (fun f' hf' => hread f' (mem_cons_of_mem _ hf'))
              (nodup_cons.mp hids).2 (by simpa using hlast) hframes
      · simp

/-! ## Contiguity -/

theorem contiguityFindings_eq_nil_iff (boundary : Nat) (lrs : List ScrubLogRecord)
    (lastLive : Option Nat) :
    scrubIndexContiguityFindings boundary false lrs lastLive = [] ↔
      ∃ n, checkLive boundary (lrs.map (·.index)) (lastLive.getD boundary) lastLive.isSome =
        .ok n := by
  induction lrs generalizing lastLive with
  | nil => simp [scrubIndexContiguityFindings, checkLive]
  | cons lr lrs ih =>
    by_cases hold : lr.index ≤ boundary
    · simp only [scrubIndexContiguityFindings, map_cons, checkLive, if_pos hold]
      exact ih lastLive
    · simp only [scrubIndexContiguityFindings, map_cons, checkLive, if_neg hold]
      have hnext := ih (some lr.index)
      cases lastLive with
      | none =>
        by_cases hgap : lr.index = boundary + 1
        · simpa [hgap] using hnext
        · simp [hgap]
      | some last =>
        by_cases hgap : lr.index = last + 1
        · simpa [hgap] using hnext
        · simp [hgap]

/-! ## The last metadata record -/

/-- The records that lie one after the other from `offset` on. -/
def recordsIn (data : Bytes) : Nat → Nat → List Record
  | 0, _ => []
  | fuel + 1, offset =>
    if offset < data.length then
      match decodeFrameBytes (data.drop offset) with
      | .error _ => []
      | .ok (rec, frameLen) => rec :: recordsIn data fuel (offset + frameLen)
    else []

def Record.metadata? (rec : Record) : Option Metadata :=
  match rec.type with
  | .metadata => (decodeMetadata rec.payload).toOption
  | _ => none

def metadataIn (dir : Dir) : List Metadata :=
  (dir.flatMap fun f => recordsIn f.data (f.data.length + 1) 0).filterMap Record.metadata?

theorem getLast?_filterMap_cons {α β : Type} (f : α → Option β) (a : α) (l : List α) :
    ((a :: l).filterMap f).getLast? = (l.filterMap f).getLast?.or (f a) := by
  cases hf : f a with
  | none => simp [hf]
  | some b =>
    rw [filterMap_cons_some hf, getLast?_cons]
    cases (l.filterMap f).getLast? <;> rfl

theorem getLast?_metadataIn_cons (f : SegmentFile) (dir : Dir) :
    (metadataIn (f :: dir)).getLast? = (metadataIn dir).getLast?.or
      ((recordsIn f.data (f.data.length + 1) 0).filterMap Record.metadata?).getLast? := by
  rw [metadataIn, flatMap_cons, filterMap_append, getLast?_append]
  rfl

theorem Scan.metadata_add {s s' : Scan} {rec : Record} (h : s.add rec = .ok s') :
    s'.metadata = rec.metadata?.or s.metadata := by
  unfold Scan.add at h
  unfold Record.metadata?
  cases htype : rec.type with
  | logEntry =>
    rw [htype] at h
    cases h
    rfl
  | hardState =>
    rw [htype] at h
    cases h
    rfl
  | metadata =>
    rw [htype] at h
    dsimp only at h
    split at h
    · cases h
    case h_2 m hm =>
      cases h
      simp [hm, Except.toOption]

theorem metadata_scanFrames {data : Bytes}
    (hread : ∀ offset < data.length, ReadsAlike data offset) {fuel offset : Nat} {s s' : Scan}
    {torn : Option Nat} (h : scanFrames data fuel offset s = .ok (s', torn)) :
    s'.metadata =
      ((recordsIn data fuel offset).filterMap Record.metadata?).getLast?.or s.metadata := by
  induction fuel generalizing offset s with
  | zero => cases h
  | succ fuel ih =>
    rw [scanFrames] at h
    rw [recordsIn]
    by_cases hoffset : offset < data.length
    · rw [if_pos hoffset]
      rw [hread offset hoffset] at h
      cases hdecode : decodeFrameBytes (data.drop offset) with
      | error e =>
        rw [hdecode] at h
        cases e with
        | tornTail => cases h; rfl
        | _ => cases h
      | ok r =>
        rw [hdecode] at h
        dsimp only [Except.map] at h ⊢
        split at h
        · cases h
        case h_2 s₁ hadd =>
          rw [ih h, Scan.metadata_add hadd, getLast?_filterMap_cons, Option.or_assoc]
    · rw [if_neg hoffset]
      rw [readFrame, if_pos (Nat.not_lt.mp hoffset)] at h
      cases h
      rfl

theorem metadata_scanSegments
    (hread : ∀ f ∈ dir, ∀ offset < f.data.length, ReadsAlike f.data offset) {s s' : Scan}
    {torn : Option Nat} (h : scanSegments dir s = .ok (s', torn)) :
    s'.metadata = (metadataIn dir).getLast?.or s.metadata := by
  induction dir generalizing s with
  | nil =>
    cases h
    rfl
  | cons f rest ih =>
    have hframes := fun {s'' torn'} => @metadata_scanFrames f.data
      (hread f mem_cons_self) (f.data.length + 1) 0 s s'' torn'
    cases rest with
    | nil =>
      rw [hframes h, getLast?_metadataIn_cons]
      rfl
    | cons g rest =>
      rw [scanSegments] at h
      · split at h
        · cases h
        · cases h
        case h_3 s₁ hscan =>
          rw [ih (fun f' hf' => hread f' (mem_cons_of_mem _ hf')) h, hframes hscan,
            ← Option.or_assoc, getLast?_metadataIn_cons f (g :: rest)]
      · simp

/-! ## Acceptance -/

/-- What `Open` asks of a complete scan, when the metadata is of a supported kind. -/
theorem openWAL_ok_iff {last : SegmentFile} (hlast : dir.getLast? = some last) {m : Metadata}
    (hversion : m.formatVersion = formatVersion)
    (hgeneration : m.clusterGeneration ≤ maxSupportedGeneration) (maxSize : Nat) (nodeID : Bytes)
    (hmetadata : ∀ s torn, scanSegments dir ⟨none, none, []⟩ = .ok (s, torn) →
      s.metadata = some m) :
    (∃ r, openWAL dir maxSize nodeID = .ok r) ↔
      ∃ s torn, scanSegments dir ⟨none, none, []⟩ = .ok (s, torn) ∧
        ∃ n, checkLive m.latestSnapshotIndex s.logIndices m.latestSnapshotIndex false = .ok n := by
  rw [openWAL, hlast]
  dsimp only
  rw [openExisting]
  cases hscan : scanSegments dir ⟨none, none, []⟩ with
  | error e => simp
  | ok r =>
    obtain ⟨s, torn⟩ := r
    have hsome := hmetadata s torn hscan
    dsimp only
    rw [hsome]
    dsimp only
    rw [if_neg (not_not.mpr hversion), if_neg (Nat.not_lt.mpr hgeneration)]
    cases hlive : checkLive m.latestSnapshotIndex s.logIndices m.latestSnapshotIndex false with
    | error e => simp [hlive]
    | ok n => simp [hlive]

/-- `Scrub` finds nothing exactly if `Open` accepts, and both read the same at every offset,
exactly if no frame that is there as a whole declares more than a record may have. -/
theorem scrub_accepts_iff {dir : Dir} {m : Metadata} (hids : (dir.map (·.id)).Nodup)
    (hm : (metadataIn dir).getLast? = some m) (hversion : m.formatVersion = formatVersion)
    (hgeneration : m.clusterGeneration ≤ maxSupportedGeneration) (maxSize : Nat)
    (nodeID : Bytes) :
    (((scrub dir).1 = [] ↔ ∃ r, openWAL dir maxSize nodeID = .ok r) ∧
      ∀ f ∈ dir, ∀ offset < f.data.length, ReadsAlike f.data offset) ↔
      ∀ f ∈ dir, ∀ offset < f.data.length, ¬Oversized (f.data.drop offset) := by
  have hoffsets : (∀ f ∈ dir, ∀ offset < f.data.length, ReadsAlike f.data offset) ↔
      ∀ f ∈ dir, ∀ offset < f.data.length, ¬Oversized (f.data.drop offset) :=
    forall₂_congr fun f _ => forall₂_congr fun offset h => readsAlike_iff h
  rw [← hoffsets]
  refine and_iff_right_of_imp fun hread => ?_
  obtain ⟨last, hlast⟩ : ∃ last, dir.getLast? = some last := by
    cases hdir : dir.getLast? with
    | some last => exact ⟨last, rfl⟩
    | none =>
      rw [List.getLast?_eq_none_iff.mp hdir] at hm
      cases hm
  have hmetadata : ∀ s torn, scanSegments dir ⟨none, none, []⟩ = .ok (s, torn) →
      s.metadata = some m := fun s torn hscan => by
    rw [metadata_scanSegments hread hscan, hm, Option.some_or]
  rw [openWAL_ok_iff hlast hversion hgeneration maxSize nodeID hmetadata]
  have hfollows := @follows_scrubSegments dir hread hids last hlast ⟨none, none, []⟩ .start
    ⟨rfl, rfl, rfl, rfl⟩
  rw [scrub, hlast]
  dsimp only [Option.map_some, Option.getD_some]
  generalize dir.foldl (scrubSegment last.id) .start = t at hfollows ⊢
  rw [List.append_eq_nil_iff]
  cases hscan : scanSegments dir ⟨none, none, []⟩ with
  | error e =>
    rw [hscan] at hfollows
    exact iff_of_false (fun h => hfollows h.1) (by simp)
  | ok r =>
    obtain ⟨s, torn⟩ := r
    have hagree : Agree s t := by simpa [hscan, Follows] using hfollows
    have hboundary : t.boundary = m.latestSnapshotIndex := by
      rw [hagree.boundary, hmetadata s torn hscan]
      rfl
    rw [and_iff_right hagree.findings, hagree.complete, contiguityFindings_eq_nil_iff,
      hagree.indices, hboundary]
    simp

/-! ## A record that is too large at the end of the log -/

theorem length_before_oversized (front : Bytes) {tail : Bytes} (h : Oversized tail) :
    ∃ n, (front ++ tail).length = n + 1 ∧ front.length < n + 1 := by
  have hpos : 0 < headerSize := by decide
  have := h.1
  rw [length_append]
  exact ⟨front.length + tail.length - 1, by omega, by omega⟩

section TooLarge

variable {r : Record} (hr : r.Fits) {tail : Bytes} (htail : Oversized tail)
include hr htail

theorem decodes_before_tooLarge :
    decodeFrameBytes ((r.frame ++ tail).drop 0) = .ok (r, r.frame.length) ∧
      decodeFrameBytes ((r.frame ++ tail).drop r.frame.length) =
        .error (.recordTooLarge (frameLength tail)) := by
  rw [drop_zero, drop_left]
  exact ⟨decodeFrameBytes_frame hr tail, decodeFrameBytes_of_oversized htail⟩

theorem recordsIn_tooLarge :
    recordsIn (r.frame ++ tail) ((r.frame ++ tail).length + 1) 0 = [r] := by
  obtain ⟨hfirst, hsecond⟩ := decodes_before_tooLarge hr htail
  obtain ⟨n, hn, hlt⟩ := length_before_oversized r.frame htail
  rw [hn, recordsIn, if_pos (by omega), hfirst]
  dsimp only
  rw [Nat.zero_add, recordsIn, if_pos (by omega), hsecond]

theorem scanFrames_tooLarge {s s' : Scan} (hadd : s.add r = .ok s') :
    scanFrames (r.frame ++ tail) ((r.frame ++ tail).length + 1) 0 s =
      .ok (s', some r.frame.length) := by
  obtain ⟨n, hn, hlt⟩ := length_before_oversized r.frame htail
  have hfirst := readFrame_frame hr [] tail
  have hsecond : readFrame (r.frame ++ tail) r.frame.length = .error .tornTail := by
    rw [readFrame_eq_readCapped (by omega), drop_left, readCapped_of_oversized htail]
    rfl
  rw [nil_append, length_nil] at hfirst
  rw [hn, scanFrames, hfirst]
  dsimp only
  rw [hadd]
  dsimp only
  rw [Nat.zero_add, scanFrames, hsecond]

theorem metadataIn_tooLarge (id : Nat) :
    (metadataIn [⟨id, r.frame ++ tail, 0⟩]).getLast? = r.metadata? := by
  rw [getLast?_metadataIn_cons, recordsIn_tooLarge hr htail, getLast?_filterMap_cons]
  rfl

theorem scrub_tooLarge (id : Nat) : (scrub [⟨id, r.frame ++ tail, 0⟩]).1 ≠ [] := by
  obtain ⟨hfirst, hsecond⟩ := decodes_before_tooLarge hr htail
  obtain ⟨n, hn, hlt⟩ := length_before_oversized r.frame htail
  have hfound : ∀ t, (scrubSegment id t ⟨id, r.frame ++ tail, 0⟩).findings ≠ [] := by
    intro t
    rw [scrubSegment]
    dsimp only
    rw [hn, scrubFrames, if_pos (by omega), hfirst]
    dsimp only
    rw [Nat.zero_add, scrubFrames, if_pos (by omega), hsecond]
    exact ScrubState.findings_report_ne _ _
  exact fun h => hfound _ (append_eq_nil_iff.mp h).1

theorem openWAL_tooLarge {m : Metadata} (hm : Scan.add ⟨none, none, []⟩ r = .ok ⟨some m, none, []⟩)
    (hversion : m.formatVersion = formatVersion)
    (hgeneration : m.clusterGeneration ≤ maxSupportedGeneration) (id maxSize : Nat)
    (nodeID : Bytes) :
    ∃ result, openWAL [⟨id, r.frame ++ tail, 0⟩] maxSize nodeID = .ok result := by
  have hscan : scanSegments [⟨id, r.frame ++ tail, 0⟩] ⟨none, none, []⟩ =
      .ok (⟨some m, none, []⟩, some r.frame.length) := scanFrames_tooLarge hr htail hm
  have hlast : ([⟨id, r.frame ++ tail, 0⟩] : Dir).getLast? = some ⟨id, r.frame ++ tail, 0⟩ := rfl
  refine (openWAL_ok_iff hlast hversion hgeneration maxSize nodeID fun s torn h => ?_).mpr
    ⟨_, _, hscan, m.latestSnapshotIndex, rfl⟩
  obtain ⟨rfl, -⟩ := Prod.mk.inj (Except.ok.inj (hscan.symm.trans h))
  rfl

end TooLarge

def plainMetadata : Metadata := ⟨[110], formatVersion, 0, 0⟩

def metadataRecord : Record := ⟨.metadata, 0, encodeMetadata plainMetadata⟩

/-- A log record of one byte more than a record may have. -/
def tooLargeFrame : Bytes :=
  encodeHeader .logEntry 1 (maxRecordPayloadSize + 1) ++
    List.replicate (maxRecordPayloadSize + 1 + checksumSize) 0

def tooLargeLog : Dir := [⟨1, metadataRecord.frame ++ tooLargeFrame, 0⟩]

theorem oversized_tooLargeFrame : Oversized tooLargeFrame := by
  have hlength : frameLength tooLargeFrame = maxRecordPayloadSize + 1 := by
    rw [frameLength, tooLargeFrame, header_length, getUint_putUint_of_lt (by decide)]
  have htotal : tooLargeFrame.length =
      headerSize + (maxRecordPayloadSize + 1 + checksumSize) := by
    rw [tooLargeFrame, length_append, length_encodeHeader, length_replicate]
  refine ⟨by omega, header_version _ _ _ _, by omega, by omega⟩

theorem metadataRecord_fits : metadataRecord.Fits := ⟨by decide, by decide⟩

theorem scrub_rejects_opened :
    (metadataIn tooLargeLog).getLast? = some plainMetadata ∧ (scrub tooLargeLog).1 ≠ [] ∧
      ∃ r, openWAL tooLargeLog 0 [] = .ok r :=
  ⟨(metadataIn_tooLarge metadataRecord_fits oversized_tooLargeFrame 1).trans (by decide),
    scrub_tooLarge metadataRecord_fits oversized_tooLargeFrame 1,
    openWAL_tooLarge metadataRecord_fits oversized_tooLargeFrame (m := plainMetadata) (by decide)
      rfl (by decide) 1 0 []⟩

def freshLog : Dir := [⟨1, metadataRecord.frame, 0⟩]

theorem scrub_accepts_fresh :
    (scrub freshLog).1 = [] ∧ ∃ r, openWAL freshLog 0 [] = .ok r := by
  have hfound : (scrub freshLog).1 = [] := by decide +kernel
  have hm : (metadataIn freshLog).getLast? = some plainMetadata := by decide +kernel
  have hiff := scrub_accepts_iff (by decide) hm rfl (by decide) 0 []
  exact ⟨hfound, (hiff.mpr (by decide +kernel)).1.mp hfound⟩

end ChronicleDB.Wal
