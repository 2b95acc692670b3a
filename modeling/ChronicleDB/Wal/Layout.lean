import ChronicleDB.Wal.Recovery

/-!
# Layouts: directories as lists of records

A layout gives each segment file as the list of records framed in it.  Every
scan of the WAL package, over bytes and offsets, is described here by what it
does on a layout, so that later proofs never look at a byte again.
-/

namespace ChronicleDB.Wal

open Foundation List

variable {d : Dir} {fuel target : Nat}

inductive Item where
  | entry (index : Nat) (payload : Bytes)
  | hardState (payload : Bytes)
  | metadata (m : Metadata)
  deriving DecidableEq, Repr

variable {its : List Item}

namespace Item

def record : Item → Record
  | entry index payload => ⟨.logEntry, index, payload⟩
  | hardState payload => ⟨.hardState, 0, payload⟩
  | metadata m => ⟨.metadata, 0, encodeMetadata m⟩

def frame (it : Item) : Bytes := it.record.frame

def metadata? : Item → Option Metadata
  | metadata m => some m
  | _ => none

def hardState? : Item → Option Bytes
  | hardState p => some p
  | _ => none

def index? : Item → Option Nat
  | entry i _ => some i
  | _ => none

/-- An item that its frame can hold. -/
structure Fits (it : Item) : Prop where
  record : it.record.Fits
  metadata : ∀ m, it = .metadata m → m.Fits

theorem length_frame (it : Item) :
    it.frame.length = headerSize + it.record.payload.length + checksumSize :=
  it.record.length_frame

theorem length_frame_pos (it : Item) : 0 < it.frame.length := by
  rw [length_frame, headerSize]
  omega

end Item

def frames (its : List Item) : Bytes := its.flatMap Item.frame

@[simp] theorem frames_nil : frames [] = [] := rfl

@[simp] theorem frames_cons (it : Item) (its : List Item) :
    frames (it :: its) = it.frame ++ frames its := rfl

@[simp] theorem frames_append (a b : List Item) :
    frames (a ++ b) = frames a ++ frames b := by
  simp [frames]

theorem length_le_length_frames (its : List Item) :
    its.length ≤ (frames its).length := by
  induction its with
  | nil => simp
  | cons it its ih =>
    have := it.length_frame_pos
    simp only [length_cons, frames_cons, length_append]
    omega

def lastMetadata (its : List Item) : Option Metadata :=
  (its.filterMap Item.metadata?).getLast?

def lastHardState (its : List Item) : Option Bytes :=
  (its.filterMap Item.hardState?).getLast?

def logIndices (its : List Item) : List Nat := its.filterMap Item.index?

@[simp] theorem lastMetadata_append (a b : List Item) :
    lastMetadata (a ++ b) = (lastMetadata b).or (lastMetadata a) := by
  simp [lastMetadata, getLast?_append]

@[simp] theorem lastHardState_append (a b : List Item) :
    lastHardState (a ++ b) = (lastHardState b).or (lastHardState a) := by
  simp [lastHardState, getLast?_append]

@[simp] theorem logIndices_append (a b : List Item) :
    logIndices (a ++ b) = logIndices a ++ logIndices b := by
  simp [logIndices]

/-! ## Layouts and what is written of them -/

abbrev Layout := List (Nat × List Item)

variable {L : Layout}

def Layout.items (L : Layout) : List Item := L.flatMap Prod.snd

def Layout.ids (L : Layout) : List Nat := L.map Prod.fst

/-- The files of `d` hold exactly the frames of `L`. -/
def Written (d : Dir) (L : Layout) : Prop :=
  d.map (fun s => (s.id, s.data)) = L.map fun p => (p.1, frames p.2)

def AllFit (L : Layout) : Prop := ∀ it ∈ L.items, it.Fits

theorem Written.ids_eq (h : Written d L) :
    d.map (·.id) = L.ids := by
  have := congrArg (map Prod.fst) h
  simpa [Layout.ids, Function.comp_def] using this

theorem written_cons {s : SegmentFile} {p : Nat × List Item} :
    Written (s :: d) (p :: L) ↔
      s.id = p.1 ∧ s.data = frames p.2 ∧ Written d L := by
  simp [Written, and_assoc]

theorem Written.cases_cons {p : Nat × List Item} (h : Written d (p :: L)) :
    ∃ s d', d = s :: d' ∧ s.id = p.1 ∧ s.data = frames p.2 ∧ Written d' L := by
  cases d with
  | nil => simp [Written] at h
  | cons s d' => exact ⟨s, d', rfl, written_cons.mp h⟩

theorem Written.eq_nil (h : Written d []) : d = [] := by
  simpa [Written] using h

@[simp] theorem Layout.items_cons (p : Nat × List Item) (L : Layout) :
    Layout.items (p :: L) = p.2 ++ L.items := rfl

@[simp] theorem Layout.items_append (L M : Layout) :
    Layout.items (L ++ M) = L.items ++ M.items := by
  simp [Layout.items]

@[simp] theorem Layout.items_nil : Layout.items [] = [] := rfl

/-! ## Reading one segment -/

theorem readFrame_item {it : Item} (h : it.Fits) (pre rest : List Item) :
    readFrame (frames (pre ++ it :: rest)) (frames pre).length =
      .ok (some (it.record, it.frame.length)) := by
  rw [frames_append, frames_cons]
  exact readFrame_frame h.record _ _

def Scan.observe (s : Scan) : Item → Scan
  | .entry index _ => { s with logIndices := s.logIndices ++ [index] }
  | .hardState payload => { s with latestHardState := some payload }
  | .metadata m => { s with metadata := some m }

theorem Scan.add_record (s : Scan) {it : Item} (h : it.Fits) :
    s.add it.record = .ok (s.observe it) := by
  cases it with
  | entry index payload => rfl
  | hardState payload => rfl
  | metadata m =>
    simp [Scan.add, Item.record, decodeMetadata_encodeMetadata (h.metadata m rfl), Scan.observe]

private theorem scanFrames_items (pre its : List Item) (hits : ∀ it ∈ its, it.Fits)
    (hfuel : its.length < fuel) (s : Scan) :
    scanFrames (frames (pre ++ its)) fuel (frames pre).length s =
      .ok (its.foldl Scan.observe s, none) := by
  induction its generalizing pre fuel s with
  | nil =>
    obtain ⟨fuel, rfl⟩ := Nat.exists_eq_succ_of_ne_zero (by omega : fuel ≠ 0)
    simp [scanFrames]
  | cons it its ih =>
    obtain ⟨fuel, rfl⟩ := Nat.exists_eq_succ_of_ne_zero (by omega : fuel ≠ 0)
    have hit := hits it mem_cons_self
    have hstep : scanFrames (frames (pre ++ [it] ++ its)) fuel
        (frames (pre ++ [it])).length (s.observe it) =
          .ok (its.foldl Scan.observe (s.observe it), none) :=
      ih (pre ++ [it]) (fun x hx => hits x (mem_cons_of_mem _ hx))
        (by simp at hfuel; omega) _
    simp only [append_assoc, singleton_append] at hstep
    rw [scanFrames, readFrame_item hit]
    simp only [s.add_record hit]
    rw [show (frames pre).length + it.frame.length = (frames (pre ++ [it])).length by
      simp, hstep, foldl_cons]

theorem scanFrames_frames (hits : ∀ it ∈ its, it.Fits) (s : Scan) :
    scanFrames (frames its) ((frames its).length + 1) 0 s =
      .ok (its.foldl Scan.observe s, none) := by
  have h := length_le_length_frames its
  exact scanFrames_items [] its hits (by omega) s

/-! ## Reading the directory -/

theorem scanSegments_written (h : Written d L) (hfit : AllFit L) (s : Scan) :
    scanSegments d s = .ok (L.items.foldl Scan.observe s, none) := by
  induction L generalizing d s with
  | nil =>
    rw [h.eq_nil]
    rfl
  | cons p L ih =>
    obtain ⟨f, d', rfl, -, hdata, hrest⟩ := h.cases_cons
    have hp : ∀ it ∈ p.2, it.Fits := fun it hit =>
      hfit it (by simp [hit])
    have hL : AllFit L := fun it hit => hfit it (by simp [hit])
    have hscan := scanFrames_frames hp s
    rw [← hdata] at hscan
    have htail := ih hrest hL (p.2.foldl Scan.observe s)
    cases d' with
    | nil =>
      have hnil : L = [] := by simpa [Written] using hrest
      subst hnil
      simp [scanSegments, hscan]
    | cons f' d' =>
      rw [scanSegments, hscan]
      · simp only [htail, Layout.items_cons, foldl_append]
      · simp

theorem foldl_observe (its : List Item) (s : Scan) :
    its.foldl Scan.observe s =
      ⟨(lastMetadata its).or s.metadata, (lastHardState its).or s.latestHardState,
        s.logIndices ++ logIndices its⟩ := by
  induction its generalizing s with
  | nil => simp [lastMetadata, lastHardState, logIndices]
  | cons it its ih =>
    rw [foldl_cons, ih, ← singleton_append, lastMetadata_append,
      lastHardState_append, logIndices_append]
    cases it <;>
      simp [Scan.observe, lastMetadata, lastHardState, logIndices, Item.metadata?,
        Item.hardState?, Item.index?]

private theorem checkLive_from {boundary : Nat} (idxs : List Nat) (j k : Nat)
    (live : Bool) (hlive : live = false → j = 0)
    (h : idxs.filter (boundary < ·) = range' (boundary + j + 1) k) :
    checkLive boundary idxs (boundary + j) live = .ok (boundary + j + k) := by
  induction idxs generalizing j k live with
  | nil =>
    cases k with
    | zero => simp [checkLive]
    | succ k => simp [range'] at h
  | cons idx idxs ih =>
    by_cases hle : idx ≤ boundary
    · rw [filter_cons_of_neg (by simpa using hle)] at h
      rw [checkLive, if_pos hle]
      exact ih j k live hlive h
    · rw [filter_cons_of_pos (by simpa using hle)] at h
      cases k with
      | zero => simp at h
      | succ k =>
        rw [range'_succ, cons.injEq] at h
        obtain ⟨rfl, h⟩ := h
        have hnext := ih (j + 1) k true (by simp) h
        rw [show boundary + j + (k + 1) = boundary + (j + 1) + k by omega, ← hnext]
        cases live with
        | true => simp [checkLive, Nat.add_assoc]
        | false =>
          obtain rfl := hlive rfl
          simp [checkLive]

theorem checkLive_range {boundary : Nat} {idxs : List Nat} {k : Nat}
    (h : idxs.filter (boundary < ·) = range' (boundary + 1) k) :
    checkLive boundary idxs boundary false = .ok (boundary + k) :=
  checkLive_from idxs 0 k false (fun _ => rfl) h

theorem openWAL_written (hw : Written d L) (hfit : AllFit L)
    {m : Metadata} (hm : lastMetadata L.items = some m) (hversion : m.formatVersion = formatVersion)
    (hgen : m.clusterGeneration ≤ maxSupportedGeneration) {k : Nat}
    (hlive : (logIndices L.items).filter (m.latestSnapshotIndex < ·) =
      range' (m.latestSnapshotIndex + 1) k)
    {c : Nat} (hlast : L.ids.getLast? = some c) {maxSize : Nat} (hmax : maxSize ≠ 0)
    (nodeID : Bytes) :
    openWAL d maxSize nodeID =
      .ok (⟨d, maxSize, c, m, m.latestSnapshotIndex + k + 1, m.latestSnapshotIndex + 1,
          lastHardState L.items⟩,
        ⟨d.length, m.latestSnapshotIndex + k, false, 0, m.latestSnapshotIndex + 1⟩) := by
  rw [← hw.ids_eq, getLast?_map, Option.map_eq_some_iff] at hlast
  obtain ⟨last, hlast, rfl⟩ := hlast
  have hscan := scanSegments_written hw hfit ⟨none, none, []⟩
  rw [foldl_observe, hm] at hscan
  simp only [Option.or_none, nil_append] at hscan
  rw [openWAL, hlast]
  simp only [if_neg hmax]
  unfold openExisting
  simp only [hscan, hversion, checkLive_range hlive, repairTail, ne_eq,
    not_true_eq_false, if_false, Nat.not_lt.mpr hgen]
  rfl

/-- Whatever recovery returns, it took from the last records. -/
theorem openWAL_written_inv (hw : Written d L) (hfit : AllFit L)
    (hne : L ≠ []) {maxSize : Nat} {nodeID : Bytes} {w : WAL} {report : RecoveryReport}
    (hopen : openWAL d maxSize nodeID = .ok (w, report)) :
    lastMetadata L.items = some w.metadata ∧
      w.firstLogIndex = w.metadata.latestSnapshotIndex + 1 := by
  have hd : d ≠ [] := by
    rintro rfl
    exact hne (by simpa [Written] using hw)
  have hscan := scanSegments_written hw hfit ⟨none, none, []⟩
  rw [foldl_observe] at hscan
  rw [openWAL, getLast?_eq_some_getLast hd] at hopen
  simp only [openExisting, hscan, Option.or_none] at hopen
  cases hm : lastMetadata L.items with
  | none => simp [hm] at hopen
  | some m =>
    simp only [hm] at hopen
    split at hopen
    · cases hopen
    · split at hopen
      · cases hopen
      · split at hopen
        · cases hopen
        · obtain ⟨rfl, -⟩ := Prod.mk.inj (Except.ok.inj hopen)
          exact ⟨rfl, rfl⟩

/-! ## Locating and replaying log records -/

def offsetOf (target : Nat) : List Item → Option Nat
  | [] => none
  | it :: its =>
    if it.index? = some target then some 0
    else (offsetOf target its).map (it.frame.length + ·)

theorem Item.isLogEntry_iff (it : Item) (target : Nat) :
    (it.record.type = .logEntry ∧ it.record.index = target) ↔
      it.index? = some target := by
  cases it <;> simp [Item.record, Item.index?]

private theorem locateFrame_items (pre its : List Item)
    (hits : ∀ it ∈ its, it.Fits) (hfuel : its.length < fuel) :
    locateFrame (frames (pre ++ its)) target fuel (frames pre).length =
      .ok ((offsetOf target its).map ((frames pre).length + ·)) := by
  induction its generalizing pre fuel with
  | nil =>
    obtain ⟨fuel, rfl⟩ := Nat.exists_eq_succ_of_ne_zero (by omega : fuel ≠ 0)
    simp [locateFrame, offsetOf]
  | cons it its ih =>
    obtain ⟨fuel, rfl⟩ := Nat.exists_eq_succ_of_ne_zero (by omega : fuel ≠ 0)
    have hstep : locateFrame (frames (pre ++ [it] ++ its)) target fuel
        (frames (pre ++ [it])).length =
          .ok ((offsetOf target its).map ((frames (pre ++ [it])).length + ·)) :=
      ih (pre ++ [it]) (fun x hx => hits x (mem_cons_of_mem _ hx))
        (by simp at hfuel; omega)
    rw [locateFrame, readFrame_item (hits it mem_cons_self)]
    simp only [Item.isLogEntry_iff, offsetOf]
    split
    · simp
    · simpa [Function.comp_def, Nat.add_assoc] using hstep

private theorem locateFrame_frames (hits : ∀ it ∈ its, it.Fits) :
    locateFrame (frames its) target ((frames its).length + 1) 0 =
      .ok (offsetOf target its) := by
  have h := length_le_length_frames its
  have := @locateFrame_items ((frames its).length + 1) target [] its hits (by omega)
  simpa using this

theorem offsetOf_absent (h : target ∉ logIndices its) : offsetOf target its = none := by
  induction its with
  | nil => rfl
  | cons it its ih =>
    have hit : it.index? ≠ some target := fun hi =>
      h (mem_filterMap.mpr ⟨it, mem_cons_self, hi⟩)
    have hits : target ∉ logIndices its := fun hmem =>
      h (by
        rw [← singleton_append, logIndices_append]
        exact mem_append_right _ hmem)
    simp [offsetOf, hit, ih hits]

theorem offsetOf_split {payload : Bytes} {pre post : List Item} (h : target ∉ logIndices pre) :
    offsetOf target (pre ++ .entry target payload :: post) =
      some (frames pre).length := by
  induction pre with
  | nil => simp [offsetOf, Item.index?]
  | cons it pre ih =>
    have hit : it.index? ≠ some target := fun hi =>
      h (mem_filterMap.mpr ⟨it, mem_cons_self, hi⟩)
    have hpre : target ∉ logIndices pre := fun hmem =>
      h (by
        rw [← singleton_append, logIndices_append]
        exact mem_append_right _ hmem)
    simp [offsetOf, hit, ih hpre]

theorem locateLogIndex_written {A B : Layout} {t : Nat} {payload : Bytes} {pre post : List Item}
    (hw : Written d (A ++ (t, pre ++ .entry target payload :: post) :: B))
    (hfit : AllFit (A ++ (t, pre ++ .entry target payload :: post) :: B))
    (hA : target ∉ logIndices A.items) (hpre : target ∉ logIndices pre) :
    locateLogIndex target d = .ok (some (t, (frames pre).length)) := by
  induction A generalizing d with
  | nil =>
    obtain ⟨f, d', rfl, hid, hdata, -⟩ := Written.cases_cons hw
    rw [locateLogIndex, hdata, locateFrame_frames (fun it hit => hfit it (by simp at hit ⊢; tauto)),
      offsetOf_split hpre, hid]
  | cons p A ih =>
    obtain ⟨f, d', rfl, -, hdata, hrest⟩ := Written.cases_cons hw
    simp only [Layout.items_cons, logIndices_append, mem_append, not_or] at hA
    rw [locateLogIndex, hdata, locateFrame_frames (fun it hit => hfit it (by simp [hit])),
      offsetOf_absent hA.1]
    exact ih hrest (fun it hit => hfit it (by simp at hit ⊢; tauto)) hA.2

theorem locateLogIndex_absent (hw : Written d L)
    (hfit : AllFit L) (h : target ∉ logIndices L.items) :
    locateLogIndex target d = .ok none := by
  induction L generalizing d with
  | nil =>
    rw [hw.eq_nil]
    rfl
  | cons p L ih =>
    obtain ⟨f, d', rfl, -, hdata, hrest⟩ := hw.cases_cons
    simp only [Layout.items_cons, logIndices_append, mem_append, not_or] at h
    rw [locateLogIndex, hdata,
      locateFrame_frames (fun it hit => hfit it (by simp [hit])), offsetOf_absent h.1]
    exact ih hrest (fun it hit => hfit it (by simp [hit])) h.2

def served (fromIndex : Nat) (its : List Item) : List Record :=
  (its.map Item.record).filter fun r => r.type = .logEntry ∧ fromIndex ≤ r.index

@[simp] theorem served_append (fromIndex : Nat) (a b : List Item) :
    served fromIndex (a ++ b) = served fromIndex a ++ served fromIndex b := by
  simp [served]

private theorem replayFrames_items {fromIndex : Nat} (pre its : List Item)
    (hits : ∀ it ∈ its, it.Fits) (hfuel : its.length < fuel) :
    replayFrames (frames (pre ++ its)) fromIndex fuel (frames pre).length =
      .ok (served fromIndex its) := by
  induction its generalizing pre fuel with
  | nil =>
    obtain ⟨fuel, rfl⟩ := Nat.exists_eq_succ_of_ne_zero (by omega : fuel ≠ 0)
    simp [replayFrames, served]
  | cons it its ih =>
    obtain ⟨fuel, rfl⟩ := Nat.exists_eq_succ_of_ne_zero (by omega : fuel ≠ 0)
    have hstep : replayFrames (frames (pre ++ [it] ++ its)) fromIndex fuel
        (frames (pre ++ [it])).length = .ok (served fromIndex its) :=
      ih (pre ++ [it]) (fun x hx => hits x (mem_cons_of_mem _ hx))
        (by simp at hfuel; omega)
    rw [replayFrames, readFrame_item (hits it mem_cons_self)]
    simp only [append_assoc, singleton_append, frames_append, frames_cons,
      frames_nil, append_nil, length_append] at hstep
    simp only [frames_append, frames_cons, hstep, served, map_cons, filter_cons, decide_eq_true_eq]
    by_cases hserved : it.record.type = .logEntry ∧ fromIndex ≤ it.record.index
    · rw [if_neg (by simpa [not_or, not_lt] using hserved), if_pos hserved]
    · rw [if_pos (by rwa [ne_eq, ← not_le, ← not_and_or]), if_neg hserved]

theorem replay_written (hw : Written d L) (hfit : AllFit L)
    (fromIndex : Nat) : replay fromIndex d = .ok (served fromIndex L.items) := by
  induction L generalizing d with
  | nil =>
    rw [hw.eq_nil]
    rfl
  | cons p L ih =>
    obtain ⟨f, d', rfl, -, hdata, hrest⟩ := hw.cases_cons
    have hlen := length_le_length_frames p.2
    have hp := @replayFrames_items ((frames p.2).length + 1) fromIndex [] p.2
      (fun it hit => hfit it (by simp [hit])) (by omega)
    simp only [nil_append, frames_nil, length_nil] at hp
    rw [replay, hdata, hp, ih hrest fun it hit => hfit it (by simp [hit])]
    simp

end ChronicleDB.Wal
