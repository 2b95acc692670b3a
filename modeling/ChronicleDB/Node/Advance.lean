import ChronicleDB.Node.Mirror

/-!
# Moving the snapshot boundary

A local snapshot and the installation of a peer's snapshot share their first
two writes: a metadata record with the new pointer, and the hard state again
behind it.  The segments deleted afterwards can hold every earlier copy of the
two, so what counts is whether the new ones share a segment.
-/

namespace ChronicleDB.Node

open Foundation Raft Wal List Layout WAL

/-! ## The pointer record and the hard state behind it -/

def pointerItem (w : WAL) (uptoIndex : Nat) : Item :=
  .metadata { w.metadata with latestSnapshotIndex := uptoIndex }

def hardStateItem (hs : HardState) : Item := .hardState (encodeHardState hs)

def pointed (w : WAL) (uptoIndex : Nat) : WAL :=
  { w.afterAppend (pointerItem w uptoIndex) with
    metadata := { w.metadata with latestSnapshotIndex := uptoIndex }
    firstLogIndex := uptoIndex + 1 }

def synced (w : WAL) : WAL := w.perform w.syncOps

def reaffirmed (w : WAL) (hs : HardState) : WAL :=
  { w.afterAppend (hardStateItem hs) with latestHardState := some (encodeHardState hs) }

def advanced (w : WAL) (uptoIndex : Nat) (hs : HardState) : WAL :=
  synced (reaffirmed (synced (pointed w uptoIndex)) hs)

def pointerOps (w : WAL) (uptoIndex : Nat) : List FileOp :=
  w.appendOps (pointerItem w uptoIndex) ++ (pointed w uptoIndex).syncOps

def reaffirmOps (w : WAL) (hs : HardState) : List FileOp :=
  w.appendOps (hardStateItem hs) ++ (reaffirmed w hs).syncOps

def advancedLayout (w : WAL) (L : Layout) (uptoIndex : Nat) (hs : HardState) : Layout :=
  (synced (pointed w uptoIndex)).appended (w.appended L (pointerItem w uptoIndex))
    (hardStateItem hs)

/-- The first of two records is appended to the current segment and the second
opens a new one. -/
def SplitsPair (w : WAL) (first second : Nat) : Prop :=
  ¬w.rotates first ∧ w.current < w.nextLogIndex ∧
    w.segmentMaxSize < fileSize w.dir w.current + first + second

instance (w : WAL) (first second : Nat) : Decidable (SplitsPair w first second) :=
  inferInstanceAs (Decidable (_ ∧ _ ∧ _))

/-- The pointer record and the hard state record fall into different segments. -/
def Separates (w : WAL) (uptoIndex : Nat) (hs : HardState) : Prop :=
  SplitsPair w (pointerItem w uptoIndex).frame.length (hardStateItem hs).frame.length

instance (w : WAL) (uptoIndex : Nat) (hs : HardState) :
    Decidable (Separates w uptoIndex hs) :=
  inferInstanceAs (Decidable (SplitsPair ..))

variable {w : WAL} {L : Layout}

theorem appended_last (h : LaidOut w L) (it : Item) :
    ∃ P its, w.appended L it = P ++ [(w.appendTarget it, its ++ [it])] ∧
      (w.rotates it.frame.length → P = L ∧ its = []) ∧
      (¬w.rotates it.frame.length → L = P ++ [(w.current, its)]) := by
  by_cases hrot : w.rotates it.frame.length
  · refine ⟨L, [], ?_, fun _ => ⟨rfl, rfl⟩, fun hn => absurd hrot hn⟩
    rw [appended, appendTarget, if_pos hrot, if_pos hrot]
    rfl
  · obtain ⟨A, its, rfl, -⟩ := h.split
    refine ⟨A, its, ?_, fun hr => absurd hr hrot, fun _ => rfl⟩
    rw [appended, appendTarget, if_neg hrot, if_neg hrot, push_concat]

theorem fileSize_current {w : WAL} {P : Layout} {c : Nat} {its : List Item}
    (h : LaidOut w (P ++ [(c, its)])) : fileSize w.dir w.current = (frames its).length := by
  have hc : c = w.current := by simpa [ids] using h.current
  subst hc
  refine fileSize_written h.written fun hmem => ?_
  have hasc := h.ascending
  simp only [ids, map_append, pairwise_append] at hasc
  exact lt_irrefl _ (hasc.2.2 _ hmem _ (by simp))

theorem rotates_synced_pointed (h : Coherent w L) {u : Nat}
    (hu : w.metadata.latestSnapshotIndex ≤ u) (hlt : u < 2 ^ 64) (n : Nat) :
    (synced (pointed w u)).rotates n ↔ SplitsPair w (pointerItem w u).frame.length n := by
  have hit : (pointerItem w u).Fits := h.fits_snapshot hlt
  have hlaid := ((h.appendMetadata hit hu h.version h.generation).sync).toLaidOut
  change LaidOut (synced (pointed w u)) _ at hlaid
  obtain ⟨P, its, hL, hrotates, hstays⟩ := appended_last h.toLaidOut (pointerItem w u)
  change LaidOut (synced (pointed w u)) (w.appended L (pointerItem w u)) at hlaid
  rw [hL] at hlaid
  have hsize := fileSize_current hlaid
  have hpos := (pointerItem w u).length_frame_pos
  rw [frames_append, frames_cons, frames_nil, append_nil, length_append] at hsize
  by_cases hrot : w.rotates (pointerItem w u).frame.length
  · have hcur : (synced (pointed w u)).current = w.nextLogIndex := if_pos hrot
    have hnext : (synced (pointed w u)).nextLogIndex = w.nextLogIndex := rfl
    refine ⟨fun hr => ?_, fun hs => absurd hrot hs.1⟩
    have := hr.2.2
    omega
  · have hcur : (synced (pointed w u)).current = w.current := if_neg hrot
    have hnext : (synced (pointed w u)).nextLogIndex = w.nextLogIndex := rfl
    have hmax : (synced (pointed w u)).segmentMaxSize = w.segmentMaxSize := rfl
    have hold : fileSize w.dir w.current = (frames its).length :=
      fileSize_current (hstays hrot ▸ h.toLaidOut)
    rw [rotates, hsize, hcur, hnext, hmax, SplitsPair, hold]
    constructor
    · rintro ⟨-, hover, hprogress⟩
      exact ⟨hrot, hprogress, hover⟩
    · rintro ⟨-, hprogress, hover⟩
      exact ⟨by omega, hover, hprogress⟩

theorem advancedLayout_apart (h : Coherent w L) {u : Nat} {hs : HardState}
    (hu : w.metadata.latestSnapshotIndex ≤ u) (hlt : u < 2 ^ 64) (hsep : Separates w u hs) :
    advancedLayout w L u hs =
      w.appended L (pointerItem w u) ++ [(w.nextLogIndex, [hardStateItem hs])] :=
  if_pos ((rotates_synced_pointed h hu hlt _).mpr hsep)

theorem advancedLayout_together (h : Coherent w L) {u : Nat} {hs : HardState}
    (hu : w.metadata.latestSnapshotIndex ≤ u) (hlt : u < 2 ^ 64) (hsep : ¬Separates w u hs) :
    ∃ P c its, advancedLayout w L u hs =
      P ++ [(c, its ++ [pointerItem w u, hardStateItem hs])] := by
  obtain ⟨P, its, hL, -⟩ := appended_last h.toLaidOut (pointerItem w u)
  refine ⟨P, w.appendTarget (pointerItem w u), its, ?_⟩
  have hstay : ¬(synced (pointed w u)).rotates (hardStateItem hs).frame.length := fun hr =>
    hsep ((rotates_synced_pointed h hu hlt _).mp hr)
  rw [advancedLayout, appended, if_neg hstay, hL, push_concat]
  simp

/-! ## What the two writes leave -/

section Advance

variable {w : WAL} {L : Layout} {hs : HardState} {es : List Entry} {u : Nat}

theorem appendMetadataSnapshot_eq (h : Coherent w L)
    (hu : w.metadata.latestSnapshotIndex ≤ u) (hlt : u < 2 ^ 64) :
    w.appendMetadataSnapshot u = .ok (pointerOps w u, synced (pointed w u)) := by
  have hit : (pointerItem w u).Fits := h.fits_snapshot hlt
  simp only [appendMetadataSnapshot, if_neg (Nat.not_lt.mpr hu),
    appendMetadata_eq h.toLaidOut hit]
  rfl

private theorem Backs.log_drop (h : Backs w L hs es)
    (hu : w.metadata.latestSnapshotIndex ≤ u) :
    decodeRecords (served (u + 1) L.items) =
      .ok (es.drop (u - w.metadata.latestSnapshotIndex)) := by
  have hlen := length_of_decodeRecords h.log
  set k := u - w.metadata.latestSnapshotIndex
  rw [served_drop hu h.coherent.live]
  have hlog := h.log
  rw [← take_append_drop k (served (w.metadata.latestSnapshotIndex + 1) L.items)] at hlog
  rw [(decodeRecords_split hlog).2, length_take]
  congr 1
  by_cases hk : k ≤ es.length
  · rw [← hlen, Nat.min_eq_left hk]
  · rw [← hlen, Nat.min_eq_right (by omega), drop_length, drop_of_length_le (by omega)]

theorem Backs.pointed (h : Backs w L hs es) (hu : w.metadata.latestSnapshotIndex ≤ u)
    (hlt : u < 2 ^ 64) :
    Backs (pointed w u) (w.appended L (pointerItem w u)) hs
      (es.drop (u - w.metadata.latestSnapshotIndex)) where
  coherent := h.coherent.appendMetadata (h.coherent.fits_snapshot hlt) hu h.coherent.version
    h.coherent.generation
  ordered := (h.ordered.mono hu).appended h.coherent.toLaidOut h.coherent.below
    (h.coherent.next_anchored.imp_left fun hn => by omega)
    (by rintro m ⟨⟩; exact le_rfl)
  hard := h.hard
  hardFits := h.hardFits
  log := by
    rw [h.coherent.toLaidOut.items_appended, pointerItem, served_metadata]
    exact h.log_drop hu

theorem Backs.advanced (h : Backs w L hs es) (hu : w.metadata.latestSnapshotIndex ≤ u)
    (hlt : u < 2 ^ 64) :
    Backs (advanced w u hs) (advancedLayout w L u hs) hs
      (es.drop (u - w.metadata.latestSnapshotIndex)) :=
  ((h.pointed hu hlt).sync.appendHardState h.hardFits).sync

/-- A crash during the two writes leaves the old boundary or the new one. -/
theorem Backs.advance_image (h : Backs w L hs es)
    (hu : w.metadata.latestSnapshotIndex ≤ u) (hlt : u < 2 ^ 64) {d : Dir}
    (hd : d ∈ crashImages applyOp w.dir
      (pointerOps w u ++ reaffirmOps (synced (Node.pointed w u)) hs)) :
    (∃ M, Readable d M w.metadata hs es) ∨
      ∃ M, Readable d M { w.metadata with latestSnapshotIndex := u } hs
        (es.drop (u - w.metadata.latestSnapshotIndex)) := by
  have hp := h.pointed hu hlt
  have hdir : (synced (Node.pointed w u)).dir = perform applyOp w.dir (pointerOps w u) := by
    rw [pointerOps, perform_append]
    rfl
  rw [mem_crashImages_append, ← hdir] at hd
  rcases hd with hd | hd
  · exact h.append_sync_image (h.coherent.fits_snapshot hlt) hp rfl hd
  · exact .inr ((hp.sync.append_sync_image h.hardFits.item
      (hp.sync.appendHardState h.hardFits) rfl hd).elim id id)

def pairSegments (w : WAL) (uptoIndex : Nat) (hs : HardState) : Nat :=
  if Separates w uptoIndex hs then 2 else 1

theorem advancedLayout_newest (h : Coherent w L) (hu : w.metadata.latestSnapshotIndex ≤ u)
    (hlt : u < 2 ^ 64) {S : Layout} (hS : S <:+ advancedLayout w L u hs)
    (hlen : pairSegments w u hs ≤ S.length) :
    ∃ pre, S.items = pre ++ [pointerItem w u, hardStateItem hs] := by
  by_cases hsep : Separates w u hs
  · rw [pairSegments, if_pos hsep] at hlen
    obtain ⟨P, its, hL, -⟩ := appended_last h.toLaidOut (pointerItem w u)
    rw [advancedLayout_apart h hu hlt hsep, hL, append_assoc] at hS
    obtain ⟨S, rfl⟩ := suffix_of_suffix_length_le (suffix_append P _) hS
      (by simpa using hlen)
    exact ⟨items S ++ its, by simp⟩
  · rw [pairSegments, if_neg hsep] at hlen
    obtain ⟨P, c, its, hL⟩ := advancedLayout_together h hu hlt hsep
    rw [hL] at hS
    obtain ⟨S, rfl⟩ := suffix_of_suffix_length_le (suffix_append P _) hS
      (by simpa using hlen)
    exact ⟨items S ++ its, by simp⟩

end Advance

/-! ## Deleting old segments -/

/-- Newest segments that still carry metadata and hard state, the pointer
covering the others. -/
theorem Backs.newest {w : WAL} {P Q : Layout} {hs : HardState} {es : List Entry}
    (h : Backs w (P ++ Q) hs es) {d : Dir} (hd : Holds d Q)
    (hmeta : lastMetadata Q.items = some w.metadata)
    (hhard : lastHardState Q.items = w.latestHardState)
    (hP : ∀ i ∈ logIndices P.items, i ≤ w.metadata.latestSnapshotIndex) :
    Backs { w with dir := d } Q hs es := by
  have hc := h.coherent
  have hnone : (logIndices P.items).filter (w.metadata.latestSnapshotIndex < ·) = [] := by
    rw [filter_eq_nil_iff]
    intro i hi
    simpa using hP i hi
  have hserved : served (w.metadata.latestSnapshotIndex + 1) P.items = [] := by
    rw [← map_eq_nil_iff (f := fun r : Record => r.index), map_index_served, hnone]
  have hlast : ids (P ++ Q) = P.ids ++ Q.ids := by simp [ids]
  have hne : Q.ids ≠ [] := by simpa [ids] using hd.ne_nil
  have hcurrent := hc.current
  have hinc := hc.increasing
  have hbelow := hc.below
  have hlive := hc.live
  have hlog := h.log
  rw [hlast, getLast?_append_of_ne_nil _ hne] at hcurrent
  rw [items_append, logIndices_append, pairwise_append] at hinc
  rw [items_append, logIndices_append] at hbelow
  rw [items_append, logIndices_append, filter_append, hnone, nil_append] at hlive
  rw [items_append, served_append, hserved, nil_append] at hlog
  exact ⟨⟨⟨hd, hcurrent⟩, hmeta, hhard, hc.first, hc.version, hc.generation, hc.nodeID,
    hinc.2.1, fun i hi => hbelow i (mem_append_right _ hi), hlive, hc.sized⟩,
    h.ordered.back hP, h.hard, h.hardFits, hlog⟩

theorem Backs.compact {w : WAL} {P Q : Layout} {q : Nat × List Item} {hs : HardState}
    {es : List Entry} (h : Backs w (P ++ q :: Q) hs es) (need retain : Nat)
    (hkeep : ∀ S : Layout, S <:+ P ++ q :: Q → need ≤ S.length →
      lastMetadata S.items = some w.metadata ∧ lastHardState S.items = w.latestHardState)
    (hq : P ≠ [] → q.1 - 1 ≤ w.metadata.latestSnapshotIndex)
    (hneed : need ≤ min P.length retain + 1 + Q.length) :
    (∀ d ∈ crashImages applyOp w.dir (compactOps P retain), ∃ M, Readable d M w.metadata hs es) ∧
    ∃ M, Backs (w.perform (compactOps P retain)) M hs es := by
  obtain ⟨himages, hfinal⟩ := h.coherent.toHolds.compact (cons_ne_nil q Q) retain
  have hnewest : ∀ k ≤ P.length - retain, ∀ d, Holds d (P.drop k ++ q :: Q) →
      Backs { w with dir := d } (P.drop k ++ q :: Q) hs es := by
    intro k hk d hd
    have hsplit : P ++ q :: Q = P.take k ++ (P.drop k ++ q :: Q) := by
      rw [← append_assoc, take_append_drop]
    obtain ⟨hmeta, hhard⟩ := hkeep (P.drop k ++ q :: Q) ⟨P.take k, hsplit.symm⟩ (by
      simp only [length_append, length_drop, length_cons]
      omega)
    refine (hsplit ▸ h).newest hd hmeta hhard fun i hi => ?_
    -- a deleted segment ends below the id of the first one kept
    obtain ⟨p, hp, hip⟩ := mem_flatMap.mp (mem_filterMap.mp hi).choose_spec.1
    have hpP : p ∈ P := mem_of_mem_take hp
    have hlt : i < q.1 := (pairwise_append.mp h.ordered.spans).2.2 p hpP q
      mem_cons_self i (mem_filterMap.mpr
        ⟨_, hip, (mem_filterMap.mp hi).choose_spec.2⟩)
    have := hq (ne_nil_of_mem hpP)
    omega
  refine ⟨fun d hd => ?_, _, hnewest _ le_rfl _ hfinal⟩
  obtain ⟨k, hk, hd⟩ := himages d hd
  exact ⟨_, (hnewest k hk d hd).readable⟩

end ChronicleDB.Node
