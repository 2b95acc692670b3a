import ChronicleDB.Wal.Coherence

/-!
# Torn tails

A write that stops halfway leaves a piece of a frame behind the last whole frame
of a segment.  `Open` cuts such a piece off the final segment and recovers what
lies before it.
-/

namespace ChronicleDB.Wal

open Foundation List Layout

variable {tail : Bytes} {its : List Item} {a : Dir} {seg : SegmentFile} {A : Layout}

/-- What a write of a frame can leave when it does not leave all of it. -/
def Torn (tail : Bytes) : Prop :=
  tail = [] ∨ ∃ it : Item, it.Fits ∧ ∃ k, 0 < k ∧ k < it.frame.length ∧ tail = it.frame.take k

/-- The files of `d` hold the frames of `L`, and `tail` behind the last of them. -/
def WrittenTorn (d : Dir) (L : Layout) (tail : Bytes) : Prop :=
  ∃ a seg A its, d = a ++ [seg] ∧ L = A ++ [(seg.id, its)] ∧ Written a A ∧
    seg.data = frames its ++ tail

def tornAt (its : List Item) (tail : Bytes) : Option Nat :=
  if tail = [] then none else some (frames its).length

/-! ## The scan -/

private theorem scanFrames_tail (htail : Torn tail) (pre its : List Item)
    (hits : ∀ it ∈ its, it.Fits) {fuel : Nat} (hfuel : its.length < fuel) (s : Scan) :
    scanFrames (frames (pre ++ its) ++ tail) fuel (frames pre).length s =
      .ok (its.foldl Scan.observe s, tornAt (pre ++ its) tail) := by
  obtain ⟨fuel, rfl⟩ := Nat.exists_eq_succ_of_ne_zero (by omega : fuel ≠ 0)
  induction its generalizing pre fuel s with
  | nil =>
    rcases htail with rfl | ⟨it, hit, k, hpos, hk, rfl⟩
    · simp [scanFrames, tornAt]
    · have hne : it.frame.take k ≠ [] := by
        rw [ne_eq, take_eq_nil_iff]
        rintro (rfl | hnil)
        · exact lt_irrefl 0 hpos
        · simp [hnil] at hk
      rw [tornAt, if_neg hne, append_nil, scanFrames, Item.frame,
        readFrame_torn hit.record _ hpos hk]
      rfl
  | cons it its ih =>
    have hit := hits it mem_cons_self
    obtain ⟨fuel, rfl⟩ := Nat.exists_eq_succ_of_ne_zero
      (by simp at hfuel; omega : fuel ≠ 0)
    have hrest := ih (pre ++ [it]) (fun x hx => hits x (mem_cons_of_mem _ hx))
      (s.observe it) fuel (by simp at hfuel; omega)
    rw [scanFrames, frames_append, frames_cons, append_assoc, append_assoc,
      show it.frame = it.record.frame from rfl, readFrame_frame hit.record]
    simp only [s.add_record hit]
    simpa [Item.frame] using hrest

theorem scanFrames_torn (htail : Torn tail) (hits : ∀ it ∈ its, it.Fits) (s : Scan) :
    scanFrames (frames its ++ tail) ((frames its ++ tail).length + 1) 0 s =
      .ok (its.foldl Scan.observe s, tornAt its tail) := by
  have hlen := length_le_length_frames its
  refine scanFrames_tail htail [] its hits ?_ s
  rw [length_append]
  omega

theorem scanSegments_torn (ha : Written a A) (hA : AllFit A) (hits : ∀ it ∈ its, it.Fits)
    (hdata : seg.data = frames its ++ tail) (htail : Torn tail) (s : Scan) :
    scanSegments (a ++ [seg]) s =
      .ok ((items (A ++ [(seg.id, its)])).foldl Scan.observe s, tornAt its tail) := by
  induction A generalizing a s with
  | nil =>
    rw [ha.eq_nil, nil_append, scanSegments, hdata, scanFrames_torn htail hits]
    simp
  | cons p A ih =>
    obtain ⟨f, a', rfl, -, hf, hrest⟩ := ha.cases_cons
    have hscan := @scanFrames_frames p.2 (fun x hx => hA x (by simp [hx])) s
    rw [← hf] at hscan
    rw [cons_append, scanSegments, hscan]
    · simp only [ih hrest fun x hx => hA x (by simp [hx]), cons_append,
        items_cons, foldl_append]
    · simp

/-! ## Open -/

theorem onFile_last {id : Nat} (hid : seg.id = id)
    (h : id ∉ a.map (·.id)) (f : SegmentFile → SegmentFile) :
    onFile id f (a ++ [seg]) = a ++ [f seg] := by
  have hsplit : onFile id f (a ++ [seg]) = onFile id f a ++ [f seg] := by simp [onFile, hid]
  rw [hsplit, onFile_absent f h]

theorem written_repairTail (ha : Written a A) (hid : seg.id ∉ A.ids)
    (hdata : seg.data = frames its ++ tail) :
    Written (repairTail (a ++ [seg]) seg.id (tornAt its tail)) (A ++ [(seg.id, its)]) := by
  rw [← ha.ids_eq] at hid
  rw [tornAt, written_append]
  split
  case isTrue hnil =>
    exact ⟨a, [seg], rfl, ha, written_cons.mpr ⟨rfl, by simp [hdata, hnil], rfl⟩⟩
  case isFalse =>
    refine ⟨a, [⟨seg.id, frames its, (frames its).length⟩], ?_, ha,
      written_cons.mpr ⟨rfl, rfl, rfl⟩⟩
    simp only [repairTail, perform, foldl_cons, foldl_nil, applyOp]
    rw [onFile_last rfl hid, hdata, take_left]
    exact onFile_last (by rfl) hid _

theorem openWAL_torn_eq {m : Metadata} {k : Nat} (ha : Written a A)
    (hfit : AllFit (A ++ [(seg.id, its)])) (hdata : seg.data = frames its ++ tail)
    (htail : Torn tail) (hc : Consistent (items (A ++ [(seg.id, its)])) m)
    (hk : (logIndices (items (A ++ [(seg.id, its)]))).filter (m.latestSnapshotIndex < ·) =
      range' (m.latestSnapshotIndex + 1) k) (maxSize : Nat) (nodeID : Bytes) :
    openWAL (a ++ [seg]) maxSize nodeID =
      .ok (⟨repairTail (a ++ [seg]) seg.id (tornAt its tail),
          if maxSize = 0 then defaultSegmentMaxSize else maxSize, seg.id, m,
          m.latestSnapshotIndex + k + 1, m.latestSnapshotIndex + 1,
          lastHardState (items (A ++ [(seg.id, its)]))⟩,
        ⟨(a ++ [seg]).length, m.latestSnapshotIndex + k, (tornAt its tail).isSome,
          (tornAt its tail).elim 0 (fileSize (a ++ [seg]) seg.id - ·),
          m.latestSnapshotIndex + 1⟩) := by
  have hscan := scanSegments_torn ha (fun x hx => hfit x (by simp [hx]))
    (fun x hx => hfit x (by simp [hx])) hdata htail ⟨none, none, []⟩
  rw [foldl_observe, hc.last] at hscan
  simp only [Option.or_none, nil_append] at hscan
  rw [openWAL, getLast?_concat]
  unfold openExisting
  simp only [hscan, hc.version, checkLive_range hk, ne_eq, not_true_eq_false, if_false,
    Nat.not_lt.mpr hc.generation]

theorem openWAL_torn {d : Dir} {L : Layout} {m : Metadata}
    (h : WrittenTorn d L tail) (htail : Torn tail) (hfit : AllFit L)
    (hasc : L.ids.Pairwise (· < ·)) (hc : Consistent L.items m) (maxSize : Nat) (nodeID : Bytes) :
    ∃ w report, openWAL d maxSize nodeID = .ok (w, report) ∧ Holds w.dir L := by
  obtain ⟨a, seg, A, its, rfl, rfl, ha, hdata⟩ := h
  have hid : seg.id ∉ A.ids := by
    intro hmem
    simp only [ids, map_append, pairwise_append] at hasc
    exact lt_irrefl _ (hasc.2.2 _ hmem _ (by simp))
  obtain ⟨k, hk⟩ := hc.live
  exact ⟨_, _, openWAL_torn_eq ha hfit hdata htail hc hk maxSize nodeID,
    written_repairTail ha hid hdata, hfit, hasc, by simp⟩

end ChronicleDB.Wal
