import ChronicleDB.Wal.Layout
import Mathlib.Data.List.Induction
import Mathlib.Data.List.TakeWhile

/-!
# File operations on layouts

What each file operation, and each append with its possible rotation, does to
the layout of a directory.
-/

namespace ChronicleDB.Wal

open Foundation List Layout WAL

variable {d : Dir} {c id : Nat} {its : List Item} {M : Layout} {it : Item}

/-! ## Single operations -/

variable {L A B : Layout}

theorem written_append : Written d (L ++ M) ↔ ∃ a b, d = a ++ b ∧ Written a L ∧ Written b M := by
  simp only [Written, map_append, map_eq_append_iff]

theorem written_sync (h : Written d L) (id : Nat) : Written (applyOp d (.sync id)) L := by
  rw [Written, ← h]
  simp only [applyOp, onFile, map_map]
  refine map_congr_left fun s _ => ?_
  by_cases hs : s.id = id <;> simp [hs]

theorem onFile_absent (f : SegmentFile → SegmentFile) (h : id ∉ d.map (·.id)) :
    onFile id f d = d := by
  rw [onFile]
  refine (map_congr_left fun s hs => ?_).trans (map_id d)
  rw [if_neg, id_eq]
  rintro rfl
  exact h (mem_map_of_mem hs)

private theorem written_onFile {t : Nat} {its' : List Item} (h : Written d (A ++ (t, its) :: B))
    (hA : t ∉ A.ids) (hB : t ∉ B.ids) {f : SegmentFile → SegmentFile}
    (hf : ∀ s, s.data = frames its → (f s).id = s.id ∧ (f s).data = frames its') :
    Written (onFile t f d) (A ++ (t, its') :: B) := by
  obtain ⟨a, b, rfl, ha, hb⟩ := written_append.mp h
  obtain ⟨s, b, rfl, hid, hdata, hb⟩ := Written.cases_cons hb
  have hsplit : onFile t f (a ++ s :: b) = a ++ f s :: b := by
    rw [← ha.ids_eq] at hA
    rw [← hb.ids_eq] at hB
    have hcons : onFile t f (a ++ s :: b) = onFile t f a ++ f s :: onFile t f b := by
      simp only [onFile, map_append, map_cons]
      rw [if_pos hid]
    rw [hcons, onFile_absent f hA, onFile_absent f hB]
  rw [hsplit, written_append]
  exact ⟨a, f s :: b, rfl, ha, written_cons.mpr ⟨(hf s hdata).1.trans hid, (hf s hdata).2, hb⟩⟩

theorem written_append_item (h : Written d (A ++ [(c, its)])) (hA : c ∉ A.ids) (it : Item) :
    Written (applyOp d (.append c it.frame)) (A ++ [(c, its ++ [it])]) :=
  written_onFile h hA (by simp [ids]) fun s hs => by simp [hs]

theorem written_shrink {t : Nat} {pre post : List Item} (h : Written d (A ++ (t, pre ++ post) :: B))
    (hA : t ∉ A.ids) (hB : t ∉ B.ids) :
    Written (applyOp d (.shrink t (frames pre).length)) (A ++ (t, pre) :: B) :=
  written_onFile h hA hB fun s hs => by simp [hs]

theorem written_create (h : Written d L) (hid : ∀ i ∈ L.ids, i < id) :
    Written (applyOp d (.create id)) (L ++ [(id, [])]) := by
  have hall : ∀ s ∈ d, decide (s.id < id) = true := fun s hs =>
    decide_eq_true (hid s.id (h.ids_eq ▸ mem_map_of_mem hs))
  rw [applyOp, takeWhile_eq_self_iff.mpr hall, dropWhile_eq_nil_iff.mpr hall]
  exact written_append.mpr ⟨d, _, rfl, h, written_cons.mpr ⟨rfl, rfl, rfl⟩⟩

theorem written_remove (h : Written d L) (id : Nat) :
    Written (applyOp d (.remove id)) (L.filter (·.1 ≠ id)) := by
  induction L generalizing d with
  | nil =>
    rw [h.eq_nil]
    rfl
  | cons p L ih =>
    obtain ⟨s, d', rfl, hid, hdata, hrest⟩ := h.cases_cons
    have := ih hrest
    simp only [applyOp, filter_cons, hid] at this ⊢
    split
    · exact written_cons.mpr ⟨hid, hdata, this⟩
    · exact this

theorem fileSize_written (h : Written d (A ++ (c, its) :: B)) (hA : c ∉ A.ids) :
    fileSize d c = (frames its).length := by
  obtain ⟨a, b, rfl, ha, hb⟩ := written_append.mp h
  obtain ⟨s, b, rfl, hid, hdata, -⟩ := Written.cases_cons hb
  have hnone : a.find? (fun s => decide (s.id = c)) = none := by
    rw [find?_eq_none]
    intro s hs hsc
    exact hA (by rw [← ha.ids_eq, ← of_decide_eq_true hsc]; exact mem_map_of_mem hs)
  simp [fileSize, find?_append, hnone, hid, hdata]

/-! ## A WAL and its layout -/

/-- The files of `d` hold the frames of `L`, in ascending order. -/
structure Holds (d : Dir) (L : Layout) : Prop where
  written : Written d L
  fit : AllFit L
  ascending : L.ids.Pairwise (· < ·)
  ne_nil : L ≠ []

/-- `L` is the layout of the open WAL `w`, its current segment last. -/
structure LaidOut (w : WAL) (L : Layout) : Prop extends Holds w.dir L where
  current : L.ids.getLast? = some w.current

def WAL.rotates (w : WAL) (nextFrameSize : Nat) : Prop :=
  fileSize w.dir w.current ≠ 0 ∧
    w.segmentMaxSize < fileSize w.dir w.current + nextFrameSize ∧
    w.current < w.nextLogIndex

instance (w : WAL) (n : Nat) : Decidable (w.rotates n) :=
  inferInstanceAs (Decidable (_ ∧ _ ∧ _))

theorem Layout.mem_ids_append {i : Nat} : i ∈ ids (A ++ B) ↔ i ∈ A.ids ∨ i ∈ B.ids := by
  simp [ids]

theorem Holds.sync (h : Holds d L) (id : Nat) : Holds (applyOp d (.sync id)) L :=
  ⟨written_sync h.written id, h.fit, h.ascending, h.ne_nil⟩

theorem Holds.create (h : Holds d L) (hid : ∀ i ∈ L.ids, i < id) :
    Holds (applyOp d (.create id)) (L ++ [(id, [])]) where
  written := written_create h.written hid
  fit := by simpa [AllFit] using h.fit
  ascending := by
    simpa [ids, pairwise_append] using ⟨h.ascending, by simpa [ids] using hid⟩
  ne_nil := by simp

theorem Holds.append (h : Holds d (A ++ [(c, its)])) (hit : it.Fits) :
    Holds (applyOp d (.append c it.frame)) (A ++ [(c, its ++ [it])]) where
  written := by
    refine written_append_item h.written (fun hc => ?_) it
    have := h.ascending
    simp only [ids, map_append, pairwise_append] at this
    exact lt_irrefl c (this.2.2 c hc c (by simp))
  fit := by
    intro x hx
    simp only [items_append, items_cons, items_nil,
      append_nil, mem_append, mem_singleton] at hx
    rcases hx with hx | hx | rfl
    · exact h.fit x (by simp [hx])
    · exact h.fit x (by simp [hx])
    · exact hit
  ascending := by simpa [ids] using h.ascending
  ne_nil := by simp

namespace LaidOut

variable {w : WAL} {L : Layout}

theorem split (h : LaidOut w L) :
    ∃ (A : Layout) (its : List Item), L = A ++ [(w.current, its)] ∧
      ∀ i ∈ A.ids, i < w.current := by
  obtain ⟨A, ⟨c, its⟩, rfl⟩ := (eq_nil_or_concat' L).resolve_left h.ne_nil
  have hc : c = w.current := by simpa [ids] using h.current
  subst hc
  refine ⟨A, its, rfl, fun i hi => ?_⟩
  have := h.ascending
  simp only [ids, map_append, map_cons, map_nil, pairwise_append] at this
  exact this.2.2 i hi _ (by simp)

theorem ids_le (h : LaidOut w L) : ∀ i ∈ L.ids, i ≤ w.current := by
  obtain ⟨A, its, rfl, hA⟩ := h.split
  intro i hi
  rcases mem_ids_append.mp hi with hi | hi
  · exact (hA i hi).le
  · simp only [ids, map_cons, map_nil, mem_singleton] at hi
    exact hi.le

end LaidOut

/-! ## Appending one item -/

def WAL.appendTarget (w : WAL) (it : Item) : Nat :=
  if w.rotates it.frame.length then w.nextLogIndex else w.current

def WAL.appendOps (w : WAL) (it : Item) : List FileOp :=
  (if w.rotates it.frame.length then
    [.create w.nextLogIndex, .sync w.nextLogIndex] else []) ++
  [.append (w.appendTarget it) it.frame]

def Layout.push (it : Item) : Layout → Layout
  | [] => []
  | [(c, its)] => [(c, its ++ [it])]
  | p :: q :: L => p :: Layout.push it (q :: L)

theorem Layout.push_concat (it : Item) (A : Layout) (c : Nat) (its : List Item) :
    push it (A ++ [(c, its)]) = A ++ [(c, its ++ [it])] := by
  induction A with
  | nil => rfl
  | cons p A ih =>
    cases A with
    | nil => rfl
    | cons q A => simpa [push] using ih

def WAL.appended (w : WAL) (L : Layout) (it : Item) : Layout :=
  if w.rotates it.frame.length then L ++ [(w.nextLogIndex, [it])] else L.push it

theorem appendLocked_eq {w : WAL} {L : Layout} (h : LaidOut w L)
    (hit : it.Fits) (hidx : ∀ i ∈ it.index?, i = w.nextLogIndex) :
    w.appendLocked it.record.type it.record.payload =
      .ok (w.appendOps it,
        { w.perform (w.appendOps it) with current := w.appendTarget it }) := by
  have hindex : (if it.record.type = .logEntry then w.nextLogIndex else 0) =
      it.record.index := by
    cases it with
    | entry i p => simpa [Item.record] using (hidx i rfl).symm
    | hardState p => rfl
    | metadata m => rfl
  have hframe : encodeRecord it.record.type it.record.index it.record.payload =
      it.frame := rfl
  have hsmall := Nat.not_lt.mpr hit.record.payload_le
  rw [WAL.appendLocked, if_neg hsmall]
  simp only [hindex, hframe]
  by_cases hrot : w.rotates it.frame.length
  · have hfresh : w.nextLogIndex ∉ w.dir.map (·.id) := fun hmem =>
      absurd (h.ids_le _ (h.written.ids_eq ▸ hmem)) (by have := hrot.2.2; omega)
    have hrotate : w.maybeRotateLocked it.frame.length =
        .ok ([.create w.nextLogIndex, .sync w.nextLogIndex],
          { w.perform [.create w.nextLogIndex, .sync w.nextLogIndex] with
            current := w.nextLogIndex }) := by
      obtain ⟨hsize, hover, hprogress⟩ := hrot
      rw [WAL.maybeRotateLocked]
      simp only []
      rw [if_neg (by omega), if_neg (by omega), if_neg hfresh]
    rw [hrotate]
    simp [bind, Except.bind, pure, Except.pure, WAL.appendOps, WAL.appendTarget, hrot, WAL.perform]
  · have hrotate : w.maybeRotateLocked it.frame.length = .ok ([], w) := by
      rw [WAL.maybeRotateLocked]
      simp only []
      split
      · rfl
      · rename_i hover
        rw [if_pos]
        by_contra hprogress
        exact hrot ⟨by omega, by omega, by omega⟩
    rw [hrotate]
    simp [bind, Except.bind, pure, Except.pure, WAL.appendOps, WAL.appendTarget, hrot, WAL.perform]

theorem LaidOut.items_appended {w : WAL} {L : Layout} (h : LaidOut w L) (it : Item) :
    (w.appended L it).items = L.items ++ [it] := by
  rw [appended]
  split
  · simp
  · obtain ⟨A, its, rfl, -⟩ := h.split
    simp [push_concat]

/-- Every image of an append: nothing yet, an empty new segment, or the item. -/
theorem LaidOut.append_images {w : WAL} {L : Layout} (h : LaidOut w L)
    (hit : it.Fits) (hd : d ∈ crashImages applyOp w.dir (w.appendOps it)) :
    Holds d L ∨ Holds d (L ++ [(w.nextLogIndex, [])]) ∨ Holds d (w.appended L it) := by
  by_cases hrot : w.rotates it.frame.length
  · have hcreate : Holds (applyOp w.dir (.create w.nextLogIndex))
        (L ++ [(w.nextLogIndex, [])]) :=
      h.toHolds.create fun i hi => lt_of_le_of_lt (h.ids_le i hi) hrot.2.2
    have hwrite := (hcreate.sync w.nextLogIndex).append hit
    simp only [appendOps, appendTarget, if_pos hrot, cons_append,
      nil_append, crashImages_cons, crashImages_nil, mem_cons,
      not_mem_nil, or_false] at hd
    rw [appended, if_pos hrot]
    rcases hd with rfl | rfl | rfl | rfl
    · exact .inl h.toHolds
    · exact .inr (.inl hcreate)
    · exact .inr (.inl (hcreate.sync _))
    · exact .inr (.inr hwrite)
  · simp only [appendOps, appendTarget, if_neg hrot, nil_append,
      crashImages_cons, crashImages_nil, mem_cons, not_mem_nil,
      or_false] at hd
    rw [appended, if_neg hrot]
    rcases hd with rfl | rfl
    · exact .inl h.toHolds
    · obtain ⟨A, its, rfl, -⟩ := h.split
      rw [push_concat]
      exact .inr (.inr (h.toHolds.append hit))

theorem LaidOut.append {w : WAL} {L : Layout} (h : LaidOut w L) (hit : it.Fits) :
    LaidOut { w.perform (w.appendOps it) with current := w.appendTarget it }
      (w.appended L it) := by
  by_cases hrot : w.rotates it.frame.length
  · have hcreate : Holds (applyOp w.dir (.create w.nextLogIndex))
        (L ++ [(w.nextLogIndex, [])]) :=
      h.toHolds.create fun i hi => lt_of_le_of_lt (h.ids_le i hi) hrot.2.2
    rw [appendOps, appended, appendTarget, if_pos hrot, if_pos hrot, if_pos hrot]
    exact ⟨(hcreate.sync w.nextLogIndex).append hit, by simp [ids]⟩
  · rw [appendOps, appended, appendTarget, if_neg hrot, if_neg hrot, if_neg hrot]
    obtain ⟨A, its, rfl, -⟩ := h.split
    rw [push_concat]
    exact ⟨h.toHolds.append hit, by simp [ids]⟩

theorem LaidOut.sync {w : WAL} {L : Layout} (h : LaidOut w L) :
    LaidOut (w.perform w.syncOps) L :=
  ⟨h.toHolds.sync w.current, h.current⟩

/-! ## Removing segments -/

private theorem filter_ne_of_not_mem {L : Layout} (h : id ∉ L.ids) :
    L.filter (·.1 ≠ id) = L := by
  rw [filter_eq_self]
  intro p hp
  simp only [ne_eq, decide_not, Bool.not_eq_true', decide_eq_false_iff_not]
  rintro rfl
  exact h (mem_map_of_mem hp)

theorem Holds.remove_last {b : Nat} (h : Holds d (M ++ [(b, its)])) (hM : M ≠ []) :
    Holds (applyOp d (.remove b)) M := by
  have hasc := h.ascending
  simp only [ids, map_append, pairwise_append] at hasc
  have hb : b ∉ M.ids := fun hmem => lt_irrefl b (hasc.2.2 b hmem b (by simp))
  refine ⟨?_, fun it hit => h.fit it (by simp [hit]), hasc.1, hM⟩
  have := written_remove h.written b
  rwa [filter_append, filter_ne_of_not_mem hb, filter_cons_of_neg (by simp),
    filter_nil, append_nil] at this

theorem Holds.remove_first {p : Nat × List Item}
    (h : Holds d (p :: M)) (hM : M ≠ []) : Holds (applyOp d (.remove p.1)) M := by
  have hasc := h.ascending
  simp only [ids, map_cons, pairwise_cons] at hasc
  have hb : p.1 ∉ M.ids := fun hmem => lt_irrefl p.1 (hasc.1 p.1 hmem)
  refine ⟨?_, fun it hit => h.fit it (by simp [hit]), hasc.2, hM⟩
  have := written_remove h.written p.1
  rwa [filter_cons_of_neg (by simp), filter_ne_of_not_mem hb] at this

/-- Segments are removed from the newest down: a stop leaves a front part. -/
theorem Holds.remove_newer (hM : M ≠ []) (B : Layout) (h : Holds d (M ++ B)) :
    (∀ e ∈ crashImages applyOp d (B.ids.reverse.map FileOp.remove), ∃ k, Holds e (M ++ B.take k)) ∧
    Holds (perform applyOp d (B.ids.reverse.map FileOp.remove)) M := by
  induction B using reverseRecOn generalizing d with
  | nil =>
    simp only [append_nil] at h
    simpa [ids] using h
  | append_singleton B p ih =>
    have hfirst : Holds (applyOp d (.remove p.1)) (M ++ B) := by
      rw [← append_assoc] at h
      exact h.remove_last (by simp [hM])
    obtain ⟨himages, hfinal⟩ := ih hfirst
    have hops : (ids (B ++ [p])).reverse.map FileOp.remove =
        FileOp.remove p.1 :: (ids B).reverse.map FileOp.remove := by
      simp [ids]
    rw [hops, perform_cons, crashImages_cons]
    refine ⟨fun e he => ?_, hfinal⟩
    rcases mem_cons.mp he with rfl | he
    · exact ⟨(B ++ [p]).length, by rwa [take_length]⟩
    · obtain ⟨k, hk⟩ := himages e he
      refine ⟨min k B.length, ?_⟩
      rwa [take_append_of_le_length (Nat.min_le_right ..), ← take_eq_take_min]

/-- Segments are removed from the oldest up: a stop leaves a back part. -/
theorem Holds.remove_older {Q : Layout} (hQ : Q ≠ []) (P : Layout) (h : Holds d (P ++ Q)) :
    (∀ e ∈ crashImages applyOp d (P.ids.map FileOp.remove), ∃ k, Holds e (P.drop k ++ Q)) ∧
    Holds (perform applyOp d (P.ids.map FileOp.remove)) Q := by
  induction P generalizing d with
  | nil => simpa [ids] using h
  | cons p P ih =>
    have hfirst : Holds (applyOp d (.remove p.1)) (P ++ Q) :=
      Holds.remove_first h (by simp [hQ])
    obtain ⟨himages, hfinal⟩ := ih hfirst
    have hops : (ids (p :: P)).map FileOp.remove =
        FileOp.remove p.1 :: (ids P).map FileOp.remove := rfl
    rw [hops, perform_cons, crashImages_cons]
    refine ⟨fun e he => ?_, hfinal⟩
    rcases mem_cons.mp he with rfl | he
    · exact ⟨0, h⟩
    · obtain ⟨k, hk⟩ := himages e he
      exact ⟨k + 1, hk⟩

/-! ## Truncation and compaction -/

section Truncate

variable {w : WAL} {A B : Layout} {t f : Nat} {p : Bytes} {pre post : List Item}

/-- The operations of a truncation whose target frame follows `pre` in segment `t`. -/
def truncateOps (B : Layout) (t : Nat) (pre : List Item) : List FileOp :=
  B.ids.reverse.map FileOp.remove ++ [.shrink t (frames pre).length, .sync t]

private theorem LaidOut.ids_around (h : LaidOut w (A ++ (t, pre ++ post) :: B)) :
    t ∉ A.ids ∧ (∀ i ∈ B.ids, t < i) ∧ t ∉ B.ids := by
  have hasc := h.ascending
  simp only [ids, map_append, map_cons, pairwise_append, pairwise_cons] at hasc
  exact ⟨fun hA => lt_irrefl t (hasc.2.2 t hA t (by simp)), hasc.2.1.1,
    fun hB => lt_irrefl t (hasc.2.1.1 t hB)⟩

theorem truncate_eq (h : LaidOut w (A ++ (t, pre ++ .entry f p :: post) :: B))
    (hf : 1 ≤ f) (hnext : f < w.nextLogIndex) (hA : f ∉ logIndices A.items)
    (hpre : f ∉ logIndices pre) :
    w.truncate f = .ok (truncateOps B t pre,
      { w.perform (truncateOps B t pre) with current := t, nextLogIndex := f }) := by
  obtain ⟨-, hnewer, -⟩ := h.ids_around
  have hids : (w.dir.map (·.id)).reverse.takeWhile (t < ·) = B.ids.reverse := by
    have hall : ∀ i ∈ B.ids.reverse, decide (t < i) = true := fun i hi =>
      decide_eq_true (hnewer i (mem_reverse.mp hi))
    have hrev : (ids (A ++ (t, pre ++ .entry f p :: post) :: B)).reverse =
        B.ids.reverse ++ t :: A.ids.reverse := by simp [ids]
    rw [h.written.ids_eq, hrev, takeWhile_append_of_pos hall]
    simp
  rw [truncate, if_neg (by omega), if_neg (by omega),
    locateLogIndex_written h.written h.fit hA hpre]
  simp only [hids, truncateOps]

private theorem LaidOut.truncate_steps
    (h : LaidOut w (A ++ (t, pre ++ .entry f p :: post) :: B)) :
    (∀ d ∈ crashImages applyOp w.dir (B.ids.reverse.map FileOp.remove),
      ∃ k, Holds d (A ++ (t, pre ++ .entry f p :: post) :: B.take k)) ∧
    Holds (applyOp (perform applyOp w.dir (B.ids.reverse.map FileOp.remove))
      (.shrink t (frames pre).length)) (A ++ [(t, pre)]) := by
  have hsplit : Holds w.dir ((A ++ [(t, pre ++ .entry f p :: post)]) ++ B) := by
    simpa using h.toHolds
  obtain ⟨himages, hfinal⟩ := Holds.remove_newer (by simp) B hsplit
  refine ⟨fun d hd => ?_, written_shrink hfinal.written h.ids_around.1
    (by simp [ids]), fun it hit => ?_, ?_, by simp⟩
  · obtain ⟨k, hk⟩ := himages d hd
    exact ⟨k, by simpa using hk⟩
  · refine hfinal.fit it ?_
    simp at hit ⊢
    tauto
  · simpa [ids] using hfinal.ascending

theorem LaidOut.truncate_images (h : LaidOut w (A ++ (t, pre ++ .entry f p :: post) :: B))
    (hd : d ∈ crashImages applyOp w.dir (truncateOps B t pre)) :
    (∃ k, Holds d (A ++ (t, pre ++ .entry f p :: post) :: B.take k)) ∨
      Holds d (A ++ [(t, pre)]) := by
  obtain ⟨himages, hshrink⟩ := h.truncate_steps
  rw [truncateOps, mem_crashImages_append] at hd
  simp only [crashImages_cons, crashImages_nil, mem_cons, not_mem_nil, or_false] at hd
  rcases hd with hd | rfl | rfl | rfl
  · exact .inl (himages d hd)
  · exact .inl (himages _ perform_mem_crashImages)
  · exact .inr hshrink
  · exact .inr (hshrink.sync t)

theorem LaidOut.truncate (h : LaidOut w (A ++ (t, pre ++ .entry f p :: post) :: B)) :
    LaidOut { w.perform (truncateOps B t pre) with current := t, nextLogIndex := f }
      (A ++ [(t, pre)]) := by
  refine ⟨?_, by simp [ids]⟩
  simp only [WAL.perform, truncateOps, perform_append]
  exact h.truncate_steps.2.sync t

end Truncate

/-- The eligible segments are a front part of the directory. It ends before a
segment that starts at most one past `uptoIndex`, and as late as possible. -/
theorem eligible_split {uptoIndex : Nat} {ids : List Nat} (hasc : ids.Pairwise (· < ·))
    (hlast : ids.getLast? = some c) :
    ∃ P q Q, ids = P ++ q :: Q ∧ eligible c uptoIndex ids = P ∧
      (P ≠ [] → q - 1 ≤ uptoIndex) ∧ ∀ q' ∈ Q.head?, uptoIndex < q' - 1 := by
  induction ids with
  | nil => simp at hlast
  | cons x ids ih =>
    cases ids with
    | nil => exact ⟨[], x, [], rfl, rfl, by simp, by simp⟩
    | cons y rest =>
      rw [pairwise_cons] at hasc
      have hlast' : (y :: rest).getLast? = some c := by
        simpa [getLast?_cons_cons] using hlast
      have hxc : x ≠ c := (hasc.1 c (mem_of_getLast? hlast')).ne
      by_cases hy : y - 1 > uptoIndex
      · exact ⟨[], x, y :: rest, rfl, by simp [eligible, hxc, hy], by simp,
          by simpa using hy⟩
      · obtain ⟨P, q, Q, hids, hel, hP, hQ⟩ := ih hasc.2 hlast'
        refine ⟨x :: P, q, Q, by simp [hids], by simp [eligible, hxc, hy, hel], fun _ => ?_, hQ⟩
        cases P with
        | nil =>
          obtain ⟨rfl, -⟩ := cons.inj hids
          omega
        | cons z P => exact hP (by simp)

end ChronicleDB.Wal
