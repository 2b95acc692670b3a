import ChronicleDB.Foundation.Crash
import ChronicleDB.Snapshot.Codec
import Mathlib.Data.List.Pairwise

/-!
# The snapshot directory

`internal/snapshot/manager.go`.  A file is written under a temporary name and
renamed, so it appears at once; a rename replaces a file of the same index.
-/

namespace ChronicleDB.Snapshots

open Foundation List

/-- Index and content of each snapshot file, newest first, as
`candidatesDescending` returns them. -/
abbrev Files := List (Nat × Bytes)

inductive FileOp where
  | write (index : Nat) (data : Bytes)
  | remove (index : Nat)
  deriving DecidableEq, Repr

def applyOp (files : Files) : FileOp → Files
  | .write index data =>
    files.filter (index < ·.1) ++ (index, data) :: files.filter (·.1 < index)
  | .remove index => files.filter (·.1 ≠ index)

/-- The newest `retainCount` files stay, and the one of `keepIndex`. -/
def prune (retainCount keepIndex : Nat) (files : Files) : List FileOp :=
  ((files.drop (max retainCount 1)).filter (·.1 ≠ keepIndex)).map (.remove ·.1)

section Load

variable {F : Type} (codec : FSMFormat F)

def trusted (file : Nat × Bytes) : Option (Snapshot F) :=
  match decode codec file.2 with
  | .error _ => none
  | .ok snap => if snap.info.lastIncludedIndex ≠ file.1 then none else some snap

def load (pointerIndex : Nat) (files : Files) : Option (Snapshot F) :=
  if pointerIndex = 0 then none
  else files.findSome? fun file => if file.1 > pointerIndex then none else trusted codec file

end Load

/-! ## The file the pointer names -/

/-- The files are in order and the one at `pointer` holds `snap`; no file is
needed while the pointer is zero. -/
structure Covers {F : Type} (codec : FSMCodec F) (files : Files) (pointer : Nat)
    (snap : Option (Snapshot F)) : Prop where
  sorted : files.Pairwise (·.1 > ·.1)
  fits : ∀ s ∈ snap, s.Fits codec
  zero : pointer = 0 → snap = none
  file : pointer ≠ 0 → ∃ data s, snap = some s ∧ (pointer, data) ∈ files ∧
    trusted codec (pointer, data) = some s

section Covers

variable {F : Type} {codec : FSMCodec F} {files : Files} {pointer : Nat}
  {snap : Option (Snapshot F)}

theorem Covers.load_eq (h : Covers codec files pointer snap) :
    load codec pointer files = snap := by
  by_cases hzero : pointer = 0
  · rw [load, if_pos hzero, h.zero hzero]
  · obtain ⟨data, s, rfl, hmem, htrusted⟩ := h.file hzero
    obtain ⟨A, B, rfl⟩ := append_of_mem hmem
    have hnewer : A.findSome? (fun file =>
        if file.1 > pointer then none else trusted codec.toFSMFormat file) = none := by
      rw [findSome?_eq_none_iff]
      intro file hfile
      exact if_pos ((pairwise_append.mp h.sorted).2.2 file hfile _ mem_cons_self)
    rw [load, if_neg hzero, findSome?_append, hnewer, Option.none_or,
      findSome?_cons, if_neg (lt_irrefl pointer), htrusted]

theorem trusted_index {file : Nat × Bytes} {s : Snapshot F}
    (h : trusted codec file = some s) : s.info.lastIncludedIndex = file.1 := by
  unfold trusted at h
  split at h
  · cases h
  · split at h
    · cases h
    · rename_i heq
      rw [← Option.some.inj h]
      exact not_not.mp heq

theorem trusted_encode {info : Meta} {f : F} {v : UInt8} (hv : v = 1 ∨ v = 2)
    (h : (Snapshot.mk info f).Fits codec) :
    ∃ data s, encode codec info f v = some data ∧ s.Fits codec ∧
      trusted codec (info.lastIncludedIndex, data) = some s ∧
      decode codec data = .ok s ∧ s.info.lastIncludedIndex = info.lastIncludedIndex ∧
      s.fsm = f := by
  obtain ⟨data, hencode, hdecode⟩ := decode_encode codec hv h.info h.state_lt h.seq_le
  refine ⟨data, ⟨info.stored v, f⟩, hencode, ⟨h.info.stored v, h.state_lt, h.seq_le⟩, ?_,
    hdecode, rfl, rfl⟩
  simp only [trusted, hdecode]
  exact if_neg (fun hne => hne rfl)

theorem sorted_write (h : files.Pairwise (·.1 > ·.1)) (index : Nat) (data : Bytes) :
    (applyOp files (.write index data)).Pairwise (·.1 > ·.1) := by
  refine pairwise_append.mpr ⟨h.filter _, ?_, ?_⟩
  · refine pairwise_cons.mpr ⟨fun file hfile => ?_, h.filter _⟩
    simpa using (mem_filter.mp hfile).2
  · intro a ha b hb
    have ha' : index < a.1 := by simpa using (mem_filter.mp ha).2
    rcases mem_cons.mp hb with rfl | hb
    · exact ha'
    · have hb' : b.1 < index := by simpa using (mem_filter.mp hb).2
      exact lt_trans hb' ha'

theorem Covers.write (h : Covers codec files pointer snap) {index : Nat} (data : Bytes)
    (hne : index ≠ pointer) : Covers codec (applyOp files (.write index data)) pointer snap where
  sorted := sorted_write h.sorted index data
  fits := h.fits
  zero := h.zero
  file hzero := by
    obtain ⟨d, s, hs, hmem, htrusted⟩ := h.file hzero
    refine ⟨d, s, hs, ?_, htrusted⟩
    rcases Nat.lt_or_gt_of_ne hne with hlt | hlt
    · exact mem_append_left _ (mem_filter.mpr ⟨hmem, by simpa using hlt⟩)
    · exact mem_append_right _ (mem_cons_of_mem _
        (mem_filter.mpr ⟨hmem, by simpa using hlt⟩))

theorem Covers.written (h : files.Pairwise (·.1 > ·.1)) {index : Nat} {data : Bytes}
    {s : Snapshot F} (hzero : index ≠ 0) (hdata : trusted codec (index, data) = some s)
    (hfits : s.Fits codec) :
    Covers codec (applyOp files (.write index data)) index (some s) where
  sorted := sorted_write h index data
  fits := by
    rintro s ⟨⟩
    exact hfits
  zero hz := absurd hz hzero
  file _ := ⟨data, s, rfl, by simp [applyOp], hdata⟩

theorem Covers.remove (h : Covers codec files pointer snap) {index : Nat}
    (hne : index ≠ pointer) : Covers codec (applyOp files (.remove index)) pointer snap where
  sorted := h.sorted.filter _
  fits := h.fits
  zero := h.zero
  file hzero := by
    obtain ⟨d, s, hs, hmem, htrusted⟩ := h.file hzero
    exact ⟨d, s, hs, mem_filter.mpr ⟨hmem, by simpa using hne.symm⟩, htrusted⟩

/-- Pruning keeps the file at the pointer, wherever it stops. -/
theorem Covers.prune_images (h : Covers codec files pointer snap) (retainCount : Nat)
    {files' : Files} (hf : files' ∈ crashImages applyOp files
      (prune retainCount pointer files)) : Covers codec files' pointer snap := by
  have hall : ∀ op ∈ prune retainCount pointer files, ∃ i, op = .remove i ∧ i ≠ pointer := by
    intro op hop
    obtain ⟨file, hfile, rfl⟩ := mem_map.mp hop
    exact ⟨file.1, rfl, by simpa using (mem_filter.mp hfile).2⟩
  generalize prune retainCount pointer files = ops at hf hall
  induction ops generalizing files with
  | nil =>
    obtain rfl := mem_singleton.mp hf
    exact h
  | cons op ops ih =>
    obtain ⟨i, rfl, hi⟩ := hall op mem_cons_self
    rw [crashImages_cons, mem_cons] at hf
    rcases hf with rfl | hf
    · exact h
    · exact ih (h.remove hi) hf fun op hop => hall op (mem_cons_of_mem _ hop)

/-- A received snapshot file never costs the one at the pointer. -/
theorem Covers.receive (h : Covers codec files pointer snap)
    {index : Nat} {data : Bytes} {s : Snapshot F} (hfits : s.Fits codec)
    (hdata : trusted codec (index, data) = some s) :
    ∃ snap', Covers codec (applyOp files (.write index data)) pointer snap' := by
  by_cases hne : index = pointer
  · subst hne
    by_cases hzero : index = 0
    · exact ⟨none, sorted_write h.sorted index data, by simp, fun _ => rfl,
        fun hz => absurd hzero hz⟩
    · exact ⟨_, Covers.written h.sorted hzero hdata hfits⟩
  · exact ⟨_, h.write data hne⟩

end Covers

end ChronicleDB.Snapshots
