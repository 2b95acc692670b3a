import ChronicleDB.Mvcc.Store

/-!
# What a collection leaves

A collection at watermark `w` drops versions from the front of a chain, always
fewer than there are up to `w`.  So the last version up to `w`, and everything
after it, stays: reads at or above `w` and conflict checks find what they found
before.
-/

namespace ChronicleDB.Mvcc

open Foundation List Store

/-! ## Chains -/

theorem length_upTo_mono (chain : List Version) {w s : Nat} (h : w ≤ s) :
    (upTo chain w).length ≤ (upTo chain s).length := by
  induction chain with
  | nil => exact Nat.le_refl 0
  | cons v chain ih =>
    simp only [upTo, takeWhile_cons, decide_eq_true_eq] at ih ⊢
    by_cases hw : v.commitSeq ≤ w
    · rw [if_pos hw, if_pos (Nat.le_trans hw h)]
      exact Nat.succ_le_succ ih
    · rw [if_neg hw]
      exact Nat.zero_le _

theorem length_upTo_append (chain more : List Version) (w : Nat) :
    (upTo chain w).length ≤ (upTo (chain ++ more) w).length := by
  rw [upTo, upTo, takeWhile_append]
  split
  case isTrue h => rw [h, length_append]; omega
  case isFalse => exact Nat.le_refl _

theorem upTo_drop {chain : List Version} {w n : Nat} (h : n ≤ (upTo chain w).length) :
    upTo (chain.drop n) w = (upTo chain w).drop n := by
  induction chain generalizing n with
  | nil => simp [upTo]
  | cons v chain ih =>
    cases n with
    | zero => rfl
    | succ n =>
      simp only [upTo, takeWhile_cons] at h ih ⊢
      split at h
      · rw [if_pos ‹_›, drop_succ_cons, drop_succ_cons]
        exact ih (Nat.le_of_succ_le_succ h)
      · simp at h

/-- `kept` is what collections up to watermark `w` may have left of `full`. -/
def Trimmed (w : Nat) (kept full : List Version) : Prop :=
  ∃ n, kept = full.drop n ∧ (n = 0 ∨ n < (upTo full w).length)

namespace Trimmed

variable {w : Nat} {kept full : List Version}

theorem refl (w : Nat) (chain : List Version) : Trimmed w chain chain := ⟨0, rfl, .inl rfl⟩

theorem mono {w' : Nat} (h : Trimmed w kept full) (hw : w ≤ w') : Trimmed w' kept full := by
  obtain ⟨n, rfl, hn⟩ := h
  exact ⟨n, rfl, hn.imp id fun hlt => Nat.lt_of_lt_of_le hlt (length_upTo_mono full hw)⟩

theorem append (h : Trimmed w kept full) (more : List Version) :
    Trimmed w (kept ++ more) (full ++ more) := by
  obtain ⟨n, rfl, hn⟩ := h
  have hle : n ≤ full.length := by
    rcases hn with rfl | hlt
    · exact Nat.zero_le _
    · exact Nat.le_of_lt (Nat.lt_of_lt_of_le hlt (takeWhile_sublist _).length_le)
  refine ⟨n, (drop_append_of_le_length hle).symm, hn.imp id fun hlt => ?_⟩
  exact Nat.lt_of_lt_of_le hlt (length_upTo_append full more w)

theorem latestIn_eq (h : Trimmed w kept full) : latestIn kept = latestIn full := by
  obtain ⟨n, rfl, rfl | hlt⟩ := h
  · rw [drop_zero]
  · have hlen : n < full.length :=
      Nat.lt_of_lt_of_le hlt (takeWhile_sublist _).length_le
    rw [latestIn, getLast?_drop, if_neg (Nat.not_le.mpr hlen), latestIn]

theorem visibleIn_eq (h : Trimmed w kept full) {s : Nat} (hs : w ≤ s) :
    visibleIn kept s = visibleIn full s := by
  obtain ⟨n, rfl, rfl | hlt⟩ := h
  · rw [drop_zero]
  · have hn : n < (upTo full s).length := Nat.lt_of_lt_of_le hlt (length_upTo_mono full hs)
    rw [visibleIn, upTo_drop (Nat.le_of_lt hn), getLast?_drop,
      if_neg (Nat.not_le.mpr hn), visibleIn]

theorem reclaim (h : Trimmed w kept full) (budget : Nat) :
    Trimmed w (kept.drop (min (superseded kept w) budget)) full := by
  obtain ⟨n, rfl, hn⟩ := h
  have hle : n ≤ (upTo full w).length := by omega
  have hlen : (upTo (full.drop n) w).length = (upTo full w).length - n := by
    rw [upTo_drop hle, length_drop]
  rw [superseded, hlen, drop_drop]
  exact ⟨_, rfl, by omega⟩

end Trimmed

/-! ## Stores -/

/-- `s` is what collections up to watermark `w` may have left of `full`. -/
structure Collected (w : Nat) (s full : Store) : Prop where
  keys : s.chains.keys = full.chains.keys
  trimmed : ∀ key, Trimmed w (s.chain key) (full.chain key)

namespace Collected

variable {w : Nat} {s full : Store}

theorem refl (w : Nat) (s : Store) : Collected w s s := ⟨rfl, fun _ => .refl w _⟩

theorem mono {w' : Nat} (h : Collected w s full) (hw : w ≤ w') : Collected w' s full :=
  ⟨h.keys, fun key => (h.trimmed key).mono hw⟩

theorem below {n : Nat} (h : Collected w s full) (hfull : full.Below n) : s.Below n := by
  intro key v hv
  obtain ⟨m, hdrop, _⟩ := h.trimmed key
  exact hfull key v (mem_of_mem_drop (hdrop ▸ hv))

theorem latestCommitSeq_eq (h : Collected w s full) (key : Bytes) :
    s.latestCommitSeq key = full.latestCommitSeq key := (h.trimmed key).latestIn_eq

theorem checkConflicts_eq (h : Collected w s full) (startSeq : Nat) (ms : List Mutation) :
    s.checkConflicts startSeq ms = full.checkConflicts startSeq ms := by
  induction ms with
  | nil => rfl
  | cons m ms ih => rw [checkConflicts, checkConflicts, h.latestCommitSeq_eq, ih]

theorem checkMonotonic_eq (h : Collected w s full) (commitSeq : Nat) (ms : List Mutation) :
    s.checkMonotonic commitSeq ms = full.checkMonotonic commitSeq ms := by
  induction ms with
  | nil => rfl
  | cons m ms ih => rw [checkMonotonic, checkMonotonic, h.latestCommitSeq_eq, ih]

theorem push (h : Collected w s full) (commitSeq : Nat) (m : Mutation) :
    Collected w (push commitSeq s m) (push commitSeq full m) where
  keys := SortedMap.keys_insert_congr h.keys ..
  trimmed key := by
    rw [chain_push, chain_push]
    split
    · exact (h.trimmed key).append _
    · exact h.trimmed key

theorem foldl_push (h : Collected w s full) (commitSeq : Nat) (ms : List Mutation) :
    Collected w (ms.foldl (Store.push commitSeq) s) (ms.foldl (Store.push commitSeq) full) := by
  induction ms generalizing s full with
  | nil => exact h
  | cons m ms ih => exact ih (h.push commitSeq m)

theorem reclaimKey (h : Collected w s full) (key : Bytes) (budget : Nat) :
    Collected w (s.reclaimKey key w budget).1 full where
  keys := by
    rw [← h.keys, Store.reclaimKey]
    split
    case isTrue => rfl
    case isFalse hn =>
      -- a key with something to remove has a chain
      refine SortedMap.keys_insert_of_mem (s.chains.mem_keys_iff.mpr ?_) _
      cases hget : s.chains.get key with
      | some chain => rfl
      | none => simp [Store.chain, hget, superseded, upTo] at hn
  trimmed key' := by
    rw [Store.chain_reclaimKey]
    split
    case isTrue heq => rw [heq]; exact (h.trimmed key).reclaim budget
    case isFalse => exact h.trimmed key'

theorem setGCWatermark (h : Collected w s full) (w' : Nat) :
    Collected w (s.setGCWatermark w') full where
  keys := by
    rw [← h.keys, Store.setGCWatermark]
    split <;> rfl
  trimmed key := by
    rw [Store.chain_setGCWatermark]
    exact h.trimmed key

theorem scan_eq (h : Collected w s full) (stem : Bytes) {startSeq : Nat} (hs : w ≤ startSeq) :
    (s.chains.entries.filterMap fun e =>
      if stem.isPrefixOf e.1 then (visibleIn e.2 startSeq).map fun v => (e.1, v) else none) =
    full.chains.entries.filterMap fun e =>
      if stem.isPrefixOf e.1 then (visibleIn e.2 startSeq).map fun v => (e.1, v) else none := by
  have hchain : ∀ t : Store, t.chains.entries = t.chains.keys.map fun k => (k, t.chain k) :=
    fun t => t.chains.entries_eq_map_keys fun k v hget => by rw [chain, hget]; rfl
  rw [hchain s, hchain full, h.keys, filterMap_map, filterMap_map]
  refine filterMap_congr fun k _ => ?_
  simp only [Function.comp_apply, (h.trimmed k).visibleIn_eq hs]

end Collected

end ChronicleDB.Mvcc
