import ChronicleDB.Mvcc.Index
import ChronicleDB.Sql.Engines

/-!
# Scans and single reads

A scan goes through the index of the store and then changes what it found by the
local writes; a read of one key asks the local writes first and then the store.
Both engines have the two ways.
-/

namespace ChronicleDB.Sql

open Foundation List SortedMap
open Mvcc (IndexedStore Mutation Store StoreError Version visibleIn)
open Transactions (Txn)

variable {k stem : Bytes} {y : Txn} {startSeq : Nat} {t : IndexedStore}

/-- `out` has, in order, the keys under `stem` for which `read` finds a value. -/
def Lists (stem : Bytes) (read : Bytes → Except StoreError (Option Bytes))
    (out : List (Bytes × Bytes)) : Prop :=
  (out.map (·.1)).Pairwise (· < ·) ∧
    ∀ k v, (k, v) ∈ out ↔ stem <+: k ∧ read k = .ok (some v)

/-! ## Committed data -/

theorem mem_entries_of_visibleIn {s : Store} {v : Bytes}
    (h : visibleIn (s.chain k) startSeq = some v) : (k, s.chain k) ∈ s.chains.entries := by
  rw [← get_eq_some_iff]
  rw [Store.chain] at h ⊢
  cases hget : s.chains.get k with
  | some chain => rfl
  | none =>
    rw [hget] at h
    cases h

theorem scanned_eq_some_iff {e : Bytes × List Version} {b : Bytes × Bytes} :
    (if stem.isPrefixOf e.1 then (visibleIn e.2 startSeq).map fun v => (e.1, v) else none) =
      some b ↔ stem <+: e.1 ∧ e.1 = b.1 ∧ visibleIn e.2 startSeq = some b.2 := by
  rw [← isPrefixOf_iff_prefix]
  split
  case isTrue h => simp [h, Prod.ext_iff, and_comm]
  case isFalse h => simp [h]

theorem lists_scanVisible {s : Store}
    {out : List (Bytes × Bytes)} (h : s.scanVisible stem startSeq = .ok out) :
    Lists stem (s.visible · startSeq) out := by
  rw [Store.scanVisible] at h
  split at h
  · cases h
  case isFalse hfresh =>
    obtain rfl := Except.ok.inj h
    refine ⟨?_, fun k v => ?_⟩
    · rw [pairwise_map, pairwise_filterMap]
      refine s.chains.ascending.imp fun {e e'} hlt b hb b' hb' => ?_
      rw [← (scanned_eq_some_iff.mp hb).2.1, ← (scanned_eq_some_iff.mp hb').2.1]
      exact hlt
    · simp only [mem_filterMap, scanned_eq_some_iff, Store.visible, if_neg hfresh, Except.ok.injEq]
      constructor
      · rintro ⟨e, he, hstem, rfl, hread⟩
        rw [Store.chain_of_mem_keyChains he]
        exact ⟨hstem, hread⟩
      · rintro ⟨hstem, hread⟩
        exact ⟨(k, s.chain k), mem_entries_of_visibleIn hread, hstem, rfl, hread⟩

theorem refused_or_scanned (h : t.Formed) (stem : Bytes) (startSeq : Nat) :
    (t.scanVisible stem startSeq = .error .snapshotTooOld ∧
        ∀ k, t.visible k startSeq = .error .snapshotTooOld) ∨
      ∃ out, t.scanVisible stem startSeq = .ok out ∧ Lists stem (t.visible · startSeq) out := by
  by_cases hold : startSeq < t.gcWatermark
  · exact .inl ⟨if_pos hold, fun k => if_pos hold⟩
  · obtain ⟨out, hout⟩ : ∃ out, t.scanVisible stem startSeq = .ok out := ⟨_, if_neg hold⟩
    refine .inr ⟨out, hout, ?_⟩
    simp only [h.visible_eq]
    exact lists_scanVisible (h.scanVisible_eq stem startSeq ▸ hout)

/-! ## Local writes -/

def written (y : Txn) (writes : List (Bytes × Option Bytes)) : Txn :=
  writes.foldl (fun y w => y.recordWriteLocked w.1 w.2) y

def readThrough (t : IndexedStore) (y : Txn) (key : Bytes) : Except StoreError (Option Bytes) :=
  match y.writes.get key with
  | some m => .ok m.value
  | none => t.visible key y.startSeq

/-- The order of the writes lists the keys of the write set, and every write has
its key. -/
structure Kept (y : Txn) : Prop where
  ordered : Ordered y
  isSome : ∀ k ∈ y.order, (y.writes.get k).isSome
  keyed : y.writes.All fun k m => m.key = k

theorem kept_empty {id : Nat} {state : Transactions.TxnState} :
    Kept ⟨id, startSeq, state, .empty, []⟩ where
  ordered := ordered_empty
  isSome := fun _ hk => absurd hk not_mem_nil
  keyed := all_empty _

theorem Kept.recordWrite (h : Kept y) (key : Bytes) (value : Option Bytes) :
    Kept (y.recordWriteLocked key value) where
  ordered := h.ordered.recordWrite key value
  isSome := by
    intro k hk
    rw [Txn.recordWriteLocked] at hk ⊢
    dsimp only at hk ⊢
    rw [get_insert]
    by_cases hkey : k = key
    · rw [if_pos hkey]
      rfl
    · rw [if_neg hkey]
      split at hk
      · exact h.isSome k hk
      · rcases mem_append.mp hk with hk | hk
        · exact h.isSome k hk
        · exact absurd (mem_singleton.mp hk) hkey
  keyed := h.keyed.insert rfl

theorem Kept.written (h : Kept y) (writes : List (Bytes × Option Bytes)) :
    Kept (written y writes) := by
  induction writes generalizing y with
  | nil => exact h
  | cons w writes ih => exact ih (h.recordWrite w.1 w.2)

@[simp] theorem startSeq_written (y : Txn) (writes : List (Bytes × Option Bytes)) :
    (written y writes).startSeq = y.startSeq := by
  induction writes generalizing y with
  | nil => rfl
  | cons w writes ih => exact ih _

theorem Kept.mem_localWrites (h : Kept y) {m : Mutation} :
    m ∈ y.localWrites ↔ y.writes.get m.key = some m := by
  rw [Txn.localWrites, mem_map]
  constructor
  · rintro ⟨k, hk, rfl⟩
    obtain ⟨m, hm⟩ := Option.isSome_iff_exists.mp (h.isSome k hk)
    rw [hm, Option.getD_some, h.keyed k m hm, hm]
  · intro hm
    exact ⟨m.key, h.ordered m.key (by rw [hm]; rfl), by rw [hm, Option.getD_some]⟩

/-! ## The merge -/

theorem get_mergeWrite (stem : Bytes) (present : SortedMap Bytes Bytes) (m : Mutation)
    (k : Bytes) :
    (mergeWrite stem present m).get k =
      if stem <+: k ∧ m.key = k then m.value else present.get k := by
  rw [mergeWrite]
  by_cases hkey : m.key = k
  · subst hkey
    by_cases hstem : stem <+: m.key
    · rw [if_pos ( isPrefixOf_iff_prefix.mpr hstem), if_pos ⟨hstem, rfl⟩]
      cases hv : m.value with
      | none => simp [get_erase]
      | some v => simp
    · rw [if_neg (by rwa [ isPrefixOf_iff_prefix]), if_neg fun h => hstem h.1]
  · have hother : ¬(stem <+: k ∧ m.key = k) := fun h => hkey h.2
    rw [if_neg hother]
    split
    · split
      · rw [get_erase, if_neg (Ne.symm hkey)]
      · rw [get_insert_of_ne _ _ (Ne.symm hkey)]
    · rfl

/-- The loop leaves at a key what the last write to it says, which here is what
`writes` has for it. -/
theorem get_foldl_mergeWrite {writes : SortedMap Bytes Mutation} {ms : List Mutation}
    (h : ∀ m ∈ ms, writes.get m.key = some m) (stem : Bytes) (present : SortedMap Bytes Bytes)
    (hstem : stem <+: k) :
    (ms.foldl (mergeWrite stem) present).get k =
      if ∃ m ∈ ms, m.key = k then (writes.get k).bind (·.value) else present.get k := by
  induction ms generalizing present with
  | nil => simp
  | cons m ms ih =>
    rw [foldl_cons, ih fun m' hm' => h m' (mem_cons_of_mem _ hm')]
    by_cases hlater : ∃ m' ∈ ms, m'.key = k
    · obtain ⟨m', hm', hk⟩ := hlater
      rw [if_pos ⟨m', hm', hk⟩, if_pos ⟨m', mem_cons_of_mem _ hm', hk⟩]
    · rw [if_neg hlater, get_mergeWrite]
      by_cases hkey : m.key = k
      · have hget := h m mem_cons_self
        rw [if_pos ⟨hstem, hkey⟩, if_pos ⟨m, mem_cons_self, hkey⟩, ← hkey, hget]
        rfl
      · rw [if_neg fun h => hkey h.2, if_neg]
        rintro ⟨m', hm', hk⟩
        rcases mem_cons.mp hm' with rfl | hm'
        · exact hkey hk
        · exact hlater ⟨m', hm', hk⟩

theorem get_foldl_mergeWrite_outside (hstem : ¬stem <+: k)
    (ms : List Mutation) (present : SortedMap Bytes Bytes) :
    (ms.foldl (mergeWrite stem) present).get k = present.get k := by
  induction ms generalizing present with
  | nil => rfl
  | cons m ms ih => rw [foldl_cons, ih, get_mergeWrite, if_neg fun h => hstem h.1]

theorem lists_mergeLocalWrites (h : Kept y) {committed : List (Bytes × Bytes)}
    (hcommitted : Lists stem (t.visible · y.startSeq) committed) :
    Lists stem (readThrough t y) (mergeLocalWrites stem committed y.localWrites) := by
  have hpresent : (empty.insertAll committed).entries = committed :=
    entries_insertAll (m := .empty) (pairwise_map.mp hcommitted.1)
  refine ⟨keys_pairwise _, fun k v => ?_⟩
  rw [mergeLocalWrites, ← get_eq_some_iff]
  by_cases hstem : stem <+: k
  · rw [get_foldl_mergeWrite (fun m hm => h.mem_localWrites.mp hm) stem _ hstem, readThrough]
    cases hget : y.writes.get k with
    | some m =>
      have hm : m ∈ y.localWrites := by rw [h.mem_localWrites, h.keyed k m hget, hget]
      rw [if_pos ⟨m, hm, h.keyed k m hget⟩]
      simp [hstem]
    | none =>
      have hnone : ¬∃ m ∈ y.localWrites, m.key = k := by
        rintro ⟨m, hm, rfl⟩
        exact nomatch hget.symm.trans (h.mem_localWrites.mp hm)
      rw [if_neg hnone, get_eq_some_iff, hpresent]
      exact hcommitted.2 k v
  · rw [get_foldl_mergeWrite_outside hstem, get_eq_some_iff, hpresent, hcommitted.2 k v]
    simp [hstem]

/-! ## The engines -/

theorem read_eq_readThrough {e : Transactions.Engine} (h : t.Formed)
    (hstore : e.manager.fsm.store = t.toStore) {id : Nat} (hy : e.txns id = some y)
    (hactive : y.state = .active) (key : Bytes) :
    (e.read id key).2 = .value (readThrough t y key) := by
  simp only [Transactions.Engine.read, Transactions.Engine.onTxn, hy, hactive, readThrough,
    hstore, h.visible_eq]
  cases y.writes.get key <;> rfl

theorem Replicated.readResult_eq_readThrough {s : Replicated} (h : t.Formed)
    (hstore : s.applier.fsm.store = t.toStore) (y : Txn) (key : Bytes) :
    s.readResult y key = (readThrough t y key).mapError .store := by
  simp only [Replicated.readResult, readThrough, hstore, h.visible_eq]
  cases y.writes.get key with
  | some m => rfl
  | none => cases t.toStore.visible key y.startSeq <;> rfl

/-! ## Reached stores -/

/-- In every reached store the index is the sorted list of the keys and the
chains are sorted; a scan and the reads at the same sequence number agree, before
and after the local writes. -/
theorem scan_iff_read (ops : List IndexedStore.StoreOp) :
    let t := IndexedStore.reached ops
    (t.orderedKeys.Pairwise (· < ·) ∧ (∀ k, k ∈ t.orderedKeys ↔ (t.chains.get k).isSome) ∧
      ∀ k, (t.chain k).Pairwise fun v v' => v.commitSeq ≤ v'.commitSeq) ∧
    ∀ stem startSeq,
      (t.scanVisible stem startSeq = .error .snapshotTooOld ∧
        ∀ k, t.visible k startSeq = .error .snapshotTooOld) ∨
      ∃ committed, t.scanVisible stem startSeq = .ok committed ∧
        Lists stem (t.visible · startSeq) committed ∧
        ∀ id writes,
          let y := written ⟨id, startSeq, .active, .empty, []⟩ writes
          Lists stem (readThrough t y) (mergeLocalWrites stem committed y.localWrites) := by
  intro t
  have h : t.Formed := IndexedStore.formed_reached ops
  refine ⟨⟨h.sorted, fun k => ?_, h.ordered⟩, fun stem startSeq => ?_⟩
  · rw [h.keys, SortedMap.mem_keys_iff]
  · rcases refused_or_scanned h stem startSeq with hrefused | ⟨committed, hscan, hlists⟩
    · exact .inl hrefused
    · refine .inr ⟨committed, hscan, hlists, fun id writes => ?_⟩
      refine lists_mergeLocalWrites (kept_empty.written writes) ?_
      rw [startSeq_written]
      exact hlists

end ChronicleDB.Sql
