import ChronicleDB.Foundation.Search
import ChronicleDB.Mvcc.Store
import Mathlib.Data.List.Sort

/-!
# The index of the store

`internal/mvcc/mvcc.go` keeps the list of keys beside the map of chains and finds
its place in both by binary search.  Here the two are apart as in the source, and
every operation on them is one on a `Store`, where the map carries the order of
its keys and a search is the length of a part of a chain.
-/

namespace ChronicleDB.Mvcc

open Foundation List SortedMap

structure IndexedStore extends Store where
  orderedKeys : List Bytes

def searchStrings (keys : List Bytes) (key : Bytes) : Nat := searchIn keys fun k => key ≤ k

/-- One more than the `idx` of the reads and of `ReclaimKey`. -/
def searchChain (chain : List Version) (seq : Nat) : Nat := searchIn chain (seq < ·.commitSeq)

def searchVisible (chain : List Version) (startSeq : Nat) : Option Bytes :=
  if searchChain chain startSeq = 0 then none
  else chain[searchChain chain startSeq - 1]?.bind (·.value)

namespace IndexedStore

def new : IndexedStore := ⟨.new, []⟩

def insertOrderedKeyLocked (t : IndexedStore) (key : Bytes) : IndexedStore :=
  let idx := searchStrings t.orderedKeys key
  { t with orderedKeys := t.orderedKeys.take idx ++ key :: t.orderedKeys.drop idx }

def keysFrom (t : IndexedStore) (cursor : Bytes) (limit : Nat) : List Bytes :=
  if limit = 0 then []
  else
    let found := searchStrings t.orderedKeys cursor
    let start := if t.orderedKeys[found]? = some cursor then found + 1 else found
    (t.orderedKeys.drop start).take limit

/-- The store after `ReclaimKey`, and how many versions it has removed. -/
def reclaimKey (t : IndexedStore) (key : Bytes) (w budget : Nat) : IndexedStore × Nat :=
  if budget = 0 then (t, 0)
  else if (t.chain key).length < 2 then (t, 0)
  else
    let idx := searchChain (t.chain key) w - 1
    if idx = 0 then (t, 0)
    else
      let n := if idx > budget then budget else idx
      ({ t with chains := t.chains.insert key ((t.chain key).drop n) }, n)

def setGCWatermark (t : IndexedStore) (w : Nat) : IndexedStore :=
  { t with toStore := t.toStore.setGCWatermark w }

def visible (t : IndexedStore) (key : Bytes) (startSeq : Nat) :
    Except StoreError (Option Bytes) :=
  if startSeq < t.gcWatermark then .error .snapshotTooOld
  else .ok (searchVisible (t.chain key) startSeq)

def scanVisible (t : IndexedStore) (stem : Bytes) (startSeq : Nat) :
    Except StoreError (List (Bytes × Bytes)) :=
  if startSeq < t.gcWatermark then .error .snapshotTooOld
  else .ok (t.orderedKeys.filterMap fun k =>
    if stem.isPrefixOf k then (searchVisible (t.chain k) startSeq).map fun v => (k, v) else none)

def push (commitSeq : Nat) (t : IndexedStore) (m : Mutation) : IndexedStore :=
  let t := if (t.chains.get m.key).isSome then t else t.insertOrderedKeyLocked m.key
  { t with toStore := t.toStore.push commitSeq m }

def applyCommit (t : IndexedStore) (commitSeq : Nat) (mutations : List Mutation) :
    Except StoreError IndexedStore :=
  if mutations = [] then .ok t
  else
    match t.toStore.checkMonotonic commitSeq mutations with
    | .error e => .error e
    | .ok () => .ok (mutations.foldl (push commitSeq) t)

def restoreStore (chains : List (Bytes × List Version)) (gcWatermark : Nat) : IndexedStore :=
  ⟨Store.restoreStore chains gcWatermark, (chains.map (·.1)).mergeSort (· ≤ ·)⟩

end IndexedStore

/-! ## What the searches find -/

theorem exists_append_of_sorted {keys : List Bytes} (h : keys.Pairwise (· < ·)) (key : Bytes) :
    ∃ a b, keys = a ++ b ∧ (∀ k ∈ a, k < key) ∧ (∀ k ∈ b, key ≤ k) ∧
      searchStrings keys key = a.length := by
  have hmono : keys.Pairwise fun k k' => decide (key ≤ k) → decide (key ≤ k') := by
    refine h.imp fun {k k'} hlt hle => decide_eq_true ?_
    exact le_trans (of_decide_eq_true hle) (le_of_lt hlt)
  refine ⟨keys.takeWhile fun k => ! decide (key ≤ k), keys.dropWhile fun k => ! decide (key ≤ k),
    takeWhile_append_dropWhile.symm, fun k hk => ?_, fun k hk => ?_,
    searchIn_eq_length_takeWhile hmono⟩
  · have := mem_takeWhile_imp hk
    simpa using this
  · exact of_decide_eq_true (forall_mem_dropWhile_not hmono k hk)

section Chains

variable {chain : List Version} (h : chain.Pairwise fun v v' => v.commitSeq ≤ v'.commitSeq)
include h

theorem searchChain_eq (seq : Nat) : searchChain chain seq = (upTo chain seq).length := by
  rw [searchChain, searchIn_eq_length_takeWhile, upTo]
  · congr 2
    funext v
    simp [← decide_not]
  · refine h.imp fun {v v'} hle hlt => decide_eq_true ?_
    exact Nat.lt_of_lt_of_le (of_decide_eq_true hlt) hle

theorem searchVisible_eq (startSeq : Nat) :
    searchVisible chain startSeq = visibleIn chain startSeq := by
  rw [searchVisible, visibleIn, searchChain_eq h, getLast?_eq_getElem?]
  split
  case isTrue hnil => simp [length_eq_zero_iff.mp hnil]
  case isFalse hne =>
    -- the versions up to `startSeq` are the first ones of the chain
    obtain ⟨later, hchain⟩ : upTo chain startSeq <+: chain := takeWhile_prefix _
    have hlast : chain[(upTo chain startSeq).length - 1]? =
        (upTo chain startSeq)[(upTo chain startSeq).length - 1]? := by
      conv_lhs => rw [← hchain]
      rw [getElem?_append_left (by rw [hchain]; omega), hchain]
    rw [hlast]

end Chains

namespace IndexedStore

/-! ## The index and the chains -/

/-- The index lists the keys of the chains, and the chains are sorted. -/
structure Formed (t : IndexedStore) : Prop where
  keys : t.orderedKeys = t.chains.keys
  ordered : t.toStore.Ordered

theorem formed_new : new.Formed := ⟨rfl, Store.ordered_new⟩

variable {t : IndexedStore}

theorem Formed.sorted (h : t.Formed) : t.orderedKeys.Pairwise (· < ·) := by
  rw [h.keys]
  exact t.chains.keys_pairwise

/-! ## Commits -/

theorem keys_insert_new {V : Type} {m : SortedMap Bytes V} {k : Bytes} (hk : m.get k = none)
    (v : V) :
    (m.insert k v).keys =
      m.keys.take (searchStrings m.keys k) ++ k :: m.keys.drop (searchStrings m.keys k) := by
  obtain ⟨a, b, hab, ha, hb, hidx⟩ := exists_append_of_sorted m.keys_pairwise k
  rw [hidx]
  obtain ⟨a', b', hentries, rfl, rfl⟩ := map_eq_append_iff.mp hab
  have hafter : ∀ e ∈ b', k < e.1 := by
    intro e he
    refine lt_of_le_of_ne (hb _ (mem_map_of_mem he)) ?_
    rintro rfl
    have : m.get e.1 = some e.2 :=
      m.get_eq_some_iff.mpr (hentries ▸ mem_append_right a' he)
    exact nomatch hk.symm.trans this
  have hinsert : (m.insert k v).entries = a' ++ (k, v) :: b' := by
    change insertEntry k v m.entries = _
    rw [hentries]
    exact insertEntry_append (fun e he => ha _ (mem_map_of_mem he)) hafter
  rw [SortedMap.keys, hinsert, hab]
  simp

@[simp] theorem toStore_push (commitSeq : Nat) (t : IndexedStore) (m : Mutation) :
    (push commitSeq t m).toStore = t.toStore.push commitSeq m := by
  rw [push]
  split <;> rfl

theorem push_keys (h : t.orderedKeys = t.chains.keys) (commitSeq : Nat) (m : Mutation) :
    (push commitSeq t m).orderedKeys = (push commitSeq t m).chains.keys := by
  rw [toStore_push, Store.push, push]
  dsimp only
  cases hget : t.chains.get m.key with
  | some chain =>
    rw [keys_insert_of_mem (t.chains.mem_keys_iff.mpr (by rw [hget]; rfl))]
    exact h
  | none =>
    rw [keys_insert_new hget, ← h]
    rfl

theorem foldl_push_keys (h : t.orderedKeys = t.chains.keys) (commitSeq : Nat) (ms : List Mutation) :
    (ms.foldl (push commitSeq) t).orderedKeys = (ms.foldl (push commitSeq) t).chains.keys := by
  induction ms generalizing t with
  | nil => exact h
  | cons m ms ih => exact ih (push_keys h commitSeq m)

theorem toStore_foldl_push (commitSeq : Nat) (t : IndexedStore) (ms : List Mutation) :
    (ms.foldl (push commitSeq) t).toStore = ms.foldl (Store.push commitSeq) t.toStore := by
  induction ms generalizing t with
  | nil => rfl
  | cons m ms ih => rw [foldl_cons, ih, toStore_push, foldl_cons]

theorem toStore_applyCommit (t : IndexedStore) (commitSeq : Nat) (ms : List Mutation) :
    (t.applyCommit commitSeq ms).map toStore = t.toStore.applyCommit commitSeq ms := by
  rw [applyCommit, Store.applyCommit]
  split
  case isTrue hnil =>
    subst hnil
    rfl
  case isFalse =>
    cases t.toStore.checkMonotonic commitSeq ms with
    | error e => rfl
    | ok u => exact congrArg Except.ok (toStore_foldl_push commitSeq t ms)

theorem Formed.applyCommit {t' : IndexedStore} (h : t.Formed) {commitSeq : Nat} {ms : List Mutation}
    (happly : t.applyCommit commitSeq ms = .ok t') : t'.Formed := by
  have hstore : t.toStore.applyCommit commitSeq ms = .ok t'.toStore := by
    rw [← toStore_applyCommit, happly]
    rfl
  refine ⟨?_, h.ordered.applyCommit hstore⟩
  rw [IndexedStore.applyCommit] at happly
  split at happly
  · obtain rfl := Except.ok.inj happly
    exact h.keys
  · split at happly
    · cases happly
    · obtain rfl := Except.ok.inj happly
      exact foldl_push_keys h.keys commitSeq ms

/-! ## Collection -/

theorem Formed.toStore_reclaimKey (h : t.Formed) (key : Bytes) (w budget : Nat) :
    ((t.reclaimKey key w budget).1.toStore, (t.reclaimKey key w budget).2) =
      t.toStore.reclaimKey key w budget := by
  have hsuperseded : superseded (t.chain key) w < (t.chain key).length ∨
      superseded (t.chain key) w = 0 := by
    have := (takeWhile_sublist (·.commitSeq ≤ w) (l := t.chain key)).length_le
    rw [superseded, upTo]
    omega
  rw [reclaimKey, Store.reclaimKey, searchChain_eq (h.ordered key), ← superseded]
  dsimp only
  split
  case isTrue hbudget => rw [if_pos (by omega)]
  case isFalse hbudget =>
    split
    case isTrue hshort => rw [if_pos (by omega)]
    case isFalse hlong =>
      split
      case isTrue hnone => rw [if_pos (by omega)]
      case isFalse hsome =>
        have hmin : (if superseded (t.chain key) w > budget then budget
            else superseded (t.chain key) w) = min (superseded (t.chain key) w) budget := by
          split <;> omega
        rw [hmin, if_neg (by omega)]

theorem reclaimKey_keys (h : t.orderedKeys = t.chains.keys) (key : Bytes) (w budget : Nat) :
    (t.reclaimKey key w budget).1.orderedKeys = (t.reclaimKey key w budget).1.chains.keys := by
  rw [reclaimKey]
  split
  case isTrue => exact h
  case isFalse =>
    split
    case isTrue => exact h
    case isFalse hlong =>
      -- a key without a chain has no two versions
      have hmem : key ∈ t.chains.keys := by
        rw [mem_keys_iff]
        cases hget : t.chains.get key with
        | some chain => rfl
        | none => simp [Store.chain, hget] at hlong
      dsimp only
      split
      · exact h
      · rw [keys_insert_of_mem hmem]
        exact h

theorem Formed.reclaimKey (h : t.Formed) (key : Bytes) (w budget : Nat) :
    (t.reclaimKey key w budget).1.Formed := by
  refine ⟨reclaimKey_keys h.keys key w budget, ?_⟩
  have hstore := congrArg Prod.fst (h.toStore_reclaimKey key w budget)
  dsimp only at hstore
  rw [hstore]
  exact h.ordered.reclaimKey key w budget

theorem Formed.setGCWatermark (h : t.Formed) (w : Nat) : (t.setGCWatermark w).Formed := by
  refine ⟨?_, fun key => ?_⟩
  · rw [IndexedStore.setGCWatermark, Store.setGCWatermark]
    split <;> exact h.keys
  · rw [IndexedStore.setGCWatermark, Store.chain_setGCWatermark]
    exact h.ordered key

/-! ## Restored stores -/

theorem Formed.restoreStore (h : t.Formed) (w : Nat) : (restoreStore t.keyChains w).Formed := by
  have hchains : (IndexedStore.restoreStore t.keyChains w).chains = t.chains :=
    insertAll_entries t.chains
  refine ⟨?_, fun key => ?_⟩
  · rw [hchains]
    exact mergeSort_eq_self (r := (· ≤ ·)) (t.chains.keys_pairwise.imp le_of_lt)
  · rw [Store.chain, hchains]
    exact h.ordered key

/-! ## Runs -/

/-- The operations that change a store; a restored one is built from what the
store before it exported. -/
inductive StoreOp where
  | applyCommit (commitSeq : Nat) (mutations : List Mutation)
  | reclaimKey (key : Bytes) (w budget : Nat)
  | setGCWatermark (w : Nat)
  | restoreStore (gcWatermark : Nat)

def perform (t : IndexedStore) : StoreOp → IndexedStore
  | .applyCommit commitSeq mutations =>
    match t.applyCommit commitSeq mutations with
    | .error _ => t
    | .ok t' => t'
  | .reclaimKey key w budget => (t.reclaimKey key w budget).1
  | .setGCWatermark w => t.setGCWatermark w
  | .restoreStore gcWatermark => restoreStore t.keyChains gcWatermark

def reached (ops : List StoreOp) : IndexedStore := ops.foldl perform new

theorem Formed.perform (h : t.Formed) (op : StoreOp) : (t.perform op).Formed := by
  cases op with
  | applyCommit commitSeq mutations =>
    rw [IndexedStore.perform]
    split
    · exact h
    · exact h.applyCommit ‹_›
  | reclaimKey key w budget => exact h.reclaimKey key w budget
  | setGCWatermark w => exact h.setGCWatermark w
  | restoreStore gcWatermark => exact h.restoreStore gcWatermark

theorem formed_reached (ops : List StoreOp) : (reached ops).Formed := by
  have hrun : ∀ (ops : List StoreOp) (t : IndexedStore), t.Formed →
      (ops.foldl IndexedStore.perform t).Formed := by
    intro ops
    induction ops with
    | nil => exact fun t h => h
    | cons op ops ih => exact fun t h => ih _ (h.perform op)
  exact hrun ops new formed_new

/-! ## Reads -/

section Reads

variable {t : IndexedStore} (h : t.Formed)
include h

theorem Formed.visible_eq (key : Bytes) (startSeq : Nat) :
    t.visible key startSeq = t.toStore.visible key startSeq := by
  rw [visible, Store.visible, searchVisible_eq (h.ordered key)]

theorem Formed.scanVisible_eq (stem : Bytes) (startSeq : Nat) :
    t.scanVisible stem startSeq = t.toStore.scanVisible stem startSeq := by
  have hentries : t.chains.entries = t.orderedKeys.map fun k => (k, t.chain k) := by
    rw [h.keys]
    refine t.chains.entries_eq_map_keys fun k chain hget => ?_
    rw [Store.chain, hget, Option.getD_some]
  rw [scanVisible, Store.scanVisible, hentries, filterMap_map]
  simp only [searchVisible_eq (h.ordered _), Function.comp_def]

theorem Formed.keysFrom_eq (cursor : Bytes) (limit : Nat) :
    t.keysFrom cursor limit = t.toStore.keysFrom cursor limit := by
  obtain ⟨a, b, hab, ha, hb, hidx⟩ := exists_append_of_sorted h.sorted cursor
  have hbefore : a.filter (cursor < ·) = [] :=
    filter_eq_nil_iff.mpr fun k hk => by simpa using le_of_lt (ha k hk)
  rw [keysFrom, Store.keysFrom, ← h.keys, hidx, hab, filter_append, hbefore]
  split
  case isTrue hlimit => simp [hlimit]
  case isFalse =>
    dsimp only
    rw [getElem?_append_right (Nat.le_refl _), Nat.sub_self]
    cases b with
    | nil => simp
    | cons k b =>
      have hsorted : (k :: b).Pairwise (· < ·) :=
        (pairwise_append.mp (hab ▸ h.sorted)).2.1
      have hafter : ∀ k' ∈ b, cursor < k' := fun k' hk' =>
        lt_of_le_of_lt (hb k mem_cons_self) ((pairwise_cons.mp hsorted).1 k' hk')
      have hall : b.filter (cursor < ·) = b :=
        filter_eq_self.mpr fun k' hk' => decide_eq_true (hafter k' hk')
      by_cases hk : k = cursor
      · have hpast : a.drop (a.length + 1) = [] := drop_of_length_le (Nat.le_succ _)
        simp [hk, hall, drop_append, hpast]
      · have hlt : cursor < k := lt_of_le_of_ne (hb k mem_cons_self) (Ne.symm hk)
        simp [hk, hlt, hall]

end Reads

/-! ## Refinement -/

/-- The operations on a store without an index. -/
def performPlain (s : Store) : StoreOp → Store
  | .applyCommit commitSeq mutations => (s.applyCommit commitSeq mutations).toOption.getD s
  | .reclaimKey key w budget => (s.reclaimKey key w budget).1
  | .setGCWatermark w => s.setGCWatermark w
  | .restoreStore gcWatermark => .restoreStore s.keyChains gcWatermark

def plain (ops : List StoreOp) : Store := ops.foldl performPlain .new

theorem Formed.toStore_perform (h : t.Formed) (op : StoreOp) :
    (t.perform op).toStore = performPlain t.toStore op := by
  cases op with
  | applyCommit commitSeq mutations =>
    rw [performPlain, ← toStore_applyCommit, IndexedStore.perform]
    cases t.applyCommit commitSeq mutations <;> rfl
  | reclaimKey key w budget => exact congrArg Prod.fst (h.toStore_reclaimKey key w budget)
  | _ => rfl

theorem toStore_reached (ops : List StoreOp) : (reached ops).toStore = plain ops := by
  have hrun : ∀ (ops : List StoreOp) (t : IndexedStore), t.Formed →
      (ops.foldl IndexedStore.perform t).toStore = ops.foldl performPlain t.toStore := by
    intro ops
    induction ops with
    | nil => exact fun t h => rfl
    | cons op ops ih =>
      intro t h
      rw [foldl_cons, ih _ (h.perform op), h.toStore_perform, foldl_cons]
  exact hrun ops new formed_new

/-- After any operations the index answers every call as a store without one. -/
theorem index_refines (ops : List StoreOp) :
    (∀ key seq, (reached ops).visible key seq = (plain ops).visible key seq) ∧
    (∀ stem seq, (reached ops).scanVisible stem seq = (plain ops).scanVisible stem seq) ∧
    (∀ cursor limit, (reached ops).keysFrom cursor limit = (plain ops).keysFrom cursor limit) ∧
    (∀ seq ms, ((reached ops).applyCommit seq ms).map toStore = (plain ops).applyCommit seq ms) ∧
    ∀ key w n, ((reached ops).reclaimKey key w n).2 = ((plain ops).reclaimKey key w n).2 := by
  have h := formed_reached ops
  rw [← toStore_reached]
  exact ⟨h.visible_eq, h.scanVisible_eq, h.keysFrom_eq, toStore_applyCommit _,
    fun key w n => congrArg Prod.snd (h.toStore_reclaimKey key w n)⟩

end IndexedStore

end ChronicleDB.Mvcc
