import ChronicleDB.Foundation.Bytes
import ChronicleDB.Foundation.SortedMap
import Mathlib.Data.List.TakeWhile

/-!
# Version chains

`internal/mvcc/mvcc.go`.  The value of a version or mutation is `none` for a
tombstone, whose `Value` no function reads.  The map of chains and the sorted
list of its keys are one sorted map.  A binary search for the first version past
a sequence number is the length of the part before it, as the chains are sorted
(`Store.Ordered`).
-/

namespace ChronicleDB.Mvcc

open Foundation List Option

variable {latest n startSeq : Nat} {key : Bytes}

structure Version where
  commitSeq : Nat
  value : Option Bytes
  deriving DecidableEq, Repr

structure Mutation where
  key : Bytes
  value : Option Bytes
  deriving DecidableEq, Repr

variable {ms : List Mutation}

structure Store where
  chains : SortedMap Bytes (List Version)
  gcWatermark : Nat
  deriving DecidableEq

variable {s : Store}

inductive StoreError where
  | nonMonotonicCommit (key : Bytes) (latest new : Nat)
  | snapshotTooOld
  deriving DecidableEq, Repr

/-! ## Chains -/

/-- The versions up to `seq`; their number is what the binary searches return. -/
def upTo (chain : List Version) (seq : Nat) : List Version :=
  chain.takeWhile (·.commitSeq ≤ seq)

def visibleIn (chain : List Version) (startSeq : Nat) : Option Bytes :=
  (upTo chain startSeq).getLast?.bind (·.value)

def latestIn (chain : List Version) : Option Nat := chain.getLast?.map (·.commitSeq)

def superseded (chain : List Version) (w : Nat) : Nat := (upTo chain w).length - 1

namespace Store

def new : Store := ⟨.empty, 0⟩

def chain (s : Store) (key : Bytes) : List Version := (s.chains.get key).getD []

/-! ## Reads -/

def visible (s : Store) (key : Bytes) (startSeq : Nat) : Except StoreError (Option Bytes) :=
  if startSeq < s.gcWatermark then .error .snapshotTooOld
  else .ok (visibleIn (s.chain key) startSeq)

def scanVisible (s : Store) (stem : Bytes) (startSeq : Nat) :
    Except StoreError (List (Bytes × Bytes)) :=
  if startSeq < s.gcWatermark then .error .snapshotTooOld
  else .ok (s.chains.entries.filterMap fun e =>
    if stem.isPrefixOf e.1 then (visibleIn e.2 startSeq).map fun v => (e.1, v) else none)

def latestCommitSeq (s : Store) (key : Bytes) : Option Nat := latestIn (s.chain key)

/-- The first mutation, in order, whose key has a version past `startSeq`. -/
def checkConflicts (s : Store) (startSeq : Nat) : List Mutation → Option (Bytes × Nat)
  | [] => none
  | m :: ms =>
    match s.latestCommitSeq m.key with
    | none => checkConflicts s startSeq ms
    | some latest =>
      if latest > startSeq then some (m.key, latest) else checkConflicts s startSeq ms

/-! ## Commits -/

def checkMonotonic (s : Store) (commitSeq : Nat) : List Mutation → Except StoreError Unit
  | [] => .ok ()
  | m :: ms =>
    match s.latestCommitSeq m.key with
    | none => checkMonotonic s commitSeq ms
    | some latest =>
      if latest ≥ commitSeq then .error (.nonMonotonicCommit m.key latest commitSeq)
      else checkMonotonic s commitSeq ms

def push (commitSeq : Nat) (s : Store) (m : Mutation) : Store :=
  { s with chains := s.chains.insert m.key (s.chain m.key ++ [⟨commitSeq, m.value⟩]) }

def applyCommit (s : Store) (commitSeq : Nat) (mutations : List Mutation) :
    Except StoreError Store :=
  match s.checkMonotonic commitSeq mutations with
  | .error e => .error e
  | .ok () => .ok (mutations.foldl (push commitSeq) s)

/-! ## Collection -/

def keysFrom (s : Store) (cursor : Bytes) (limit : Nat) : List Bytes :=
  (s.chains.keys.filter (cursor < ·)).take limit

def reclaimKey (s : Store) (key : Bytes) (w budget : Nat) : Store × Nat :=
  let n := min (superseded (s.chain key) w) budget
  if n = 0 then (s, 0)
  else ({ s with chains := s.chains.insert key ((s.chain key).drop n) }, n)

def setGCWatermark (s : Store) (w : Nat) : Store :=
  if w > s.gcWatermark then { s with gcWatermark := w } else s

def keyChains (s : Store) : List (Bytes × List Version) := s.chains.entries

def restoreStore (chains : List (Bytes × List Version)) (gcWatermark : Nat) : Store :=
  ⟨SortedMap.empty.insertAll chains, gcWatermark⟩

/-! ## Chains after an operation -/

theorem chain_push (s : Store) (commitSeq : Nat) (m : Mutation) (key : Bytes) :
    (push commitSeq s m).chain key =
      if key = m.key then s.chain key ++ [⟨commitSeq, m.value⟩] else s.chain key := by
  simp only [chain, push, SortedMap.get_insert]
  split
  case isTrue h => rw [h, getD_some]
  case isFalse => rfl

def added (commitSeq : Nat) (mutations : List Mutation) (key : Bytes) : List Version :=
  (mutations.filter (·.key = key)).map fun m => ⟨commitSeq, m.value⟩

theorem chain_foldl_push (s : Store) (commitSeq : Nat) (mutations : List Mutation)
    (key : Bytes) :
    (mutations.foldl (push commitSeq) s).chain key =
      s.chain key ++ added commitSeq mutations key := by
  induction mutations generalizing s with
  | nil => simp [added]
  | cons m ms ih =>
    rw [foldl_cons, ih, chain_push]
    by_cases h : key = m.key
    · simp [added, h]
    · simp [added, h, Ne.symm h]

@[simp] theorem gcWatermark_foldl_push (s : Store) (commitSeq : Nat) (ms : List Mutation) :
    (ms.foldl (push commitSeq) s).gcWatermark = s.gcWatermark := by
  induction ms generalizing s with
  | nil => rfl
  | cons m ms ih => rw [foldl_cons, ih]; rfl

theorem chain_reclaimKey (s : Store) (key : Bytes) (w budget : Nat) (key' : Bytes) :
    (s.reclaimKey key w budget).1.chain key' =
      if key' = key then (s.chain key).drop (min (superseded (s.chain key) w) budget)
      else s.chain key' := by
  rw [reclaimKey]
  split
  case isTrue h =>
    rw [h, drop_zero]
    split
    case isTrue hk => rw [hk]
    case isFalse => rfl
  case isFalse h =>
    simp only [chain, SortedMap.get_insert]
    split
    case isTrue => rw [getD_some]
    case isFalse => rfl

@[simp] theorem gcWatermark_reclaimKey (s : Store) (key : Bytes) (w budget : Nat) :
    (s.reclaimKey key w budget).1.gcWatermark = s.gcWatermark := by
  rw [reclaimKey]
  split <;> rfl

@[simp] theorem chain_setGCWatermark (s : Store) (w : Nat) (key : Bytes) :
    (s.setGCWatermark w).chain key = s.chain key := by
  rw [setGCWatermark]
  split <;> rfl

@[simp] theorem gcWatermark_setGCWatermark (s : Store) (w : Nat) :
    (s.setGCWatermark w).gcWatermark = max s.gcWatermark w := by
  rw [setGCWatermark]
  split
  case isTrue h => exact (Nat.max_eq_right (Nat.le_of_lt h)).symm
  case isFalse h => exact (Nat.max_eq_left (Nat.not_lt.mp h)).symm

/-! ## Sequence numbers in chains -/

def Ordered (s : Store) : Prop :=
  ∀ key, (s.chain key).Pairwise fun v v' => v.commitSeq ≤ v'.commitSeq

def Below (s : Store) (n : Nat) : Prop := ∀ key, ∀ v ∈ s.chain key, v.commitSeq < n

theorem ordered_new : new.Ordered := fun _ => .nil

theorem below_new (n : Nat) : new.Below n := fun _ _ hv => by simp [new, chain] at hv

theorem Below.mono {n' : Nat} (h : s.Below n) (hn : n ≤ n') : s.Below n' :=
  fun key v hv => Nat.lt_of_lt_of_le (h key v hv) hn

theorem Below.latest_lt (h : s.Below n) (hlatest : s.latestCommitSeq key = some latest) :
    latest < n := by
  obtain ⟨v, hv, rfl⟩ := map_eq_some_iff.mp hlatest
  exact h key v (mem_of_getLast? hv)

theorem checkMonotonic_of_below (h : s.Below n) (ms : List Mutation) :
    s.checkMonotonic n ms = .ok () := by
  induction ms with
  | nil => rfl
  | cons m ms ih =>
    rw [checkMonotonic]
    split
    case h_1 => exact ih
    case h_2 latest hlatest => rw [if_neg (Nat.not_le.mpr (h.latest_lt hlatest)), ih]

theorem applyCommit_of_below (h : s.Below n) (ms : List Mutation) :
    s.applyCommit n ms = .ok (ms.foldl (push n) s) := by
  rw [applyCommit, checkMonotonic_of_below h]

theorem commitSeq_of_mem_added {v : Version} (hv : v ∈ added n ms key) : v.commitSeq = n := by
  obtain ⟨m, _, rfl⟩ := mem_map.mp hv
  rfl

theorem Below.foldl_push (h : s.Below n) (ms : List Mutation) :
    (ms.foldl (push n) s).Below (n + 1) := by
  intro key v hv
  rw [chain_foldl_push] at hv
  rcases mem_append.mp hv with hold | hnew
  · exact Nat.lt_succ_of_lt (h key v hold)
  · rw [commitSeq_of_mem_added hnew]
    exact Nat.lt_succ_self n

theorem le_latest {l : List Version}
    (h : l.Pairwise fun v v' => v.commitSeq ≤ v'.commitSeq) (hlatest : latestIn l = some latest)
    {v : Version} (hv : v ∈ l) : v.commitSeq ≤ latest := by
  obtain ⟨last, hlast, rfl⟩ := map_eq_some_iff.mp hlatest
  obtain ⟨front, rfl⟩ := getLast?_eq_some_iff.mp hlast
  rcases mem_append.mp hv with hfront | hlast
  · exact (pairwise_append.mp h).2.2 v hfront last (mem_singleton_self _)
  · rw [mem_singleton.mp hlast]

theorem latest_lt_of_checkMonotonic
    (h : s.checkMonotonic n ms = .ok ()) {m : Mutation} (hm : m ∈ ms)
    (hlatest : s.latestCommitSeq m.key = some latest) : latest < n := by
  induction ms with
  | nil => cases hm
  | cons m' ms ih =>
    rw [checkMonotonic] at h
    rcases mem_cons.mp hm with rfl | hm
    · simp only [hlatest] at h
      split at h
      · cases h
      case isFalse hlt => exact Nat.not_le.mp hlt
    · split at h
      · exact ih h hm
      · split at h
        · cases h
        · exact ih h hm

theorem Ordered.applyCommit {s' : Store} (h : s.Ordered)
    (happly : s.applyCommit n ms = .ok s') : s'.Ordered := by
  rw [Store.applyCommit] at happly
  split at happly
  · cases happly
  case h_2 hcheck =>
    obtain rfl := Except.ok.inj happly
    intro key
    rw [chain_foldl_push]
    refine pairwise_append.mpr ⟨h key, ?_, fun v hv v' hv' => ?_⟩
    · rw [added, pairwise_map]
      exact pairwise_of_forall fun _ _ => Nat.le_refl n
    · obtain ⟨m, hmem, rfl⟩ := mem_map.mp hv'
      obtain ⟨hm, hkey⟩ := mem_filter.mp hmem
      obtain rfl : m.key = key := of_decide_eq_true hkey
      obtain ⟨latest, hlatest⟩ : ∃ latest, s.latestCommitSeq m.key = some latest := by
        rw [latestCommitSeq, latestIn, getLast?_eq_getLast_of_ne_nil (ne_nil_of_mem hv)]
        exact ⟨_, rfl⟩
      exact Nat.le_of_lt (Nat.lt_of_le_of_lt (le_latest (h m.key) hlatest hv)
        (latest_lt_of_checkMonotonic hcheck hm hlatest))

/-! ## Conflicts -/

theorem latest_of_checkConflicts (h : s.checkConflicts startSeq ms = some (key, latest)) :
    s.latestCommitSeq key = some latest ∧ startSeq < latest ∧ ∃ m ∈ ms, m.key = key := by
  induction ms with
  | nil => cases h
  | cons m ms ih =>
    rw [checkConflicts] at h
    split at h
    · obtain ⟨hlatest, hlt, m', hm', hkey⟩ := ih h
      exact ⟨hlatest, hlt, m', mem_cons_of_mem _ hm', hkey⟩
    case h_2 latest' hlatest =>
      split at h
      case isTrue hlt =>
        cases h
        exact ⟨hlatest, hlt, m, mem_cons_self, rfl⟩
      case isFalse =>
        obtain ⟨hlatest, hlt, m', hm', hkey⟩ := ih h
        exact ⟨hlatest, hlt, m', mem_cons_of_mem _ hm', hkey⟩

def ChangedSince (s : Store) (startSeq : Nat) (key : Bytes) : Prop :=
  ∃ latest, s.latestCommitSeq key = some latest ∧ startSeq < latest

theorem not_changedSince_of_checkConflicts
    (h : s.checkConflicts startSeq ms = none) {m : Mutation} (hm : m ∈ ms) :
    ¬s.ChangedSince startSeq m.key := by
  induction ms with
  | nil => cases hm
  | cons m' ms ih =>
    rw [checkConflicts] at h
    rcases mem_cons.mp hm with rfl | hm
    · rintro ⟨latest, hlatest, hlt⟩
      simp [hlatest, hlt] at h
    · split at h
      · exact ih h hm
      · split at h
        · cases h
        · exact ih h hm

theorem checkConflicts_eq_none_iff :
    s.checkConflicts startSeq ms = none ↔ ∀ m ∈ ms, ¬s.ChangedSince startSeq m.key := by
  refine ⟨fun h m hm => not_changedSince_of_checkConflicts h hm, fun h => ?_⟩
  rw [eq_none_iff_forall_ne_some]
  rintro ⟨key, latest⟩ hconflict
  obtain ⟨hlatest, hlt, m, hm, rfl⟩ := latest_of_checkConflicts hconflict
  exact h m hm ⟨latest, hlatest, hlt⟩

/-! ## Versions past a sequence number -/

theorem visibleIn_append_of_lt {chain more : List Version} {seq : Nat}
    (h : ∀ v ∈ more, seq < v.commitSeq) : visibleIn (chain ++ more) seq = visibleIn chain seq := by
  have hmore : more.takeWhile (·.commitSeq ≤ seq) = [] := by
    cases more with
    | nil => rfl
    | cons v more =>
      rw [takeWhile_cons_of_neg]
      simpa using h v mem_cons_self
  rw [visibleIn, visibleIn, upTo, upTo, takeWhile_append]
  split
  case isTrue hall =>
    rw [hmore, append_nil, (takeWhile_sublist _).eq_of_length hall]
  case isFalse => rfl

/-- At the end of the history a read finds the last version. -/
theorem Below.visibleIn_eq (h : s.Below (n + 1)) (key : Bytes) :
    visibleIn (s.chain key) n = (s.chain key).getLast?.bind (·.value) := by
  rw [visibleIn, upTo, takeWhile_eq_self_iff.mpr]
  intro v hv
  exact decide_eq_true (Nat.le_of_lt_succ (h key v hv))

theorem Below.not_changedSince (h : s.Below (n + 1)) (key : Bytes) :
    ¬s.ChangedSince n key := by
  rintro ⟨latest, hlatest, hlt⟩
  exact absurd (h.latest_lt hlatest) (by omega)

theorem added_eq_nil_iff :
    added n ms key = [] ↔ ∀ m ∈ ms, m.key ≠ key := by
  simp [added, filter_eq_nil_iff]

theorem latestCommitSeq_foldl_push_of_mem (s : Store) (n : Nat)
    (h : ∃ m ∈ ms, m.key = key) : (ms.foldl (push n) s).latestCommitSeq key = some n := by
  have hne : added n ms key ≠ [] := by
    rw [ne_eq, added_eq_nil_iff]
    obtain ⟨m, hm, hmk⟩ := h
    exact fun hall => hall m hm hmk
  rw [latestCommitSeq, chain_foldl_push, latestIn, getLast?_append_of_ne_nil _ hne,
    getLast?_eq_some_getLast hne, map_some,
    commitSeq_of_mem_added (getLast_mem hne)]

theorem latestCommitSeq_foldl_push_of_not_mem (s : Store) (n : Nat) (h : ¬∃ m ∈ ms, m.key = key) :
    (ms.foldl (push n) s).latestCommitSeq key = s.latestCommitSeq key := by
  have hnil : added n ms key = [] := added_eq_nil_iff.mpr fun m hm hmk => h ⟨m, hm, hmk⟩
  rw [latestCommitSeq, chain_foldl_push, hnil, append_nil]
  rfl

theorem changedSince_foldl_push (hn : startSeq < n) (ms : List Mutation) (key : Bytes) :
    (ms.foldl (push n) s).ChangedSince startSeq key ↔
      s.ChangedSince startSeq key ∨ ∃ m ∈ ms, m.key = key := by
  by_cases hkey : ∃ m ∈ ms, m.key = key
  · exact iff_of_true ⟨n, s.latestCommitSeq_foldl_push_of_mem n hkey, hn⟩ (.inr hkey)
  · rw [ChangedSince, s.latestCommitSeq_foldl_push_of_not_mem n hkey, or_iff_left hkey]
    rfl

theorem chain_reclaimKey_sublist (s : Store) (key : Bytes) (w budget : Nat) (key' : Bytes) :
    ((s.reclaimKey key w budget).1.chain key').Sublist (s.chain key') := by
  rw [chain_reclaimKey]
  split
  case isTrue h => rw [h]; exact drop_sublist _ _
  case isFalse => exact List.Sublist.refl _

theorem Ordered.reclaimKey (h : s.Ordered) (key : Bytes) (w budget : Nat) :
    (s.reclaimKey key w budget).1.Ordered := fun key' =>
  (h key').sublist (chain_reclaimKey_sublist s key w budget key')

theorem chain_of_mem_keyChains {c : Bytes × List Version} (hc : c ∈ s.keyChains) :
    s.chain c.1 = c.2 := by
  rw [chain, s.chains.get_eq_some_iff.mpr hc]
  rfl

theorem restoreStore_keyChains (s : Store) : restoreStore s.keyChains s.gcWatermark = s := by
  rw [restoreStore, keyChains, SortedMap.insertAll_entries]

end Store

end ChronicleDB.Mvcc
