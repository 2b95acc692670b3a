import Mathlib.Data.List.Basic
import Mathlib.Order.Lattice

/-!
# Maps with their keys in order

A finite map is kept as the list of its bindings in ascending order of keys, so
that two maps with the same bindings are equal.  This is how a map is written
out whose keys are sorted first.
-/

namespace ChronicleDB.Foundation

open List

variable {K V : Type} [LinearOrder K]

variable {k : K} {v : V} {l : List (K × V)} {P : K → V → Prop}

def Ascending (l : List (K × V)) : Prop := l.Pairwise fun a b => a.1 < b.1

instance (l : List (K × V)) : Decidable (Ascending l) :=
  inferInstanceAs (Decidable (l.Pairwise fun a b => a.1 < b.1))

structure SortedMap (K V : Type) [LinearOrder K] where
  entries : List (K × V)
  ascending : Ascending entries

variable {m : SortedMap K V}

namespace SortedMap

@[ext] theorem ext {m' : SortedMap K V} (h : m.entries = m'.entries) : m = m' := by
  cases m
  cases m'
  cases h
  rfl

instance [DecidableEq V] : DecidableEq (SortedMap K V) := fun m m' =>
  decidable_of_iff (m.entries = m'.entries) ⟨ext, fun h => h ▸ rfl⟩

def empty : SortedMap K V := ⟨[], .nil⟩

def get (m : SortedMap K V) (k : K) : Option V := m.entries.lookup k

def keys (m : SortedMap K V) : List K := m.entries.map (·.1)

theorem keys_pairwise (m : SortedMap K V) : m.keys.Pairwise (· < ·) :=
  pairwise_map.mpr m.ascending

/-! ## Insertion -/

def insertEntry (k : K) (v : V) : List (K × V) → List (K × V)
  | [] => [(k, v)]
  | (k', v') :: l =>
    if k < k' then (k, v) :: (k', v') :: l
    else if k = k' then (k, v) :: l
    else (k', v') :: insertEntry k v l

theorem lt_of_mem_insertEntry {b : K}
    (hk : b < k) (hl : ∀ e ∈ l, b < e.1) : ∀ e ∈ insertEntry k v l, b < e.1 := by
  induction l with
  | nil =>
    intro e he
    obtain rfl := mem_singleton.mp he
    exact hk
  | cons e' l ih =>
    have htail := ih fun e he => hl e (mem_cons_of_mem _ he)
    intro e he
    rw [insertEntry] at he
    split at he
    · rcases mem_cons.mp he with rfl | he
      · exact hk
      · exact hl e he
    · split at he
      · rcases mem_cons.mp he with rfl | he
        · exact hk
        · exact hl e (mem_cons_of_mem _ he)
      · rcases mem_cons.mp he with rfl | he
        · exact hl _ mem_cons_self
        · exact htail e he

theorem ascending_insertEntry (k : K) (v : V) (h : Ascending l) :
    Ascending (insertEntry k v l) := by
  induction l with
  | nil => exact pairwise_singleton _ _
  | cons e l ih =>
    obtain ⟨hhead, htail⟩ := pairwise_cons.mp h
    rw [insertEntry]
    split
    case isTrue hlt =>
      refine pairwise_cons.mpr ⟨fun e' he' => ?_, h⟩
      rcases mem_cons.mp he' with rfl | he'
      · exact hlt
      · exact lt_trans hlt (hhead e' he')
    case isFalse hge =>
      split
      case isTrue heq =>
        exact pairwise_cons.mpr ⟨fun e' he' => heq ▸ hhead e' he', htail⟩
      case isFalse hne =>
        have hlt : e.1 < k := lt_of_le_of_ne (not_lt.mp hge) (Ne.symm hne)
        exact pairwise_cons.mpr ⟨lt_of_mem_insertEntry hlt hhead, ih htail⟩

def insert (m : SortedMap K V) (k : K) (v : V) : SortedMap K V :=
  ⟨insertEntry k v m.entries, ascending_insertEntry k v m.ascending⟩

@[simp] theorem get_empty (k : K) : (empty : SortedMap K V).get k = none := rfl

@[simp] theorem get_insert_self (m : SortedMap K V) (k : K) (v : V) :
    (m.insert k v).get k = some v := by
  change (insertEntry k v m.entries).lookup k = some v
  induction m.entries with
  | nil => simp [insertEntry]
  | cons e l ih =>
    rw [insertEntry]
    split
    · simp
    · split
      · simp
      case isFalse hne =>
        obtain ⟨k', v'⟩ := e
        rw [lookup_cons, beq_false_of_ne hne]
        exact ih

@[simp] theorem get_insert_of_ne (m : SortedMap K V) {k' : K} (v : V) (h : k' ≠ k) :
    (m.insert k v).get k' = m.get k' := by
  change (insertEntry k v m.entries).lookup k' = m.entries.lookup k'
  induction m.entries with
  | nil => simp [insertEntry, lookup_cons, beq_false_of_ne h]
  | cons e l ih =>
    obtain ⟨k'', v''⟩ := e
    rw [insertEntry]
    split
    · simp [lookup_cons, beq_false_of_ne h]
    · split
      case isTrue heq => simp [lookup_cons, ← heq, beq_false_of_ne h]
      · simp [lookup_cons, ih]

theorem get_insert (m : SortedMap K V) (k k' : K) (v : V) :
    (m.insert k v).get k' = if k' = k then some v else m.get k' := by
  split
  case isTrue h => rw [h, get_insert_self]
  case isFalse h => rw [get_insert_of_ne m v h]

/-! ## Membership -/

theorem lookup_eq_some_iff (h : Ascending l) :
    l.lookup k = some v ↔ (k, v) ∈ l := by
  induction l with
  | nil => simp
  | cons e l ih =>
    obtain ⟨hhead, htail⟩ := pairwise_cons.mp h
    obtain ⟨k', v'⟩ := e
    rw [lookup_cons, mem_cons]
    by_cases hk : k = k'
    · subst hk
      have hnot : (k, v) ∉ l := fun hmem => lt_irrefl k (hhead _ hmem)
      simp [hnot, eq_comm]
    · simp [hk, beq_false_of_ne hk, ih htail]

theorem get_eq_some_iff (m : SortedMap K V) :
    m.get k = some v ↔ (k, v) ∈ m.entries :=
  lookup_eq_some_iff m.ascending

theorem mem_keys_iff (m : SortedMap K V) : k ∈ m.keys ↔ (m.get k).isSome := by
  rw [keys, mem_map, Option.isSome_iff_exists]
  constructor
  · rintro ⟨⟨k', v⟩, hmem, rfl⟩
    exact ⟨v, m.get_eq_some_iff.mpr hmem⟩
  · rintro ⟨v, hget⟩
    exact ⟨(k, v), m.get_eq_some_iff.mp hget, rfl⟩

def erase (m : SortedMap K V) (k : K) : SortedMap K V :=
  ⟨m.entries.filter (·.1 ≠ k), m.ascending.sublist List.filter_sublist⟩

theorem get_erase (m : SortedMap K V) (k k' : K) :
    (m.erase k).get k' = if k' = k then none else m.get k' := by
  ext v
  rw [get_eq_some_iff, erase, mem_filter, ← get_eq_some_iff]
  by_cases h : k' = k <;> simp [h]

theorem entries_eq_map_keys (m : SortedMap K V) {f : K → V}
    (h : ∀ k v, m.get k = some v → f k = v) : m.entries = m.keys.map fun k => (k, f k) := by
  rw [keys, map_map]
  refine (map_id _).symm.trans (map_congr_left fun e he => ?_)
  have hget : f e.1 = e.2 := h _ _ (m.get_eq_some_iff.mpr he)
  simp [hget]

theorem keys_insert_congr {W : Type} {m' : SortedMap K W}
    (h : m.keys = m'.keys) (k : K) (v : V) (w : W) :
    (m.insert k v).keys = (m'.insert k w).keys := by
  change (insertEntry k v m.entries).map (·.1) = (insertEntry k w m'.entries).map (·.1)
  replace h : m.entries.map (·.1) = m'.entries.map (·.1) := h
  generalize m.entries = l at h
  generalize m'.entries = l' at h
  induction l generalizing l' with
  | nil =>
    obtain rfl : l' = [] := by simpa using h.symm
    rfl
  | cons e l ih =>
    cases l' with
    | nil => simp at h
    | cons e' l' =>
      simp only [map_cons, cons.injEq] at h
      obtain ⟨hkey, htail⟩ := h
      rw [insertEntry, insertEntry, ← hkey]
      split
      · simp [hkey, htail]
      · split
        · simp [htail]
        · simp [hkey, ih l' htail]

theorem keys_insert_of_mem (h : k ∈ m.keys) (v : V) :
    (m.insert k v).keys = m.keys := by
  change (insertEntry k v m.entries).map (·.1) = m.entries.map (·.1)
  replace h : k ∈ m.entries.map (·.1) := h
  have hasc := m.ascending
  generalize m.entries = l at h hasc
  induction l with
  | nil => simp at h
  | cons e l ih =>
    obtain ⟨hhead, htail⟩ := pairwise_cons.mp hasc
    rw [insertEntry]
    rcases mem_cons.mp h with heq | hmem
    · replace heq : k = e.1 := heq
      rw [if_neg (heq ▸ lt_irrefl _), if_pos heq, heq]
      rfl
    · obtain ⟨e', he', rfl⟩ := mem_map.mp hmem
      have hlt := hhead e' he'
      rw [if_neg (lt_asymm hlt), if_neg (ne_of_gt hlt)]
      simp [ih (mem_map_of_mem he') htail]

theorem get_eq_none_of_forall_lt (h : ∀ e ∈ m.entries, e.1 < k) :
    m.get k = none := by
  cases hget : m.get k with
  | none => rfl
  | some v => exact absurd (h _ (m.get_eq_some_iff.mp hget)) (lt_irrefl k)

def All (P : K → V → Prop) (m : SortedMap K V) : Prop := ∀ k v, m.get k = some v → P k v

theorem all_empty (P : K → V → Prop) : All P empty := fun k v h => by simp at h

theorem All.insert (h : m.All P) (hv : P k v) : (m.insert k v).All P := by
  intro k' v' hget
  rw [get_insert] at hget
  split at hget
  case isTrue heq => exact heq ▸ Option.some.inj hget ▸ hv
  case isFalse => exact h k' v' hget

theorem All.mono {Q : K → V → Prop} (h : m.All P) (hpq : ∀ k v, P k v → Q k v) : m.All Q:= fun k v hget => hpq k v (h k v hget)

theorem All.of_mem (h : m.All P) {e : K × V} (he : e ∈ m.entries) : P e.1 e.2:= h _ _ (m.get_eq_some_iff.mpr he)

def Extends (m m' : SortedMap K V) : Prop := ∀ k v, m.get k = some v → m'.get k = some v

theorem Extends.refl (m : SortedMap K V) : m.Extends m := fun _ _ h => h

theorem Extends.trans {m' m'' : SortedMap K V} (h : m.Extends m') (h' : m'.Extends m'') :
    m.Extends m'' := fun k v hv => h' k v (h k v hv)

theorem extends_insert (h : m.get k = none) (v : V) :
    m.Extends (m.insert k v) := by
  intro k' v' hv'
  have hne : k' ≠ k := by
    rintro rfl
    cases h.symm.trans hv'
  exact (m.get_insert_of_ne v hne).trans hv'

theorem length_insert_of_get_none (h : m.get k = none) (v : V) :
    (m.insert k v).entries.length = m.entries.length + 1 := by
  change (insertEntry k v m.entries).length = _
  replace h : m.entries.lookup k = none := h
  generalize m.entries = l at h
  induction l with
  | nil => rfl
  | cons e l ih =>
    obtain ⟨k', v'⟩ := e
    rw [lookup_cons] at h
    split at h
    · cases h
    case h_2 hne =>
      rw [insertEntry]
      split
      · rfl
      · rw [if_neg (ne_of_beq_false hne), length_cons, ih h]
        rfl

/-! ## Building a map from ascending bindings -/

def insertAll (m : SortedMap K V) (l : List (K × V)) : SortedMap K V :=
  l.foldl (fun m e => m.insert e.1 e.2) m

theorem insertEntry_append {a b : List (K × V)} (ha : ∀ e ∈ a, e.1 < k)
    (hb : ∀ e ∈ b, k < e.1) : insertEntry k v (a ++ b) = a ++ (k, v) :: b := by
  induction a with
  | nil =>
    cases b with
    | nil => rfl
    | cons e b =>
      rw [nil_append, insertEntry, if_pos (hb e mem_cons_self)]
      rfl
  | cons e a ih =>
    have hlt : e.1 < k := ha e mem_cons_self
    rw [cons_append, insertEntry, if_neg (lt_asymm hlt), if_neg (ne_of_gt hlt),
      ih fun e' he' => ha e' (mem_cons_of_mem _ he')]
    rfl

theorem insertEntry_of_forall_lt (h : ∀ e ∈ l, e.1 < k) :
    insertEntry k v l = l ++ [(k, v)] := by
  have := insertEntry_append (v := v) h (b := []) fun e he => absurd he not_mem_nil
  rwa [append_nil] at this

theorem entries_insertAll
    (h : Ascending (m.entries ++ l)) : (m.insertAll l).entries = m.entries ++ l := by
  induction l generalizing m with
  | nil => simp [insertAll]
  | cons e l ih =>
    have hlast : (m.insert e.1 e.2).entries = m.entries ++ [e] :=
      insertEntry_of_forall_lt fun e' he' =>
        (pairwise_append.mp h).2.2 e' he' e mem_cons_self
    have := ih (m := m.insert e.1 e.2) (by rw [hlast]; simpa using h)
    rw [hlast] at this
    simpa [insertAll] using this

theorem insertAll_entries (m : SortedMap K V) : empty.insertAll m.entries = m :=
  ext (entries_insertAll m.ascending)

end SortedMap

end ChronicleDB.Foundation
