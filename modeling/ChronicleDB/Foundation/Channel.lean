import Mathlib.Data.List.Basic

/-!
# Bounded channels and the callers that use them

A buffered channel whose elements carry nothing is the number of its elements.  The
callers of a system are listed with the point each of them has reached; what one
caller does changes one entry of the list.
-/

namespace ChronicleDB.Foundation

structure Channel where
  cap : Nat
  len : Nat
  len_le : len ≤ cap
  deriving DecidableEq

namespace Channel

def empty (cap : Nat) : Channel := ⟨cap, 0, Nat.zero_le cap⟩

def send? (c : Channel) : Option Channel :=
  if h : c.len < c.cap then some ⟨c.cap, c.len + 1, h⟩ else none

def receive? (c : Channel) : Option Channel :=
  if 0 < c.len then some ⟨c.cap, c.len - 1, Nat.le_trans (Nat.sub_le _ _) c.len_le⟩ else none

theorem send?_eq_some {c c' : Channel} (h : c.send? = some c') :
    c'.cap = c.cap ∧ c'.len = c.len + 1 := by
  unfold send? at h
  split at h
  · cases h
    exact ⟨rfl, rfl⟩
  · cases h

theorem receive?_eq_some {c c' : Channel} (h : c.receive? = some c') :
    c'.cap = c.cap ∧ c'.len + 1 = c.len := by
  unfold receive? at h
  split at h
  · cases h
    exact ⟨rfl, Nat.sub_add_cancel ‹_›⟩
  · cases h

theorem exists_receive? {c : Channel} (h : 0 < c.len) : ∃ c', c.receive? = some c' :=
  ⟨_, if_pos h⟩

end Channel

/-! ## Counting callers -/

section Callers

variable {α : Type} {p : α → Bool} {as : List α} {i : Nat} {a a' : α}

theorem countP_set_add (h : as[i]? = some a) :
    (as.set i a').countP p + (p a).toNat = as.countP p + (p a').toNat := by
  induction as generalizing i with
  | nil => simp at h
  | cons b as ih =>
    cases i with
    | zero =>
      obtain rfl : b = a := by simpa using h
      simp only [List.set_cons_zero, List.countP_cons]
      cases p b <;> cases p a' <;> simp
    | succ i =>
      have := ih (by simpa using h)
      simp only [List.set_cons_succ, List.countP_cons]
      omega

theorem countP_concat : (as ++ [a]).countP p = as.countP p + (p a).toNat := by
  rw [List.countP_append]
  cases h : p a <;> simp [h]

theorem countP_pos_of_getElem? (h : as[i]? = some a) (ha : p a = true) : 0 < as.countP p :=
  List.countP_pos_iff.mpr ⟨a, List.mem_of_getElem? h, ha⟩

end Callers

end ChronicleDB.Foundation
