import Mathlib.Data.List.TakeWhile

/-!
# Binary search

`sort.Search` of the Go library: the least index at which a predicate holds,
where it holds at every index after one at which it does.
-/

namespace ChronicleDB.Foundation

open List

def searchFrom (f : Nat → Bool) : Nat → Nat → Nat → Nat
  | 0, i, _ => i
  | fuel + 1, i, j =>
    if i < j then
      if f ((i + j) / 2) then searchFrom f fuel i ((i + j) / 2)
      else searchFrom f fuel ((i + j) / 2 + 1) j
    else i

def search (n : Nat) (f : Nat → Bool) : Nat := searchFrom f n 0 n

/-- The loop keeps the boundary `k` of `f` between its two ends, which come
nearer in every turn. -/
theorem searchFrom_eq {f : Nat → Bool} {n k : Nat} (hbelow : ∀ i < k, f i = false)
    (habove : ∀ i, k ≤ i → i < n → f i = true) {fuel i j : Nat} (hi : i ≤ k) (hk : k ≤ j)
    (hj : j ≤ n) (hfuel : j - i ≤ fuel) : searchFrom f fuel i j = k := by
  induction fuel generalizing i j with
  | zero =>
    rw [searchFrom]
    omega
  | succ fuel ih =>
    rw [searchFrom]
    split
    case isFalse hge => omega
    case isTrue hlt =>
      by_cases hmid : k ≤ (i + j) / 2
      · rw [if_pos (habove _ hmid (by omega))]
        exact ih hi hmid (by omega) (by omega)
      · rw [if_neg (by simp [hbelow _ (Nat.not_le.mp hmid)])]
        exact ih (by omega) hk hj (by omega)

theorem search_eq {f : Nat → Bool} {n k : Nat} (hk : k ≤ n) (hbelow : ∀ i < k, f i = false)
    (habove : ∀ i, k ≤ i → i < n → f i = true) : search n f = k :=
  searchFrom_eq hbelow habove (Nat.zero_le k) hk (Nat.le_refl n) (Nat.sub_le n 0)

section Lists

variable {α : Type} {p : α → Bool} {a b : List α}

/-- The search for the first element with `p` in a list that has all of them at
its end. -/
def searchIn (l : List α) (p : α → Bool) : Nat := search l.length fun i => l[i]?.any p

theorem searchIn_append (ha : ∀ x ∈ a, p x = false) (hb : ∀ x ∈ b, p x = true) :
    searchIn (a ++ b) p = a.length := by
  refine search_eq (by simp) (fun i hi => ?_) (fun i hi hlt => ?_)
  · rw [getElem?_append_left hi, getElem?_eq_getElem hi]
    exact ha _ (getElem_mem hi)
  · have hlt' : i - a.length < b.length := by
      rw [length_append] at hlt
      omega
    rw [getElem?_append_right hi, getElem?_eq_getElem hlt']
    exact hb _ (getElem_mem hlt')

theorem forall_mem_dropWhile_not {l : List α} (h : l.Pairwise fun x y => p x → p y) :
    ∀ x ∈ l.dropWhile (! p ·), p x = true := by
  induction l with
  | nil => intro x hx; cases hx
  | cons y l ih =>
    obtain ⟨hhead, htail⟩ := pairwise_cons.mp h
    cases hy : p y with
    | false =>
      rw [dropWhile_cons_of_pos (by simp [hy])]
      exact ih htail
    | true =>
      rw [dropWhile_cons_of_neg (by simp [hy])]
      intro x hx
      rcases mem_cons.mp hx with rfl | hx
      · exact hy
      · exact hhead x hx hy

theorem searchIn_eq_length_takeWhile {l : List α} (h : l.Pairwise fun x y => p x → p y) :
    searchIn l p = (l.takeWhile (! p ·)).length := by
  have hbelow : ∀ x ∈ l.takeWhile (! p ·), p x = false := fun x hx => by
    simpa using mem_takeWhile_imp hx
  have := searchIn_append hbelow (forall_mem_dropWhile_not h)
  rwa [takeWhile_append_dropWhile] at this

end Lists

end ChronicleDB.Foundation
