import Mathlib.Data.List.Infix

/-!
# Logs of terms

The entries of a log carry the term they were created in, and there is one leader
a term.  `llog t` is the log of the leader of term `t`.  A log is sound if each of
its entries is preceded by what the leader of the entry's term has before it; two
sound logs that have one term at one index agree up to there.
-/

namespace ChronicleDB.Consensus

open List

class Termed (E : Type) where
  term : E → Nat

open Termed (term)

variable {E : Type} [Termed E]

/-- The term of entry `i`, counted from one; 0 where there is no entry. -/
def termAt (ℓ : List E) : Nat → Nat
  | 0 => 0
  | i + 1 => (ℓ[i]?.map term).getD 0

theorem termAt_succ_of_getElem? {ℓ : List E} {i : Nat} {e : E} (h : ℓ[i]? = some e) :
    termAt ℓ (i + 1) = term e := by simp [termAt, h]

theorem termAt_of_initial {ℓ ℓ' : List E} (h : ℓ <+: ℓ') {i : Nat} (hi : i ≤ ℓ.length) :
    termAt ℓ' i = termAt ℓ i := by
  obtain ⟨rest, rfl⟩ := h
  cases i with
  | zero => rfl
  | succ i => simp only [termAt, getElem?_append_left (show i < ℓ.length from hi)]

theorem termAt_take {ℓ : List E} {i n : Nat} (hi : i ≤ n) : termAt (ℓ.take n) i = termAt ℓ i := by
  cases i with
  | zero => rfl
  | succ i => simp only [termAt, getElem?_take, show i < n from hi, if_true]

omit [Termed E] in
theorem getElem?_of_initial {ℓ ℓ' : List E} (h : ℓ <+: ℓ') {i : Nat} {e : E} (he : ℓ[i]? = some e) :
    ℓ'[i]? = some e := by
  obtain ⟨rest, rfl⟩ := h
  rw [getElem?_append_left (List.getElem?_eq_some_iff.mp he).1, he]

/-- Each entry is preceded by what the leader of its term has before it. -/
def Sound (llog : Nat → List E) (ℓ : List E) : Prop :=
  ∀ i e, ℓ[i]? = some e → ℓ.take (i + 1) <+: llog (term e)

namespace Sound

variable {llog llog' : Nat → List E} {ℓ ℓ' : List E}

theorem nil : Sound llog [] := by simp [Sound]

theorem of_initial (h : Sound llog ℓ) (hpre : ℓ' <+: ℓ) : Sound llog ℓ' := by
  intro i e he
  have hlt : i < ℓ'.length := (List.getElem?_eq_some_iff.mp he).1
  have htake : ℓ'.take (i + 1) = ℓ.take (i + 1) := by
    obtain ⟨rest, rfl⟩ := hpre
    rw [List.take_append_of_le_length hlt]
  rw [htake]
  obtain ⟨rest, rfl⟩ := hpre
  exact h i e (by rw [List.getElem?_append_left hlt, he])

theorem grow (h : Sound llog ℓ) (hgrow : ∀ t, llog t <+: llog' t) : Sound llog' ℓ :=
  fun i e he => (h i e he).trans (hgrow _)

theorem snoc (h : Sound llog ℓ) {e : E} (he : llog (term e) = ℓ ++ [e]) : Sound llog (ℓ ++ [e]) := by
  intro i e' he'
  by_cases hi : i < ℓ.length
  · rw [getElem?_append_left hi] at he'
    rw [take_append_of_le_length hi]
    exact h i e' he'
  · have hlast : e' = e := by
      rw [getElem?_append_right (not_lt.mp hi), getElem?_singleton] at he'
      split at he'
      · exact (Option.some.inj he').symm
      · cases he'
    rw [hlast, he]
    exact take_prefix _ _

theorem leader_getElem? (h : Sound llog ℓ) {i : Nat} {e : E} (he : ℓ[i]? = some e) :
    (llog (term e))[i]? = some e :=
  getElem?_of_initial (h i e he) (by rw [getElem?_take, if_pos i.lt_succ_self, he])

theorem take_eq (h : Sound llog ℓ) (h' : Sound llog ℓ') {i : Nat} (hi : i ≤ ℓ.length)
    (hi' : i ≤ ℓ'.length) (hterm : termAt ℓ i = termAt ℓ' i) : ℓ.take i = ℓ'.take i := by
  cases i with
  | zero => simp
  | succ i =>
    obtain ⟨e, he⟩ : ∃ e, ℓ[i]? = some e := ⟨_, getElem?_eq_getElem hi⟩
    obtain ⟨e', he'⟩ : ∃ e', ℓ'[i]? = some e' := ⟨_, getElem?_eq_getElem hi'⟩
    rw [termAt_succ_of_getElem? he, termAt_succ_of_getElem? he'] at hterm
    have hpre := h i e he
    rw [hterm] at hpre
    exact (prefix_of_prefix_length_le hpre (h' i e' he')
      (by simp only [length_take]; omega)).eq_of_length
      (by simp only [length_take]; omega)

theorem take_eq_of_terms (h : Sound llog ℓ) (h' : Sound llog ℓ') {n k : Nat}
    (htake : ℓ.take n = ℓ'.take n) (hk : n + k ≤ ℓ.length) (hk' : n + k ≤ ℓ'.length)
    (hterms : ∀ j, j < k → termAt ℓ (n + j + 1) = termAt ℓ' (n + j + 1)) :
    ℓ.take (n + k) = ℓ'.take (n + k) := by
  cases k with
  | zero => exact htake
  | succ k => exact h.take_eq h' hk hk' (hterms k (by omega))

end Sound

end ChronicleDB.Consensus
