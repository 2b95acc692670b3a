import ChronicleDB.Foundation.Bytes
import Mathlib.Data.List.Induction
import Mathlib.Data.Nat.Digits.Defs

/-!
# Decimal numerals

A number in decimal as bytes, and what a run of digits stands for.
-/

namespace ChronicleDB.Foundation

open List

def zeroDigit : UInt8 := 48

def IsDecimal (c : UInt8) : Prop := 48 ≤ c.toNat ∧ c.toNat ≤ 57

def numeral (n : Nat) : Bytes := (Nat.toDigits 10 n).map fun c => UInt8.ofNat c.toNat

def numeralValue (digits : Bytes) : Nat := digits.foldl (fun n c => 10 * n + (c.toNat - 48)) 0

variable {n d : Nat}

theorem ofNat_digitChar (h : d < 10) :
    UInt8.ofNat (Nat.digitChar d).toNat = UInt8.ofNat (48 + d) := by
  have hall : ∀ d : Fin 10,
      UInt8.ofNat (Nat.digitChar d).toNat = UInt8.ofNat (48 + d) := by decide
  exact hall ⟨d, h⟩

theorem numeral_of_lt (h : n < 10) : numeral n = [UInt8.ofNat (48 + n)] := by
  rw [numeral, Nat.toDigits_of_lt_base h, map_singleton, ofNat_digitChar h]

theorem numeral_of_le (h : 10 ≤ n) :
    numeral n = numeral (n / 10) ++ [UInt8.ofNat (48 + n % 10)] := by
  rw [numeral, Nat.toDigits_of_base_le (by decide) h, map_append, map_singleton,
    ofNat_digitChar (Nat.mod_lt n (by decide)), numeral]

theorem toNat_digit (h : d < 10) : (UInt8.ofNat (48 + d)).toNat = 48 + d := by
  rw [UInt8.toNat_ofNat', Nat.mod_eq_of_lt (by omega)]

theorem isDecimal_digit (h : d < 10) : IsDecimal (UInt8.ofNat (48 + d)) := by
  rw [IsDecimal, toNat_digit h]
  omega

theorem numeral_ne_nil (n : Nat) : numeral n ≠ [] := by
  by_cases h : n < 10
  · simp [numeral_of_lt h]
  · simp [numeral_of_le (Nat.not_lt.mp h)]

theorem isDecimal_of_mem_numeral : ∀ c ∈ numeral n, IsDecimal c := by
  induction n using Nat.strongRecOn with
  | ind n ih =>
    intro c hc
    by_cases h : n < 10
    · rw [numeral_of_lt h, mem_singleton] at hc
      exact hc ▸ isDecimal_digit h
    · rw [numeral_of_le (Nat.not_lt.mp h), mem_append, mem_singleton] at hc
      rcases hc with hc | rfl
      · exact ih _ (by omega) c hc
      · exact isDecimal_digit (Nat.mod_lt n (by decide))

theorem numeralValue_append_singleton (digits : Bytes) (d : UInt8) :
    numeralValue (digits ++ [d]) = 10 * numeralValue digits + (d.toNat - 48) := by
  simp [numeralValue]

theorem numeralValue_replicate (z : Nat) : numeralValue (replicate z zeroDigit) = 0 := by
  induction z with
  | zero => rfl
  | succ z ih => rw [replicate_succ', numeralValue_append_singleton, ih]; rfl

theorem numeralValue_zeros_numeral (z n : Nat) :
    numeralValue (replicate z zeroDigit ++ numeral n) = n := by
  induction n using Nat.strongRecOn with
  | ind n ih =>
    by_cases h : n < 10
    · rw [numeral_of_lt h, numeralValue_append_singleton, numeralValue_replicate, toNat_digit h]
      omega
    · rw [numeral_of_le (Nat.not_lt.mp h), ← append_assoc, numeralValue_append_singleton,
        ih _ (by omega), toNat_digit (Nat.mod_lt n (by decide))]
      omega

theorem eq_zeros_numeral {digits : Bytes} (hne : digits ≠ []) (h : ∀ c ∈ digits, IsDecimal c) :
    ∃ z, digits = replicate z zeroDigit ++ numeral (numeralValue digits) := by
  induction digits using reverseRecOn with
  | nil => exact absurd rfl hne
  | append_singleton digits d ih =>
    obtain ⟨hlow, hhigh⟩ := h d (by simp)
    have hd : d = UInt8.ofNat (48 + (d.toNat - 48)) := by
      rw [Nat.add_sub_cancel' hlow, UInt8.ofNat_toNat]
    rw [numeralValue_append_singleton]
    by_cases hnil : digits = []
    · subst hnil
      refine ⟨0, ?_⟩
      have hvalue : 10 * numeralValue [] + (d.toNat - 48) = d.toNat - 48 := by
        simp [numeralValue]
      rw [hvalue, numeral_of_lt (by omega), ← hd]
      rfl
    · obtain ⟨z, hz⟩ := ih hnil fun c hc => h c (mem_append_left _ hc)
      -- a value of zero means that the digits before the last are zeros
      by_cases hzero : numeralValue digits = 0
      · refine ⟨z + 1, ?_⟩
        have hdigits : digits = replicate (z + 1) zeroDigit := by
          rw [hz, hzero, replicate_succ']
          rfl
        rw [hzero, Nat.mul_zero, Nat.zero_add, numeral_of_lt (by omega), ← hd, ← hdigits]
      · refine ⟨z, ?_⟩
        have hdiv : (10 * numeralValue digits + (d.toNat - 48)) / 10 = numeralValue digits := by
          omega
        have hmod : (10 * numeralValue digits + (d.toNat - 48)) % 10 = d.toNat - 48 := by omega
        rw [numeral_of_le (by omega), hdiv, hmod, ← hd, ← append_assoc, ← hz]

theorem length_numeral_le {k : Nat} (h : n < 10 ^ k) (hk : 0 < k) : (numeral n).length ≤ k := by
  rw [numeral, length_map, Nat.length_toDigits_le_iff (by decide) hk]
  exact h

end ChronicleDB.Foundation
