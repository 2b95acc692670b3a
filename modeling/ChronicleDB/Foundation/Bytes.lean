import Mathlib.Data.List.Basic
import Mathlib.Order.Defs.LinearOrder
import Mathlib.Tactic.Ring

/-!
# Byte strings, fixed-width big-endian integers, CRC-32

Byte strings are lists of `UInt8`.  Integers of `k` bytes are written most
significant byte first and wrap modulo `256 ^ k`, as the fixed-width writers of
the usual binary packages do.  `checksumIEEE` is the usual CRC-32.  Byte strings
are ordered lexicographically.
-/

namespace ChronicleDB.Foundation

open List

abbrev Bytes := List UInt8

instance : LinearOrder Bytes where
  le_refl := List.le_refl
  le_trans _ _ _ := List.le_trans
  le_antisymm _ _ := List.le_antisymm
  le_total := List.le_total
  lt_iff_le_not_ge _ _ :=
    ⟨fun h => ⟨List.le_of_lt h, fun h' => h' h⟩, fun h => Decidable.not_not.mp h.2⟩
  toDecidableLE := inferInstance
  toDecidableEq := inferInstance
  toDecidableLT := inferInstance
  compare a b := compareOfLessAndEq a b

instance : LawfulBEq Bytes := inferInstance

/-- `k` bytes of `n`, most significant first, modulo `256 ^ k`. -/
def putUint : Nat → Nat → Bytes
  | 0, _ => []
  | k + 1, n => UInt8.ofNat (n / 256 ^ k) :: putUint k n

def getUintFrom (acc : Nat) : Bytes → Nat
  | [] => acc
  | b :: bs => getUintFrom (acc * 256 + b.toNat) bs

def getUint (bs : Bytes) : Nat := getUintFrom 0 bs

@[simp] theorem length_putUint (k n : Nat) : (putUint k n).length = k := by
  induction k with
  | zero => rfl
  | succ k ih => simp [putUint, ih]

private theorem getUintFrom_putUint (k n acc : Nat) :
    getUintFrom acc (putUint k n) = acc * 256 ^ k + n % 256 ^ k := by
  induction k generalizing acc with
  | zero => simp [putUint, getUintFrom, Nat.mod_one]
  | succ k ih =>
    have hdigit : n % 256 ^ (k + 1) =
        256 ^ k * (n / 256 ^ k % 256) + n % 256 ^ k := by
      rw [Nat.pow_succ, Nat.mod_mul, Nat.add_comm]
    rw [putUint, getUintFrom, ih, hdigit, UInt8.toNat_ofNat']
    have h256 : (2 : Nat) ^ 8 = 256 := by norm_num
    rw [h256, Nat.pow_succ]
    ring

theorem getUint_putUint (k n : Nat) :
    getUint (putUint k n) = n % 256 ^ k := by
  simp [getUint, getUintFrom_putUint]

theorem getUint_putUint_of_lt {k n : Nat} (h : n < 256 ^ k) :
    getUint (putUint k n) = n := by
  rw [getUint_putUint, Nat.mod_eq_of_lt h]

private theorem getUintFrom_lt (bs : Bytes) (acc : Nat) :
    getUintFrom acc bs < (acc + 1) * 256 ^ bs.length := by
  induction bs generalizing acc with
  | nil => simp [getUintFrom]
  | cons b bs ih =>
    have hb := b.toNat_lt
    have hstep : (acc * 256 + b.toNat + 1) * 256 ^ bs.length ≤
        (acc + 1) * 256 * 256 ^ bs.length := Nat.mul_le_mul_right _ (by omega)
    calc getUintFrom acc (b :: bs)
        < (acc * 256 + b.toNat + 1) * 256 ^ bs.length := ih _
      _ ≤ (acc + 1) * 256 * 256 ^ bs.length := hstep
      _ = (acc + 1) * 256 ^ (b :: bs).length := by rw [length_cons, Nat.pow_succ]; ring

theorem getUint_lt (bs : Bytes) : getUint bs < 256 ^ bs.length := by
  simpa [getUint] using getUintFrom_lt bs 0

private theorem getUintFrom_eq (bs : Bytes) (acc : Nat) :
    getUintFrom acc bs = acc * 256 ^ bs.length + getUint bs := by
  induction bs generalizing acc with
  | nil => simp [getUint, getUintFrom]
  | cons b bs ih =>
    rw [getUint, getUintFrom, getUintFrom, ih, ih (0 * 256 + b.toNat), length_cons, Nat.pow_succ]
    ring

theorem getUint_cons (b : UInt8) (bs : Bytes) :
    getUint (b :: bs) = b.toNat * 256 ^ bs.length + getUint bs := by
  rw [getUint, getUintFrom, getUintFrom_eq, Nat.zero_mul, Nat.zero_add]

theorem putUint_add (k m n : Nat) (h : m % 256 ^ k = 0) : putUint k (m + n) = putUint k n := by
  induction k with
  | zero => rfl
  | succ k ih =>
    obtain ⟨d, rfl⟩ := Nat.dvd_of_mod_eq_zero h
    have hsplit : 256 ^ (k + 1) * d + n = 256 ^ k * (256 * d) + n := by rw [Nat.pow_succ]; ring
    have hdigit : (256 ^ (k + 1) * d + n) / 256 ^ k = 256 * d + n / 256 ^ k := by
      rw [hsplit, Nat.mul_add_div (Nat.pow_pos (by decide))]
    have hrest : putUint k (256 ^ (k + 1) * d + n) = putUint k n := by
      refine ih ?_
      rw [Nat.pow_succ, Nat.mul_assoc, Nat.mul_mod_right]
    rw [putUint, putUint, hrest, hdigit]
    congr 1
    rw [← UInt8.toNat_inj, UInt8.toNat_ofNat', UInt8.toNat_ofNat']
    norm_num

theorem putUint_getUint (bs : Bytes) : putUint bs.length (getUint bs) = bs := by
  induction bs with
  | nil => rfl
  | cons b bs ih =>
    have hlt := getUint_lt bs
    rw [length_cons, putUint, getUint_cons, putUint_add _ _ _ (Nat.mul_mod_left _ _), ih,
      Nat.mul_comm, Nat.mul_add_div (Nat.pow_pos (by decide)), Nat.div_eq_of_lt hlt, Nat.add_zero,
      UInt8.ofNat_toNat]

theorem take_putUint_append (k n : Nat) (bs : Bytes) :
    (putUint k n ++ bs).take k = putUint k n := by
  rw [take_append_of_le_length (by simp), take_of_length_le (by simp)]

theorem drop_putUint_append (k n : Nat) (bs : Bytes) :
    (putUint k n ++ bs).drop k = bs := by
  rw [drop_append_of_le_length (by simp), drop_of_length_le (by simp), nil_append]

/-! ## CRC-32, the IEEE polynomial in reflected form -/

def crcBit (c : Nat) : Nat :=
  if c % 2 = 1 then c / 2 ^^^ 0xEDB88320 else c / 2

def crcByte (c : Nat) (b : UInt8) : Nat :=
  crcBit (crcBit (crcBit (crcBit (crcBit (crcBit (crcBit (crcBit
    (c ^^^ b.toNat))))))))

def checksumIEEE (bs : Bytes) : Nat :=
  bs.foldl crcByte 0xFFFFFFFF ^^^ 0xFFFFFFFF

private theorem crcBit_lt {c : Nat} (h : c < 2 ^ 32) : crcBit c < 2 ^ 32 := by
  unfold crcBit
  split
  · exact Nat.xor_lt_two_pow (by omega) (by decide)
  · omega

private theorem crcByte_lt {c : Nat} (b : UInt8) (h : c < 2 ^ 32) :
    crcByte c b < 2 ^ 32 := by
  have hb : b.toNat < 2 ^ 32 := lt_trans b.toNat_lt (by decide)
  have hx : c ^^^ b.toNat < 2 ^ 32 := Nat.xor_lt_two_pow h hb
  exact crcBit_lt (crcBit_lt (crcBit_lt (crcBit_lt (crcBit_lt (crcBit_lt
    (crcBit_lt (crcBit_lt hx)))))))

theorem checksumIEEE_lt (bs : Bytes) : checksumIEEE bs < 2 ^ 32 := by
  have hfold : ∀ (bs : Bytes) (c : Nat), c < 2 ^ 32 →
      bs.foldl crcByte c < 2 ^ 32 := by
    intro bs
    induction bs with
    | nil => exact fun c h => h
    | cons b bs ih => exact fun c h => ih _ (crcByte_lt b h)
  exact Nat.xor_lt_two_pow (hfold bs _ (by decide)) (by decide)

end ChronicleDB.Foundation
