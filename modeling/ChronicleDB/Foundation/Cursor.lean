import ChronicleDB.Foundation.Decoder
import ChronicleDB.Foundation.Slices

/-!
# Decoders at an offset

A decoder as it is written by hand: it keeps an offset into a slice of bytes, every
access to the slice may be out of range, and some steps allocate.  An error that it
returns ends it like a panic of its own.  `Refines` compares it with a decoder that
takes what it reads off the front of a byte string and cannot go wrong.
-/

namespace ChronicleDB.Foundation

open List Cursor Decoder

/-- What a decoder has done: the bytes it has copied, the capacities of the slices it has
made, and its result with the offset behind it. -/
structure Outcome (ε α : Type) where
  copied : Nat
  made : List Nat
  result : Checked ε (α × Int)

def Cursor (ε α : Type) := Bytes → Int → Outcome ε α

namespace Cursor

variable {ε α β : Type}

protected def pure (a : α) : Cursor ε α := fun _ off => ⟨0, [], .ok (a, off)⟩

protected def bind (c : Cursor ε α) (f : α → Cursor ε β) : Cursor ε β := fun b off =>
  match (c b off).result with
  | .error e => ⟨(c b off).copied, (c b off).made, .error e⟩
  | .ok (a, off') =>
    ⟨(c b off).copied + (f a b off').copied, (c b off).made ++ (f a b off').made,
      (f a b off').result⟩

instance : Monad (Cursor ε) where
  pure := Cursor.pure
  bind := Cursor.bind

theorem bind_assoc {γ : Type} (c : Cursor ε α) (f : α → Cursor ε β) (g : β → Cursor ε γ) :
    c >>= f >>= g = c >>= fun a => f a >>= g := by
  funext b off
  simp only [Bind.bind, Cursor.bind]
  cases (c b off).result with
  | error e => rfl
  | ok r =>
    dsimp only
    cases (f r.1 b r.2).result with
    | error e => rfl
    | ok r' => simp only [Nat.add_assoc, append_assoc]

/-! ## Steps -/

def fail (e : ε) : Cursor ε α := fun _ _ => ⟨0, [], .error (.panic e)⟩

def remaining : Cursor ε Int := fun b off => ⟨0, [], .ok (b.length - off, off)⟩

def byte : Cursor ε UInt8 := fun b off =>
  ⟨0, [], do
    let x ← Checked.element b off
    .ok (x, off + 1)⟩

/-- The `k` bytes of an integer at the front of `b[off:]`, and the offset moves on. -/
def uint (k : Nat) : Cursor ε Nat := fun b off =>
  ⟨0, [], do
    let rest ← Checked.cut b off b.length
    let digits ← Checked.cut rest 0 k
    .ok (getUint digits, off + k)⟩

def slice (n : Nat) : Cursor ε Bytes := fun b off =>
  ⟨0, [], do
    let s ← Checked.cut b off (off + n)
    .ok (s, off + n)⟩

def copy (n : Nat) : Cursor ε Bytes := fun b off => ⟨n, [], (slice n b off).result⟩

def make (n : Nat) : Cursor ε Unit := fun _ off => ⟨0, [n], .ok ((), off)⟩

def need (n : Nat) (e : Nat → ε) : Cursor ε Unit := do
  let left ← remaining
  if left < n then fail (e left.toNat) else pure ()

def check (p : Prop) [Decidable p] (e : ε) : Cursor ε Unit := if p then pure () else fail e

/-- The check of a declared number of items of at least `size` bytes each; the number of
items that fit is computed in 32 bits. -/
def checkCount (count size : Nat) (e : Nat → Nat → ε) : Cursor ε Unit := do
  let left ← remaining
  if count > left.toNat / size % 2 ^ 32 then fail (e count left.toNat) else pure ()

def times (item : Nat → Cursor ε α) : Nat → Nat → Cursor ε (List α)
  | 0, _ => pure []
  | n + 1, i => do
      let a ← item i
      let as ← times item n (i + 1)
      pure (a :: as)

def finished (e : Nat → ε) : Cursor ε Unit := do
  let left ← remaining
  if left ≠ 0 then fail (e left.toNat) else pure ()

/-! ## Refinement -/

/-- Where at least `m` bytes are left, `c` misuses nothing and does what `d` does with what is
left; then at least `left a` bytes are left.  It copies no more bytes than it reads, and makes
no slice for more elements than there are bytes. -/
def Refines (m : Nat) (c : Cursor ε α) (d : Decoder ε α) (left : α → Nat) : Prop :=
  ∀ (b : Bytes) (off : Nat), off + m ≤ b.length →
    (∀ n ∈ (c b off).made, n ≤ b.length) ∧
    match d (b.drop off) with
    | .ok (a, rest) => ∃ off' : Nat, (c b off).result = .ok (a, (off' : Int)) ∧ off ≤ off' ∧
        off' + left a ≤ b.length ∧ rest = b.drop off' ∧ (c b off).copied ≤ off' - off
    | .error e => (c b off).result = .error (.panic e) ∧ (c b off).copied ≤ b.length - off

namespace Refines

variable {m m' : Nat} {c : Cursor ε α} {d : Decoder ε α} {left left' : α → Nat}

theorem pure (a : α) : Refines m (Pure.pure a : Cursor ε α) (Pure.pure a) fun _ => m :=
  fun _ off hoff => ⟨nofun, off, rfl, le_rfl, hoff, rfl, Nat.zero_le _⟩

theorem fail (e : ε) (left : α → Nat) :
    Refines m (fail e : Cursor ε α) (fun _ => .error e) left :=
  fun _ _ _ => ⟨nofun, rfl, Nat.zero_le _⟩

theorem bind {f : α → Cursor ε β} {g : α → Decoder ε β} {left' : β → Nat}
    (h : Refines m c d left) (hf : ∀ a, Refines (left a) (f a) (g a) left') :
    Refines m (c >>= f) (d >>= g) left' := by
  intro b off hoff
  obtain ⟨hmade, hrun⟩ := h b off hoff
  have hbind : (c >>= f) b off = Cursor.bind c f b off := rfl
  rw [hbind, Cursor.bind]
  cases hd : d (b.drop off) with
  | error e =>
    rw [hd] at hrun
    rw [hrun.1, bind_error hd]
    exact ⟨hmade, rfl, hrun.2⟩
  | ok r =>
    obtain ⟨a, rest⟩ := r
    rw [hd] at hrun
    obtain ⟨off', hresult, hle, hbound, rfl, hcopied⟩ := hrun
    obtain ⟨hmade', hrun'⟩ := hf a b off' hbound
    rw [hresult, bind_ok hd]
    dsimp only
    refine ⟨fun n hn => (mem_append.mp hn).elim (hmade n) (hmade' n), ?_⟩
    cases hg : g a (b.drop off') with
    | error e =>
      rw [hg] at hrun'
      exact ⟨hrun'.1, by have := hrun'.2; omega⟩
    | ok r =>
      rw [hg] at hrun'
      obtain ⟨off'', hresult', hle', hbound', hrest, hcopied'⟩ := hrun'
      exact ⟨off'', hresult', by omega, hbound', hrest, by omega⟩

theorem of_reads {n : Nat} (h : ∀ (b : Bytes) (off : Nat), off + n ≤ b.length →
      (c b off).made = [] ∧ (c b off).copied ≤ n ∧
        ∃ a, d (b.drop off) = .ok (a, b.drop (off + n)) ∧
          (c b off).result = .ok (a, ((off + n : Nat) : Int))) :
    Refines (n + m) c d fun _ => m := by
  intro b off hoff
  obtain ⟨hmade, hcopied, a, hd, hresult⟩ := h b off (by omega)
  rw [hmade, hd]
  exact ⟨nofun, off + n, hresult, by omega, by dsimp only; omega, rfl, by omega⟩

theorem byte : Refines (1 + m) (Cursor.byte : Cursor ε UInt8) Decoder.byte fun _ => m := by
  refine of_reads fun b off hoff => ⟨rfl, Nat.zero_le _, b[off], ?_, ?_⟩
  · rw [drop_eq_getElem_cons (by omega), Decoder.byte_cons]
  · have hget : b[(off : Int).toNat]? = some b[off] := by simp
    rw [Cursor.byte, Checked.element_of_getElem? (by omega) hget]
    rfl

theorem uint (k : Nat) :
    Refines (k + m) (Cursor.uint k : Cursor ε Nat) (Decoder.uint k) fun _ => m := by
  refine of_reads fun b off hoff => ⟨rfl, Nat.zero_le _, _, by rw [Decoder.uint, drop_drop], ?_⟩
  rw [Cursor.uint, Checked.cut_of_le (by omega) (by omega) le_rfl, Checked.ok_bind,
    Checked.cut_of_le le_rfl (by omega) (by simp; omega), Checked.ok_bind]
  simp

theorem result_slice {b : Bytes} {off n : Nat} (h : off + n ≤ b.length) :
    (slice n b off : Outcome ε Bytes).result =
      .ok ((b.drop off).take n, ((off + n : Nat) : Int)) := by
  have hnat : ((off : Int) + (n : Int)).toNat = off + n := by omega
  rw [slice, Checked.cut_of_le (by omega) (by omega) (by omega), Checked.ok_bind, hnat,
    Int.toNat_natCast, drop_take, Nat.add_sub_cancel_left]
  rfl

theorem slice (n : Nat) :
    Refines (n + m) (slice n : Cursor ε Bytes) (bytes n) fun _ => m :=
  of_reads fun _ _ hoff => ⟨rfl, Nat.zero_le _, _, by rw [bytes, drop_drop],
    result_slice hoff⟩

theorem copy (n : Nat) :
    Refines (n + m) (copy n : Cursor ε Bytes) (bytes n) fun _ => m :=
  of_reads fun _ _ hoff => ⟨rfl, le_rfl, _, by rw [bytes, drop_drop], result_slice hoff⟩

theorem need (n : Nat) (e : Nat → ε) :
    Refines m (Cursor.need n e) (Decoder.need n e) fun _ => n := by
  intro b off hoff
  have hleft : (b.length : Int) - off = ((b.length - off : Nat) : Int) := by omega
  simp only [Cursor.need, Decoder.need, Cursor.remaining, Bind.bind, Cursor.bind, length_drop,
    hleft, Int.toNat_natCast, Nat.cast_lt]
  by_cases h : b.length - off < n
  · simp only [if_pos h, Cursor.fail]
    exact ⟨by simp, trivial, Nat.zero_le _⟩
  · simp only [if_neg h, Pure.pure, Cursor.pure]
    exact ⟨by simp, off, rfl, le_rfl, by omega, rfl, Nat.zero_le _⟩

theorem check {p : Prop} [Decidable p] (e : ε) :
    Refines m (Cursor.check p e) (Decoder.check p e) fun _ => m := by
  by_cases h : p
  · rw [Cursor.check, if_pos h]
    intro b off hoff
    rw [Decoder.check_ok h]
    exact pure () b off hoff
  · rw [Cursor.check, if_neg h]
    intro b off hoff
    rw [Decoder.check, if_neg h]
    exact fail e (fun _ => m) b off hoff

theorem finished (e : Nat → ε) :
    Refines m (Cursor.finished e) (Decoder.finished e) fun _ => m := by
  intro b off hoff
  have hleft : (b.length : Int) - off = ((b.length - off : Nat) : Int) := by omega
  simp only [Cursor.finished, Decoder.finished, Cursor.remaining, Bind.bind, Cursor.bind,
    length_drop, hleft, Int.toNat_natCast, ne_eq, Int.natCast_eq_zero]
  by_cases h : b.length - off = 0
  · simp only [h, not_true, if_false, Pure.pure, Cursor.pure]
    exact ⟨nofun, off, rfl, le_rfl, hoff, rfl, Nat.zero_le _⟩
  · simp only [h, not_false_eq_true, if_true, Cursor.fail]
    exact ⟨nofun, trivial, Nat.zero_le _⟩

theorem checkCount_make (count size : Nat) (e : Nat → Nat → ε) (h : Refines m c d left) :
    Refines m (do Cursor.checkCount count size e; Cursor.make count; c)
      (do Decoder.checkCount count size e; d) left := by
  have hmake : Refines m (do Cursor.checkCount count size e; Cursor.make count)
      (Decoder.checkCount count size e) fun _ => m := by
    intro b off hoff
    have hleft : (b.length : Int) - off = ((b.length - off : Nat) : Int) := by omega
    simp only [Cursor.checkCount, Decoder.checkCount, Cursor.remaining, Bind.bind, Cursor.bind,
      length_drop, hleft, Int.toNat_natCast]
    by_cases h : count > (b.length - off) / size % 2 ^ 32
    · simp only [if_pos h, Cursor.fail]
      exact ⟨nofun, trivial, Nat.zero_le _⟩
    · simp only [if_neg h, Pure.pure, Cursor.pure, Cursor.make]
      refine ⟨fun n hn => ?_, off, rfl, le_rfl, hoff, rfl, Nat.zero_le _⟩
      obtain rfl : n = count := by simpa using hn
      have hmod := Nat.mod_le ((b.length - off) / size) (2 ^ 32)
      have hdiv := Nat.div_le_self (b.length - off) size
      omega
  rw [← bind_assoc]
  exact hmake.bind fun _ => h

theorem times {item : Nat → Cursor ε α} {ditem : Nat → Decoder ε α}
    (h : ∀ i, Refines 0 (item i) (ditem i) fun _ => 0) (n i : Nat) :
    Refines 0 (times item n i) (Decoder.times ditem n i) fun _ => 0 := by
  induction n generalizing i with
  | zero => exact pure []
  | succ n ih => exact (h i).bind fun a => (ih (i + 1)).bind fun as => pure (a :: as)

theorem result (h : Refines 0 c d left) (b : Bytes) :
    Checked.Refines (fun p q => p.1 = q.1) (c b 0).result (d b) := by
  obtain ⟨-, hrun⟩ := h b 0 (Nat.zero_le _)
  rw [drop_zero] at hrun
  cases hd : d b with
  | error e =>
    rw [hd] at hrun
    exact hrun.1
  | ok r =>
    rw [hd] at hrun
    obtain ⟨off', hresult, -⟩ := hrun
    exact ⟨_, hresult, rfl⟩

theorem allocates (h : Refines 0 c d left) (b : Bytes) :
    (∀ n ∈ (c b 0).made, n ≤ b.length) ∧ (c b 0).copied ≤ b.length := by
  obtain ⟨hmade, hrun⟩ := h b 0 (Nat.zero_le _)
  refine ⟨hmade, ?_⟩
  cases hd : d (b.drop 0) with
  | error e =>
    rw [hd] at hrun
    exact hrun.2
  | ok r =>
    rw [hd] at hrun
    obtain ⟨off', -, -, hbound, -, hcopied⟩ := hrun
    exact hcopied.trans (by omega)

end Refines

end Cursor

end ChronicleDB.Foundation
