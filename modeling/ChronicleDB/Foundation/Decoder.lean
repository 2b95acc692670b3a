import ChronicleDB.Foundation.Bytes

/-!
# Decoders over a byte string

A decoder takes what it reads off the front of a byte string and returns the
rest, or stops with an error.  The small readers leave the check that enough
bytes remain to `need`, as a hand-written decoder does once for several fields.
-/

namespace ChronicleDB.Foundation

open List

abbrev Decoder (ε α : Type) := StateT Bytes (Except ε) α

namespace Decoder

variable {ε α β : Type}

/-- Stops with `e remaining` if fewer than `n` bytes remain. -/
def need (n : Nat) (e : Nat → ε) : Decoder ε Unit := fun b =>
  if b.length < n then .error (e b.length) else .ok ((), b)

def check (p : Prop) [Decidable p] (e : ε) : Decoder ε Unit := fun b =>
  if p then .ok ((), b) else .error e

def uint (k : Nat) : Decoder ε Nat := fun b => .ok (getUint (b.take k), b.drop k)

def byte : Decoder ε UInt8 := fun b => .ok (b.headD 0, b.tail)

def bytes (n : Nat) : Decoder ε Bytes := fun b => .ok (b.take n, b.drop n)

/-- A byte string after its length in four bytes, which have been checked for;
`e declared remaining` if the length exceeds what remains. -/
def string (e : Nat → Nat → ε) : Decoder ε Bytes := do
  let len ← uint 4
  need len (e len)
  bytes len

/-- The bound on a declared number of items of at least `size` bytes each. The
number of items that fit is computed in 32 bits. -/
def checkCount (count size : Nat) (e : Nat → Nat → ε) : Decoder ε Unit := fun b =>
  if count > b.length / size % 2 ^ 32 then .error (e count b.length) else .ok ((), b)

/-- `n` items in turn; an item is told its number, counted from `i`. -/
def times (item : Nat → Decoder ε α) : Nat → Nat → Decoder ε (List α)
  | 0, _ => pure []
  | n + 1, i => do
      let a ← item i
      let as ← times item n (i + 1)
      pure (a :: as)

def finished (e : Nat → ε) : Decoder ε Unit := fun b =>
  if b.length ≠ 0 then .error (e b.length) else .ok ((), b)

/-! ## Running a decoder -/

@[simp] theorem pure_apply (a : α) (b : Bytes) : (pure a : Decoder ε α) b = .ok (a, b) := rfl

theorem bind_ok {d : Decoder ε α} {f : α → Decoder ε β} {b b' : Bytes} {a : α}
    (h : d b = .ok (a, b')) : (d >>= f) b = f a b' := by
  change (d b >>= fun p => f p.1 p.2) = _
  rw [h]
  rfl

theorem bind_error {d : Decoder ε α} {f : α → Decoder ε β} {b : Bytes} {e : ε}
    (h : d b = .error e) : (d >>= f) b = .error e := by
  change (d b >>= fun p => f p.1 p.2) = _
  rw [h]
  rfl

theorem need_ok {n : Nat} {e : Nat → ε} {b : Bytes} (h : n ≤ b.length) :
    need n e b = .ok ((), b) := if_neg (Nat.not_lt.mpr h)

theorem check_ok {p : Prop} [Decidable p] {e : ε} {b : Bytes} (h : p) :
    check p e b = .ok ((), b) := if_pos h

theorem checkCount_ok {count size : Nat} {e : Nat → Nat → ε} {b : Bytes}
    (h : count ≤ b.length / size % 2 ^ 32) : checkCount count size e b = .ok ((), b) :=
  if_neg (Nat.not_lt.mpr h)

theorem finished_nil (e : Nat → ε) : finished e [] = .ok ((), []) := rfl

theorem uint_put_mod (k n : Nat) (rest : Bytes) :
    (uint k : Decoder ε Nat) (putUint k n ++ rest) = .ok (n % 256 ^ k, rest) := by
  rw [uint, take_putUint_append, drop_putUint_append, getUint_putUint]

theorem uint_put {k n : Nat} (h : n < 256 ^ k) (rest : Bytes) :
    (uint k : Decoder ε Nat) (putUint k n ++ rest) = .ok (n, rest) := by
  rw [uint_put_mod, Nat.mod_eq_of_lt h]

theorem byte_cons (x : UInt8) (rest : Bytes) :
    (byte : Decoder ε UInt8) (x :: rest) = .ok (x, rest) := rfl

theorem bytes_append {n : Nat} {s : Bytes} (h : s.length = n) (rest : Bytes) :
    (bytes n : Decoder ε Bytes) (s ++ rest) = .ok (s, rest) := by
  rw [bytes, take_left' h, drop_left' h]

theorem string_put {s : Bytes} (h : s.length < 2 ^ 32) (e : Nat → Nat → ε) (rest : Bytes) :
    string e (putUint 4 s.length ++ (s ++ rest)) = .ok (s, rest) := by
  rw [string, bind_ok (uint_put (show s.length < 256 ^ 4 from h) _), bind_ok (need_ok (by simp)),
    bytes_append rfl]

/-- A declared number of items that fits passes its bound as long as fewer than
`size * 2 ^ 32` bytes remain. -/
theorem count_le_of_fits {count size n : Nat} (hsize : 0 < size) (hfits : size * count ≤ n)
    (hlt : n < size * 2 ^ 32) : count ≤ n / size % 2 ^ 32 := by
  have hdiv : n / size < 2 ^ 32 := Nat.div_lt_of_lt_mul hlt
  rw [Nat.mod_eq_of_lt hdiv, Nat.le_div_iff_mul_le hsize, Nat.mul_comm]
  exact hfits

/-! ## What a decoder has read -/

section Inversion

variable {b b' : Bytes}

theorem bind_eq_ok {d : Decoder ε α} {f : α → Decoder ε β} {c : β}
    (h : (d >>= f) b = .ok (c, b')) :
    ∃ a mid, d b = .ok (a, mid) ∧ f a mid = .ok (c, b') := by
  cases hd : d b with
  | error e => rw [bind_error hd] at h; cases h
  | ok r => exact ⟨r.1, r.2, rfl, by rwa [bind_ok hd] at h⟩

theorem pure_eq_ok {a c : α} (h : (pure a : Decoder ε α) b = .ok (c, b')) : a = c ∧ b = b' :=
  Prod.mk.inj (Except.ok.inj h)

theorem need_eq_ok {n : Nat} {e : Nat → ε} {u : Unit} (h : need n e b = .ok (u, b')) :
    n ≤ b.length ∧ b = b' := by
  by_cases hlt : b.length < n
  · rw [need, if_pos hlt] at h
    cases h
  · rw [need, if_neg hlt] at h
    cases h
    exact ⟨Nat.not_lt.mp hlt, rfl⟩

theorem check_eq_ok {p : Prop} [Decidable p] {e : ε} {u : Unit}
    (h : check p e b = .ok (u, b')) : p ∧ b = b' := by
  by_cases hp : p
  · rw [check, if_pos hp] at h
    cases h
    exact ⟨hp, rfl⟩
  · rw [check, if_neg hp] at h
    cases h

theorem finished_eq_ok {e : Nat → ε} {u : Unit} (h : finished e b = .ok (u, b')) :
    b = [] ∧ b' = [] := by
  cases b with
  | nil => cases h; exact ⟨rfl, rfl⟩
  | cons x xs => cases h

theorem uint_eq_ok {k n : Nat} (hlen : k ≤ b.length)
    (h : (uint k : Decoder ε Nat) b = .ok (n, b')) : b = putUint k n ++ b' ∧ n < 256 ^ k := by
  cases h
  have hk : (b.take k).length = k := by simp [hlen]
  have hput := putUint_getUint (b.take k)
  have hlt := getUint_lt (b.take k)
  rw [hk] at hput hlt
  exact ⟨by rw [hput, take_append_drop], hlt⟩

theorem bytes_eq_ok {n : Nat} {s : Bytes} (hlen : n ≤ b.length)
    (h : (bytes n : Decoder ε Bytes) b = .ok (s, b')) : b = s ++ b' ∧ s.length = n := by
  cases h
  exact ⟨(take_append_drop n b).symm, by simp [hlen]⟩

theorem byte_eq_ok {x : UInt8} (hlen : 1 ≤ b.length)
    (h : (byte : Decoder ε UInt8) b = .ok (x, b')) : b = x :: b' := by
  cases b with
  | nil => simp at hlen
  | cons y ys => cases h; rfl

theorem string_eq_ok {e : Nat → Nat → ε} {s : Bytes} (hlen : 4 ≤ b.length)
    (h : string e b = .ok (s, b')) :
    b = putUint 4 s.length ++ (s ++ b') ∧ s.length < 2 ^ 32 := by
  obtain ⟨len, mid, huint, hrest⟩ := bind_eq_ok h
  obtain ⟨hb, hlt⟩ := uint_eq_ok hlen huint
  obtain ⟨_, _, hneed, hbytes⟩ := bind_eq_ok hrest
  obtain ⟨hle, rfl⟩ := need_eq_ok hneed
  obtain ⟨rfl, rfl⟩ := bytes_eq_ok hle hbytes
  exact ⟨hb, hlt⟩

theorem times_eq_ok {item : Nat → Decoder ε α} {put : α → Bytes} {P : α → Prop}
    (hitem : ∀ i b x b', item i b = .ok (x, b') → b = put x ++ b' ∧ P x) {n i : Nat} {xs : List α}
    (h : times item n i b = .ok (xs, b')) :
    b = xs.flatMap put ++ b' ∧ xs.length = n ∧ ∀ x ∈ xs, P x := by
  induction n generalizing i b xs with
  | zero =>
    obtain ⟨rfl, rfl⟩ := pure_eq_ok h
    exact ⟨rfl, rfl, nofun⟩
  | succ n ih =>
    obtain ⟨x, mid, hx, htail⟩ := bind_eq_ok h
    obtain ⟨rest, mid', hrest, hcons⟩ := bind_eq_ok htail
    obtain ⟨rfl, rfl⟩ := pure_eq_ok hcons
    obtain ⟨hb, hP⟩ := hitem i b x mid hx
    obtain ⟨hmid, hlen, hall⟩ := ih hrest
    exact ⟨by simp [hb, hmid], by simp [hlen], by simpa using ⟨hP, hall⟩⟩

end Inversion

/-! ## Decoders that may stop

Whether a value is read back can depend on what stands after it, as the bounds
on counts do. -/

/-- On `b` the decoder returns `a` and leaves `rest` if `p`, and stops otherwise. -/
def Reads (d : Decoder ε α) (b : Bytes) (p : Prop) (a : α) (rest : Bytes) : Prop :=
  (p → d b = .ok (a, rest)) ∧ (¬p → ∃ e, d b = .error e)

namespace Reads

variable {d : Decoder ε α} {b b' rest : Bytes} {p q : Prop} {a : α}

theorem of_ok (h : d b = .ok (a, rest)) : Reads d b True a rest :=
  ⟨fun _ => h, fun hp => absurd trivial hp⟩

theorem congr (h : Reads d b p a rest) (hpq : p ↔ q) : Reads d b q a rest :=
  ⟨fun hq => h.1 (hpq.mpr hq), fun hq => h.2 fun hp => hq (hpq.mp hp)⟩

theorem bind {f : α → Decoder ε β} {c : β} (hd : Reads d b p a b')
    (hf : Reads (f a) b' q c rest) : Reads (d >>= f) b (p ∧ q) c rest := by
  constructor
  · rintro ⟨hp, hq⟩
    rw [bind_ok (hd.1 hp), hf.1 hq]
  · intro hpq
    by_cases hp : p
    · obtain ⟨e, he⟩ := hf.2 fun hq => hpq ⟨hp, hq⟩
      exact ⟨e, by rw [bind_ok (hd.1 hp), he]⟩
    · obtain ⟨e, he⟩ := hd.2 hp
      exact ⟨e, bind_error he⟩

theorem after {f : α → Decoder ε β} {c : β} (hd : d b = .ok (a, b'))
    (hf : Reads (f a) b' q c rest) : Reads (d >>= f) b q c rest := by
  rwa [Reads, bind_ok hd]

end Reads

theorem checkCount_reads (count size : Nat) (e : Nat → Nat → ε) (b : Bytes) :
    Reads (checkCount count size e) b (count ≤ b.length / size % 2 ^ 32) () b :=
  ⟨checkCount_ok, fun h => ⟨_, if_pos (Nat.not_le.mp h)⟩⟩

/-- `P x n` says that `x` is read when `n` bytes follow it; then every item is when `n`
bytes follow the last. -/
def AllPass (put : α → Bytes) (P : α → Nat → Prop) : List α → Nat → Prop
  | [], _ => True
  | x :: xs, n => P x ((xs.flatMap put).length + n) ∧ AllPass put P xs n

theorem allPass_of_forall {put : α → Bytes} {P : α → Nat → Prop} {xs : List α} {n : Nat}
    (h : ∀ x ∈ xs, ∀ m, m + (put x).length ≤ (xs.flatMap put).length + n → P x m) :
    AllPass put P xs n := by
  induction xs with
  | nil => trivial
  | cons x xs ih =>
    refine ⟨h x mem_cons_self _ ?_, ih fun y hy m hm => ?_⟩
    · rw [flatMap_cons, length_append]
      omega
    · refine h y (mem_cons_of_mem _ hy) m ?_
      rw [flatMap_cons, length_append]
      omega

theorem times_reads {item : Nat → Decoder ε α} {put : α → Bytes} {P : α → Nat → Prop}
    {xs : List α} (hitem : ∀ x ∈ xs, ∀ i rest,
      Reads (item i) (put x ++ rest) (P x rest.length) x rest) (i : Nat) (rest : Bytes) :
    Reads (times item xs.length i) (xs.flatMap put ++ rest)
      (AllPass put P xs rest.length) xs rest := by
  induction xs generalizing i with
  | nil => exact .of_ok rfl
  | cons x xs ih =>
    have hxs := ih (fun y hy => hitem y (mem_cons_of_mem _ hy)) (i + 1)
    have hx := hitem x mem_cons_self i (xs.flatMap put ++ rest)
    rw [length_append] at hx
    rw [flatMap_cons, append_assoc]
    exact (hx.bind (hxs.bind (.of_ok rfl))).congr (by rw [AllPass, and_true])

theorem times_put {item : Nat → Decoder ε α} {put : α → Bytes} {xs : List α}
    (hitem : ∀ x ∈ xs, ∀ i rest, item i (put x ++ rest) = .ok (x, rest)) (i : Nat)
    (rest : Bytes) : times item xs.length i (xs.flatMap put ++ rest) = .ok (xs, rest) :=
  (times_reads (P := fun _ _ => True) (fun x hx i rest => .of_ok (hitem x hx i rest)) i rest).1
    (allPass_of_forall fun _ _ _ _ => trivial)

theorem length_flatMap_ge {put : α → Bytes} {size : Nat} {xs : List α}
    (h : ∀ x ∈ xs, size ≤ (put x).length) : size * xs.length ≤ (xs.flatMap put).length := by
  induction xs with
  | nil => simp
  | cons x xs ih =>
    have hx := h x mem_cons_self
    have hxs := ih fun y hy => h y (mem_cons_of_mem _ hy)
    rw [flatMap_cons, length_append, length_cons, Nat.mul_succ]
    omega

theorem flatMap_inj {item : Decoder ε α} {put : α → Bytes} (hput : ∀ x, put x ≠ [])
    {xs ys : List α} (hxs : ∀ x ∈ xs, ∀ rest, item (put x ++ rest) = .ok (x, rest))
    (hys : ∀ y ∈ ys, ∀ rest, item (put y ++ rest) = .ok (y, rest))
    (h : xs.flatMap put = ys.flatMap put) : xs = ys := by
  induction xs generalizing ys with
  | nil =>
    cases ys with
    | nil => rfl
    | cons y ys => exact absurd h.symm (by simp [hput])
  | cons x xs ih =>
    cases ys with
    | nil => exact absurd h (by simp [hput])
    | cons y ys =>
      rw [flatMap_cons, flatMap_cons] at h
      have hread := hxs x mem_cons_self (xs.flatMap put)
      rw [h, hys y mem_cons_self] at hread
      injection hread with hread
      obtain ⟨rfl, hrest⟩ := Prod.mk.inj hread
      rw [ih (fun z hz => hxs z (mem_cons_of_mem _ hz))
        (fun z hz => hys z (mem_cons_of_mem _ hz)) hrest.symm]

end Decoder

end ChronicleDB.Foundation
