import ChronicleDB.Foundation.Bytes

/-!
# SHA-256

Words are natural numbers below `2 ^ 32`.
-/

namespace ChronicleDB.Foundation.Sha256

def roundConstants : List Nat :=
  [0x428a2f98, 0x71374491, 0xb5c0fbcf, 0xe9b5dba5, 0x3956c25b, 0x59f111f1, 0x923f82a4,
   0xab1c5ed5, 0xd807aa98, 0x12835b01, 0x243185be, 0x550c7dc3, 0x72be5d74, 0x80deb1fe,
   0x9bdc06a7, 0xc19bf174, 0xe49b69c1, 0xefbe4786, 0x0fc19dc6, 0x240ca1cc, 0x2de92c6f,
   0x4a7484aa, 0x5cb0a9dc, 0x76f988da, 0x983e5152, 0xa831c66d, 0xb00327c8, 0xbf597fc7,
   0xc6e00bf3, 0xd5a79147, 0x06ca6351, 0x14292967, 0x27b70a85, 0x2e1b2138, 0x4d2c6dfc,
   0x53380d13, 0x650a7354, 0x766a0abb, 0x81c2c92e, 0x92722c85, 0xa2bfe8a1, 0xa81a664b,
   0xc24b8b70, 0xc76c51a3, 0xd192e819, 0xd6990624, 0xf40e3585, 0x106aa070, 0x19a4c116,
   0x1e376c08, 0x2748774c, 0x34b0bcb5, 0x391c0cb3, 0x4ed8aa4a, 0x5b9cca4f, 0x682e6ff3,
   0x748f82ee, 0x78a5636f, 0x84c87814, 0x8cc70208, 0x90befffa, 0xa4506ceb, 0xbef9a3f7,
   0xc67178f2]

def rotateRight (x n : Nat) : Nat := (x >>> n) ||| (x <<< (32 - n)) % 2 ^ 32

def smallSigma0 (x : Nat) : Nat := rotateRight x 7 ^^^ rotateRight x 18 ^^^ (x >>> 3)

def smallSigma1 (x : Nat) : Nat := rotateRight x 17 ^^^ rotateRight x 19 ^^^ (x >>> 10)

def bigSigma0 (x : Nat) : Nat := rotateRight x 2 ^^^ rotateRight x 13 ^^^ rotateRight x 22

def bigSigma1 (x : Nat) : Nat := rotateRight x 6 ^^^ rotateRight x 11 ^^^ rotateRight x 25

def choice (x y z : Nat) : Nat := (x &&& y) ^^^ ((2 ^ 32 - 1 - x) &&& z)

def parity (x y z : Nat) : Nat := (x &&& y) ^^^ (x &&& z) ^^^ (y &&& z)

/-- The words of a block, newest first, extended by `n` more. -/
def schedule : Nat → List Nat → List Nat
  | 0, ws => ws
  | n + 1, ws =>
    let w := smallSigma1 (ws.getD 1 0) + ws.getD 6 0 + smallSigma0 (ws.getD 14 0) +
      ws.getD 15 0
    schedule n (w % 2 ^ 32 :: ws)

structure Digest where
  a : Nat
  b : Nat
  c : Nat
  d : Nat
  e : Nat
  f : Nat
  g : Nat
  h : Nat

def initialDigest : Digest :=
  ⟨0x6a09e667, 0xbb67ae85, 0x3c6ef372, 0xa54ff53a, 0x510e527f, 0x9b05688c, 0x1f83d9ab,
    0x5be0cd19⟩

def round (s : Digest) (kw : Nat × Nat) : Digest :=
  let t1 := s.h + bigSigma1 s.e + choice s.e s.f s.g + kw.1 + kw.2
  let t2 := bigSigma0 s.a + parity s.a s.b s.c
  ⟨(t1 + t2) % 2 ^ 32, s.a, s.b, s.c, (s.d + t1) % 2 ^ 32, s.e, s.f, s.g⟩

def words : Nat → Bytes → List Nat
  | 0, _ => []
  | n + 1, bs => getUint (bs.take 4) :: words n (bs.drop 4)

def compress (s : Digest) (block : Bytes) : Digest :=
  let ws := (schedule 48 (words 16 block).reverse).reverse
  let r := (roundConstants.zip ws).foldl round s
  ⟨(s.a + r.a) % 2 ^ 32, (s.b + r.b) % 2 ^ 32, (s.c + r.c) % 2 ^ 32, (s.d + r.d) % 2 ^ 32,
    (s.e + r.e) % 2 ^ 32, (s.f + r.f) % 2 ^ 32, (s.g + r.g) % 2 ^ 32, (s.h + r.h) % 2 ^ 32⟩

def compressAll : Nat → Digest → Bytes → Digest
  | 0, s, _ => s
  | n + 1, s, bs => compressAll n (compress s (bs.take 64)) (bs.drop 64)

def padded (bs : Bytes) : Bytes :=
  bs ++ 0x80 :: (List.replicate ((119 - bs.length % 64) % 64) 0 ++ putUint 8 (8 * bs.length))

end Sha256

open Sha256 in
def sum256 (bs : Bytes) : Bytes :=
  let s := compressAll ((padded bs).length / 64) initialDigest (padded bs)
  putUint 4 s.a ++ (putUint 4 s.b ++ (putUint 4 s.c ++ (putUint 4 s.d ++ (putUint 4 s.e ++
    (putUint 4 s.f ++ (putUint 4 s.g ++ putUint 4 s.h))))))

@[simp] theorem length_sum256 (bs : Bytes) : (sum256 bs).length = 32 := by
  simp [sum256]

example : sum256 [97, 98, 99] =
    putUint 32 0xba7816bf8f01cfea414140de5dae2223b00361a396177a9cb410ff61f20015ad := by
  decide +kernel

end ChronicleDB.Foundation
