import ChronicleDB.Foundation.Bytes

/-!
# UTF-8

A byte string is cut into characters and single bytes that start none.  Decoders
that do not fail put the replacement character in the place of such a byte.
-/

namespace ChronicleDB.Foundation

open List

def tailRanges (b : UInt8) : Option (List (UInt8 × UInt8)) :=
  if b < 0x80 then some []
  else if 0xC2 ≤ b ∧ b ≤ 0xDF then some [(0x80, 0xBF)]
  else if 0xE0 ≤ b ∧ b ≤ 0xEF then
    some [(if b = 0xE0 then 0xA0 else 0x80, if b = 0xED then 0x9F else 0xBF), (0x80, 0xBF)]
  else if 0xF0 ≤ b ∧ b ≤ 0xF4 then
    some [(if b = 0xF0 then 0x90 else 0x80, if b = 0xF4 then 0x8F else 0xBF), (0x80, 0xBF),
      (0x80, 0xBF)]
  else none

def inRanges : List (UInt8 × UInt8) → Bytes → Bool
  | [], _ => true
  | _ :: _, [] => false
  | r :: rs, c :: s => r.1 ≤ c && c ≤ r.2 && inRanges rs s

def runeLength : Bytes → Option Nat
  | [] => none
  | b :: s =>
    match tailRanges b with
    | none => none
    | some rs => if inRanges rs s then some (rs.length + 1) else none

inductive Piece where
  | rune (bytes : Bytes)
  | invalid
  deriving DecidableEq, Repr

def replacement : Bytes := [0xEF, 0xBF, 0xBD]

def Piece.bytes : Piece → Bytes
  | .rune bytes => bytes
  | .invalid => replacement

def pieces : Nat → Bytes → List Piece
  | 0, _ => []
  | _ + 1, [] => []
  | fuel + 1, b :: s =>
    match runeLength (b :: s) with
    | some n => .rune ((b :: s).take n) :: pieces fuel ((b :: s).drop n)
    | none => .invalid :: pieces fuel s

def splitRunes (s : Bytes) : List Piece := pieces s.length s

def toValidUTF8 (s : Bytes) : Bytes := (splitRunes s).flatMap Piece.bytes

def ValidUTF8 (s : Bytes) : Prop := Piece.invalid ∉ splitRunes s

instance (s : Bytes) : Decidable (ValidUTF8 s) := inferInstanceAs (Decidable (_ ∉ _))

/-! ## Characters -/

theorem inRanges_append {rs : List (UInt8 × UInt8)} {s : Bytes} (h : inRanges rs s) (more : Bytes) :
    rs.length ≤ s.length ∧ inRanges rs (s.take rs.length ++ more) := by
  induction rs generalizing s with
  | nil => simp [inRanges]
  | cons r rs ih =>
    cases s with
    | nil => cases h
    | cons c s =>
      simp only [inRanges, Bool.and_eq_true] at h
      simp [inRanges, h.1, ih h.2]

theorem runeLength_append {s : Bytes} {n : Nat} (h : runeLength s = some n) (more : Bytes) :
    0 < n ∧ n ≤ s.length ∧ runeLength (s.take n ++ more) = some n := by
  cases s with
  | nil => cases h
  | cons b s =>
    rw [runeLength] at h
    split at h
    · cases h
    case h_2 rs hrs =>
      split at h
      case isFalse => cases h
      case isTrue hin =>
        obtain rfl := Option.some.inj h
        simp [runeLength, hrs, inRanges_append hin more]

/-- A piece that is a character, whatever follows it. -/
def Piece.Whole : Piece → Prop
  | .rune bytes => ∀ more, runeLength (bytes ++ more) = some bytes.length
  | .invalid => True

theorem lt_of_whole_singleton {b : UInt8} (h : (Piece.rune [b]).Whole) : b < 0x80 := by
  have hlength : runeLength [b] = some 1 := h []
  rw [runeLength] at hlength
  split at hlength
  · cases hlength
  case h_2 rs hrs =>
    cases rs with
    | cons r rs => cases hlength
    | nil =>
      unfold tailRanges at hrs
      split at hrs
      · assumption
      · split at hrs
        · cases hrs
        · split at hrs
          · cases hrs
          · split at hrs <;> cases hrs

theorem not_lt_of_whole_cons {b c : UInt8} {s : Bytes} (h : (Piece.rune (b :: c :: s)).Whole) :
    ¬b < 0x80 := by
  intro hb
  have hlength : runeLength (b :: c :: s) = some (s.length + 2) := by simpa using h []
  simp [runeLength, tailRanges, hb, inRanges] at hlength

theorem whole_of_mem_pieces {fuel : Nat} {s : Bytes} {p : Piece} (h : p ∈ pieces fuel s) :
    p.Whole := by
  induction fuel generalizing s with
  | zero => cases h
  | succ fuel ih =>
    cases s with
    | nil => cases h
    | cons b s =>
      rw [pieces] at h
      split at h
      case h_1 n hn =>
        rcases mem_cons.mp h with rfl | h
        · intro more
          obtain ⟨_, hle, happend⟩ := runeLength_append hn more
          rwa [length_take, Nat.min_eq_left hle]
        · exact ih h
      case h_2 =>
        rcases mem_cons.mp h with rfl | h
        · trivial
        · exact ih h

theorem whole_of_mem_splitRunes {s : Bytes} {p : Piece} (h : p ∈ splitRunes s) : p.Whole :=
  whole_of_mem_pieces h

/-! ## Valid strings -/

theorem flatMap_pieces {fuel : Nat} {s : Bytes} (hfuel : s.length ≤ fuel)
    (h : Piece.invalid ∉ pieces fuel s) : (pieces fuel s).flatMap Piece.bytes = s := by
  induction fuel generalizing s with
  | zero => simp [pieces, length_eq_zero_iff.mp (Nat.le_zero.mp hfuel)]
  | succ fuel ih =>
    cases s with
    | nil => rfl
    | cons b s =>
      rw [pieces] at h ⊢
      split at h
      case h_1 n hn =>
        have hpos := (runeLength_append hn []).1
        have hrest : ((b :: s).drop n).length ≤ fuel := by
          rw [length_drop]
          omega
        rw [flatMap_cons, ih hrest fun hmem => h (mem_cons_of_mem _ hmem)]
        exact take_append_drop n (b :: s)
      case h_2 => simp at h

theorem toValidUTF8_of_valid {s : Bytes} (h : ValidUTF8 s) : toValidUTF8 s = s :=
  flatMap_pieces (Nat.le_refl _) h

end ChronicleDB.Foundation
