import ChronicleDB.Foundation.Utf8
import Mathlib.Data.Nat.Digits.Lemmas

/-!
# JSON texts

The reader of `encoding/json`, with its limit on nesting and its replacement of
what is not UTF-8, and the writer for strings, integers and flat objects.
-/

namespace ChronicleDB.Foundation

open List

inductive Json where
  | null
  | bool (b : Bool)
  | number (literal : Bytes)
  | string (s : Bytes)
  | array (items : List Json)
  | object (members : List (Bytes × Json))

namespace Json

def ascii (s : String) : Bytes := s.toList.map fun c => UInt8.ofNat c.toNat

def quoteMark : UInt8 := 34
def backslash : UInt8 := 92
def comma : UInt8 := 44
def colon : UInt8 := 58
def openBrace : UInt8 := 123
def closeBrace : UInt8 := 125
def openBracket : UInt8 := 91
def closeBracket : UInt8 := 93
def minus : UInt8 := 45
def zero : UInt8 := 48

/-! ## Reading strings -/

def hexDigit? (b : UInt8) : Option Nat :=
  if 48 ≤ b ∧ b ≤ 57 then some (b.toNat - 48)
  else if 97 ≤ b ∧ b ≤ 102 then some (b.toNat - 87)
  else if 65 ≤ b ∧ b ≤ 70 then some (b.toNat - 55)
  else none

def getu4 : Bytes → Option (Nat × Bytes)
  | a :: b :: c :: d :: s =>
    match hexDigit? a, hexDigit? b, hexDigit? c, hexDigit? d with
    | some a, some b, some c, some d => some (((a * 16 + b) * 16 + c) * 16 + d, s)
    | _, _, _, _ => none
  | _ => none

def encodeRune (r : Nat) : Bytes :=
  if r < 0x80 then [UInt8.ofNat r]
  else if r < 0x800 then [UInt8.ofNat (0xC0 + r / 64), UInt8.ofNat (0x80 + r % 64)]
  else if 0xD800 ≤ r ∧ r < 0xE000 ∨ 0x110000 ≤ r then replacement
  else if r < 0x10000 then
    [UInt8.ofNat (0xE0 + r / 4096), UInt8.ofNat (0x80 + r / 64 % 64), UInt8.ofNat (0x80 + r % 64)]
  else
    [UInt8.ofNat (0xF0 + r / 262144), UInt8.ofNat (0x80 + r / 4096 % 64),
      UInt8.ofNat (0x80 + r / 64 % 64), UInt8.ofNat (0x80 + r % 64)]

/-- The second half of a surrogate pair that begins with `r`. -/
def surrogatePair (r : Nat) : Bytes → Option (Nat × Bytes)
  | b :: u :: s =>
    if b = backslash ∧ u = 117 then
      match getu4 s with
      | some (r', s) =>
        if r < 0xDC00 ∧ 0xDC00 ≤ r' ∧ r' < 0xE000 then
          some ((r - 0xD800) * 1024 + (r' - 0xDC00) + 0x10000, s)
        else none
      | none => none
    else none
  | _ => none

/-- What follows a backslash. -/
def unescape : Bytes → Option (Bytes × Bytes)
  | [] => none
  | c :: s =>
    if c = quoteMark ∨ c = backslash ∨ c = 47 then some ([c], s)
    else if c = 98 then some ([8], s)
    else if c = 102 then some ([12], s)
    else if c = 110 then some ([10], s)
    else if c = 114 then some ([13], s)
    else if c = 116 then some ([9], s)
    else if c = 117 then
      match getu4 s with
      | none => none
      | some (r, s) =>
        if 0xD800 ≤ r ∧ r < 0xE000 then
          match surrogatePair r s with
          | some (r, s) => some (encodeRune r, s)
          | none => some (replacement, s)
        else some (encodeRune r, s)
    else none

/-- The rest of a string, from behind its first quotation mark. -/
def parseString : Nat → Bytes → Option (Bytes × Bytes)
  | 0, _ => none
  | _ + 1, [] => none
  | fuel + 1, c :: s =>
    if c = quoteMark then some ([], s)
    else if c = backslash then
      match unescape s with
      | none => none
      | some (out, s) => (parseString fuel s).map fun r => (out ++ r.1, r.2)
    else if c < 32 then none
    else
      match runeLength (c :: s) with
      | some n => (parseString fuel ((c :: s).drop n)).map fun r => ((c :: s).take n ++ r.1, r.2)
      | none => (parseString fuel s).map fun r => (replacement ++ r.1, r.2)

/-! ## Reading values -/

def isSpace (b : UInt8) : Bool := b = 32 || b = 9 || b = 10 || b = 13

def skipSpace (s : Bytes) : Bytes := s.dropWhile isSpace

def isDigit (b : UInt8) : Bool := 48 ≤ b && b ≤ 57

def someDigits (s : Bytes) : Option (Bytes × Bytes) :=
  if s.takeWhile isDigit = [] then none else some (s.takeWhile isDigit, s.dropWhile isDigit)

def parseFraction : Bytes → Option (Bytes × Bytes)
  | [] => some ([], [])
  | c :: s => if c = 46 then (someDigits s).map fun r => (c :: r.1, r.2) else some ([], c :: s)

def parseExponent : Bytes → Option (Bytes × Bytes)
  | [] => some ([], [])
  | c :: s =>
    if c = 101 ∨ c = 69 then
      match s with
      | [] => none
      | d :: s' =>
        if d = 43 ∨ d = minus then (someDigits s').map fun r => (c :: d :: r.1, r.2)
        else (someDigits s).map fun r => (c :: r.1, r.2)
    else some ([], c :: s)

def parseUnsigned : Bytes → Option (Bytes × Bytes)
  | [] => none
  | c :: s =>
    if isDigit c then
      let whole := if c = zero then [c] else c :: s.takeWhile isDigit
      let s := if c = zero then s else s.dropWhile isDigit
      match parseFraction s with
      | none => none
      | some (fraction, s) =>
        match parseExponent s with
        | none => none
        | some (exponent, s) => some (whole ++ (fraction ++ exponent), s)
    else none

def parseNumber : Bytes → Option (Bytes × Bytes)
  | [] => none
  | c :: s =>
    if c = minus then (parseUnsigned s).map fun r => (c :: r.1, r.2) else parseUnsigned (c :: s)

def parseLiteral (word : Bytes) (v : Json) (s : Bytes) : Option (Json × Bytes) :=
  if word.isPrefixOf s then some (v, s.drop word.length) else none

mutual

/-- `depth` more values may be nested in each other. -/
def parseValue : Nat → Nat → Bytes → Option (Json × Bytes)
  | 0, _, _ => none
  | fuel + 1, depth, s =>
    match skipSpace s with
    | [] => none
    | c :: s =>
      if c = openBrace then
        if depth = 0 then none
        else if (skipSpace s).head? = some closeBrace then
          some (.object [], (skipSpace s).drop 1)
        else (parseMembers fuel (depth - 1) s).map fun r => (.object r.1, r.2)
      else if c = openBracket then
        if depth = 0 then none
        else if (skipSpace s).head? = some closeBracket then
          some (.array [], (skipSpace s).drop 1)
        else (parseItems fuel (depth - 1) s).map fun r => (.array r.1, r.2)
      else if c = quoteMark then
        (parseString (s.length + 1) s).map fun r => (.string r.1, r.2)
      else if c = 116 then parseLiteral (ascii "true") (.bool true) (c :: s)
      else if c = 102 then parseLiteral (ascii "false") (.bool false) (c :: s)
      else if c = 110 then parseLiteral (ascii "null") .null (c :: s)
      else (parseNumber (c :: s)).map fun r => (.number r.1, r.2)

def parseMembers : Nat → Nat → Bytes → Option (List (Bytes × Json) × Bytes)
  | 0, _, _ => none
  | fuel + 1, depth, s =>
    match skipSpace s with
    | [] => none
    | c :: s =>
      if c = quoteMark then
        match parseString (s.length + 1) s with
        | none => none
        | some (key, s) =>
          if (skipSpace s).head? = some colon then
            match parseValue fuel depth ((skipSpace s).drop 1) with
            | none => none
            | some (v, s) =>
              if (skipSpace s).head? = some comma then
                (parseMembers fuel depth ((skipSpace s).drop 1)).map fun r =>
                  ((key, v) :: r.1, r.2)
              else if (skipSpace s).head? = some closeBrace then
                some ([(key, v)], (skipSpace s).drop 1)
              else none
          else none
      else none

def parseItems : Nat → Nat → Bytes → Option (List Json × Bytes)
  | 0, _, _ => none
  | fuel + 1, depth, s =>
    match parseValue fuel depth s with
    | none => none
    | some (v, s) =>
      if (skipSpace s).head? = some comma then
        (parseItems fuel depth ((skipSpace s).drop 1)).map fun r => (v :: r.1, r.2)
      else if (skipSpace s).head? = some closeBracket then
        some ([v], (skipSpace s).drop 1)
      else none

end

def maxNestingDepth : Nat := 10000

def parse (s : Bytes) : Option Json :=
  match parseValue (s.length + 1) maxNestingDepth s with
  | none => none
  | some (v, s) => if skipSpace s = [] then some v else none

/-! ## Integers -/

def digitsValue (ds : Bytes) : Nat := ds.foldl (fun n d => n * 10 + (d.toNat - 48)) 0

def parseUint (bits : Nat) (literal : Bytes) : Option Nat :=
  if literal ≠ [] ∧ literal.all isDigit ∧ digitsValue literal < 2 ^ bits then
    some (digitsValue literal)
  else none

def parseInt (bits : Nat) (literal : Bytes) : Option Int :=
  match literal with
  | [] => none
  | c :: ds =>
    if c = minus then
      match parseUint bits ds with
      | some n => if n ≤ 2 ^ (bits - 1) then some (-n) else none
      | none => none
    else
      match parseUint bits (if c = 43 then ds else literal) with
      | some n => if n < 2 ^ (bits - 1) then some n else none
      | none => none

/-! ## Writing -/

def hexChar (n : Nat) : UInt8 := if n < 10 then UInt8.ofNat (48 + n) else UInt8.ofNat (87 + n)

def quoteByte (b : UInt8) : Bytes :=
  if b = quoteMark ∨ b = backslash then [backslash, b]
  else if b = 8 then [backslash, 98]
  else if b = 12 then [backslash, 102]
  else if b = 10 then [backslash, 110]
  else if b = 13 then [backslash, 114]
  else if b = 9 then [backslash, 116]
  -- control characters, and those that HTML gives a meaning to
  else if b < 32 ∨ b = 60 ∨ b = 62 ∨ b = 38 then
    [backslash, 117, zero, zero, hexChar (b.toNat / 16), hexChar (b.toNat % 16)]
  else [b]

def quotePiece : Piece → Bytes
  | .invalid => ascii "\\ufffd"
  | .rune bytes =>
    match bytes with
    | [b] => quoteByte b
    | _ =>
      if bytes = [0xE2, 0x80, 0xA8] then ascii "\\u2028"
      else if bytes = [0xE2, 0x80, 0xA9] then ascii "\\u2029"
      else bytes

def quoteString (s : Bytes) : Bytes :=
  quoteMark :: ((splitRunes s).flatMap quotePiece ++ [quoteMark])

def digitChar (d : Nat) : UInt8 := UInt8.ofNat (48 + d)

def printNat (n : Nat) : Bytes :=
  if n = 0 then [zero] else (Nat.digits 10 n).reverse.map digitChar

def printInt : Int → Bytes
  | .ofNat n => printNat n
  | .negSucc n => minus :: printNat (n + 1)

def printMembers : List (Bytes × Bytes) → Bytes
  | [] => [closeBrace]
  | [m] => quoteString m.1 ++ colon :: (m.2 ++ [closeBrace])
  | m :: ms => quoteString m.1 ++ colon :: (m.2 ++ comma :: printMembers ms)

def printObject (members : List (Bytes × Bytes)) : Bytes := openBrace :: printMembers members

/-! ## Reading what was written: strings -/

theorem getu4_hexChar (b : UInt8) (s : Bytes) :
    getu4 (zero :: zero :: hexChar (b.toNat / 16) :: hexChar (b.toNat % 16) :: s) =
      some (b.toNat, s) := by
  have hdigit : ∀ n < 16, hexDigit? (hexChar n) = some n := by decide
  have hhigh := hdigit (b.toNat / 16) (by have := b.toNat_lt; omega)
  have hlow := hdigit (b.toNat % 16) (Nat.mod_lt _ (by decide))
  have hzero : hexDigit? zero = some 0 := by decide
  simp only [getu4, hzero, hhigh, hlow]
  congr 2
  omega

theorem encodeRune_ascii {b : UInt8} (h : b < 0x80) : encodeRune b.toNat = [b] := by
  have hlt : b.toNat < 0x80 := h
  simp [encodeRune, hlt]

theorem unescape_quoteByte {b : UInt8} (hb : b < 0x80) :
    quoteByte b = [b] ∧ b ≠ quoteMark ∧ b ≠ backslash ∧ ¬b < 32 ∨
      ∃ e, quoteByte b = backslash :: e ∧ ∀ s, unescape (e ++ s) = some ([b], s) := by
  unfold quoteByte
  split
  case isTrue h =>
    refine .inr ⟨[b], rfl, fun s => ?_⟩
    rcases h with rfl | rfl <;> rfl
  split
  case isTrue h => exact .inr ⟨[98], rfl, fun s => by subst h; rfl⟩
  split
  case isTrue h => exact .inr ⟨[102], rfl, fun s => by subst h; rfl⟩
  split
  case isTrue h => exact .inr ⟨[110], rfl, fun s => by subst h; rfl⟩
  split
  case isTrue h => exact .inr ⟨[114], rfl, fun s => by subst h; rfl⟩
  split
  case isTrue h => exact .inr ⟨[116], rfl, fun s => by subst h; rfl⟩
  split
  case isTrue h =>
    refine .inr ⟨_, rfl, fun s => ?_⟩
    have hlt : b.toNat < 0x80 := hb
    have hread := getu4_hexChar b s
    simp only [cons_append, nil_append]
    rw [unescape, if_neg (by decide), if_neg (by decide), if_neg (by decide), if_neg (by decide),
      if_neg (by decide), if_neg (by decide), if_pos rfl, hread]
    dsimp only
    rw [if_neg (by omega), encodeRune_ascii hb]
  case isFalse hspecial _ _ _ _ _ hplain =>
    rw [not_or] at hspecial hplain
    exact .inl ⟨rfl, hspecial.1, hspecial.2, hplain.1⟩

theorem parseString_quoteByte {b : UInt8} (hb : b < 0x80) (fuel : Nat) (s : Bytes) :
    parseString (fuel + 1) (quoteByte b ++ s) =
      (parseString fuel s).map fun r => (b :: r.1, r.2) := by
  rcases unescape_quoteByte hb with ⟨hquote, hmark, hslash, hcontrol⟩ | ⟨e, hquote, hread⟩
  · have hlength : runeLength (b :: s) = some 1 := by simp [runeLength, tailRanges, hb, inRanges]
    rw [hquote, singleton_append, parseString, if_neg hmark, if_neg hslash, if_neg hcontrol,
      hlength]
    rfl
  · rw [hquote, cons_append, parseString, if_neg (by decide), if_pos rfl, hread]
    rfl

theorem parseString_quotePiece {p : Piece} (hp : p.Whole) (fuel : Nat) (s : Bytes) :
    parseString (fuel + 1) (quotePiece p ++ s) =
      (parseString fuel s).map fun r => (p.bytes ++ r.1, r.2) := by
  match p, hp with
  | .invalid, _ => rfl
  | .rune [], hp => cases hp []
  | .rune [b], hp => exact parseString_quoteByte (lt_of_whole_singleton hp) fuel s
  | .rune (b :: c :: bytes), hp =>
    have hb := not_lt_of_whole_cons hp
    rw [quotePiece]
    · split
      case isTrue h => rw [h]; rfl
      case isFalse =>
        split
        case isTrue h => rw [h]; rfl
        case isFalse =>
          have hmark : b ≠ quoteMark := fun h => hb (h ▸ by decide)
          have hslash : b ≠ backslash := fun h => hb (h ▸ by decide)
          have hcontrol : ¬b < 32 := fun h => hb (UInt8.lt_trans h (by decide))
          have hlength := hp s
          rw [cons_append] at hlength ⊢
          rw [parseString, if_neg hmark, if_neg hslash, if_neg hcontrol, hlength]
          dsimp only
          rw [← cons_append, drop_left, take_left]
          rfl
    · simp

theorem parseString_pieces {ps : List Piece} (hps : ∀ p ∈ ps, p.Whole) {fuel : Nat}
    (hfuel : ps.length < fuel) (s : Bytes) :
    parseString fuel (ps.flatMap quotePiece ++ quoteMark :: s) =
      some (ps.flatMap Piece.bytes, s) := by
  induction ps generalizing fuel with
  | nil =>
    obtain ⟨fuel, rfl⟩ : ∃ k, fuel = k + 1 := ⟨fuel - 1, by simp at hfuel; omega⟩
    simp [parseString]
  | cons p ps ih =>
    obtain ⟨fuel, rfl⟩ : ∃ k, fuel = k + 1 := ⟨fuel - 1, by simp at hfuel; omega⟩
    rw [flatMap_cons, append_assoc, parseString_quotePiece (hps p mem_cons_self),
      ih (fun q hq => hps q (mem_cons_of_mem _ hq)) (by simpa using hfuel)]
    simp

/-! ## Reading what was written: values -/

/-- What follows a value in an object. -/
def Ends (s : Bytes) : Prop := ∃ c s', s = c :: s' ∧ (c = comma ∨ c = closeBrace)

/-- A text that is read as `v` where an object goes on behind it. -/
def Prints (text : Bytes) (v : Json) : Prop :=
  ∀ fuel depth s, Ends s → parseValue (fuel + 1) depth (text ++ s) = some (v, s)

theorem quotePiece_ne_nil {p : Piece} (hp : p.Whole) : quotePiece p ≠ [] := by
  match p, hp with
  | .invalid, _ => decide
  | .rune [], hp => cases hp []
  | .rune [b], _ =>
    rw [quotePiece, quoteByte]
    repeat' split
    all_goals simp
  | .rune (b :: c :: bytes), _ =>
    rw [quotePiece]
    · split
      · decide
      · split
        · decide
        · simp
    · simp

theorem length_le_flatMap_quotePiece {ps : List Piece} (hps : ∀ p ∈ ps, p.Whole) :
    ps.length ≤ (ps.flatMap quotePiece).length := by
  induction ps with
  | nil => simp
  | cons p ps ih =>
    have hpos := length_pos_iff.mpr (quotePiece_ne_nil (hps p mem_cons_self))
    have := ih fun q hq => hps q (mem_cons_of_mem _ hq)
    rw [flatMap_cons, length_append, length_cons]
    omega

theorem parseString_quoteString (s rest : Bytes) :
    parseString (((splitRunes s).flatMap quotePiece ++ quoteMark :: rest).length + 1)
      ((splitRunes s).flatMap quotePiece ++ quoteMark :: rest) = some (toValidUTF8 s, rest) := by
  have hwhole : ∀ p ∈ splitRunes s, p.Whole := fun p hp => whole_of_mem_splitRunes hp
  refine parseString_pieces hwhole ?_ rest
  have := length_le_flatMap_quotePiece hwhole
  rw [length_append]
  omega

theorem skipSpace_cons {c : UInt8} (h : isSpace c = false) (s : Bytes) :
    skipSpace (c :: s) = c :: s := by
  simp [skipSpace, h]

theorem quoteString_append (s rest : Bytes) :
    quoteString s ++ rest =
      quoteMark :: ((splitRunes s).flatMap quotePiece ++ quoteMark :: rest) := by
  simp [quoteString]

theorem prints_quoteString (s : Bytes) : Prints (quoteString s) (.string (toValidUTF8 s)) := by
  intro fuel depth rest _
  rw [quoteString_append, parseValue, skipSpace_cons (by decide)]
  dsimp only
  rw [if_neg (by decide), if_neg (by decide), if_pos rfl, parseString_quoteString]
  rfl

theorem Ends.skipSpace_eq {s : Bytes} (h : Ends s) : skipSpace s = s := by
  obtain ⟨c, s, rfl, rfl | rfl⟩ := h <;> exact skipSpace_cons (by decide) s

theorem digitChar_spec : ∀ d < 10, isDigit (digitChar d) ∧ (digitChar d = zero → d = 0) ∧
    digitChar d ≠ minus ∧ (digitChar d).toNat - 48 = d := by decide

theorem printNat_of_pos {n : Nat} (hn : n ≠ 0) :
    ∃ c ds, printNat n = c :: ds ∧ isDigit c ∧ c ≠ zero ∧ ∀ d ∈ ds, isDigit d := by
  have hne : Nat.digits 10 n ≠ [] := Nat.digits_ne_nil_iff_ne_zero.mpr hn
  have hlast := Nat.getLast_digit_ne_zero 10 hn
  have hlt : ∀ d ∈ Nat.digits 10 n, d < 10 := fun d hd => Nat.digits_lt_base (by decide) hd
  rw [printNat, if_neg hn]
  obtain ⟨front, d, hdigits⟩ : ∃ front d, Nat.digits 10 n = front ++ [d] :=
    ⟨_, _, (dropLast_append_getLast hne).symm⟩
  simp only [hdigits, getLast_append_singleton] at hlast hlt ⊢
  have hd := digitChar_spec d (hlt d (by simp))
  refine ⟨digitChar d, front.reverse.map digitChar, by simp, hd.1, fun h => hlast (hd.2.1 h), ?_⟩
  intro c hc
  obtain ⟨d', hd', rfl⟩ := mem_map.mp hc
  exact (digitChar_spec d' (hlt d' (mem_append_left _ (mem_reverse.mp hd')))).1

theorem parseUnsigned_printNat (n : Nat) {s : Bytes} (hs : Ends s) :
    parseUnsigned (printNat n ++ s) = some (printNat n, s) := by
  obtain ⟨c, s, rfl, hc⟩ := hs
  have hfraction : parseFraction (c :: s) = some ([], c :: s) := by
    rcases hc with rfl | rfl <;> rfl
  have hexponent : parseExponent (c :: s) = some ([], c :: s) := by
    rcases hc with rfl | rfl <;> rfl
  have hend : isDigit c = false := by rcases hc with rfl | rfl <;> rfl
  by_cases hn : n = 0
  · subst hn
    rw [printNat, if_pos rfl, singleton_append, parseUnsigned, if_pos (by decide)]
    dsimp only
    rw [if_pos rfl, hfraction]
    dsimp only
    rw [if_pos rfl, hexponent]
    rfl
  · obtain ⟨d, ds, hprint, hd, hzero, hds⟩ := printNat_of_pos hn
    have htake : (ds ++ c :: s).takeWhile isDigit = ds := by
      rw [takeWhile_append_of_pos hds, takeWhile_cons_of_neg (by simp [hend]), append_nil]
    have hdrop : (ds ++ c :: s).dropWhile isDigit = c :: s := by
      rw [dropWhile_append_of_pos hds, dropWhile_cons_of_neg (by simp [hend])]
    rw [hprint, cons_append, parseUnsigned, if_pos hd]
    dsimp only
    rw [if_neg hzero, if_neg hzero, htake, hdrop, hfraction]
    dsimp only
    rw [hexponent]
    simp

theorem number_start {c : UInt8} (hc : c = minus ∨ isDigit c) :
    isSpace c = false ∧ c ≠ openBrace ∧ c ≠ openBracket ∧ c ≠ quoteMark ∧ c ≠ 116 ∧ c ≠ 102 ∧
      c ≠ 110 := by
  rcases hc with rfl | hdigit
  · decide
  · simp only [isDigit, Bool.and_eq_true, decide_eq_true_eq] at hdigit
    obtain ⟨d, hd, rfl⟩ : ∃ d < 10, c = digitChar d := by
      have hlo : 48 ≤ c.toNat := hdigit.1
      have hhi : c.toNat ≤ 57 := hdigit.2
      refine ⟨c.toNat - 48, by omega, ?_⟩
      rw [digitChar, Nat.add_sub_cancel' hlo, UInt8.ofNat_toNat]
    have hall : ∀ d < 10, isSpace (digitChar d) = false ∧ digitChar d ≠ openBrace ∧
        digitChar d ≠ openBracket ∧ digitChar d ≠ quoteMark ∧ digitChar d ≠ 116 ∧
        digitChar d ≠ 102 ∧ digitChar d ≠ 110 := by decide
    exact hall d hd

theorem prints_number {text : Bytes} {c : UInt8} {ds : Bytes} (htext : text = c :: ds)
    (hc : c = minus ∨ isDigit c) (hread : ∀ s, Ends s → parseNumber (text ++ s) = some (text, s)) :
    Prints text (.number text) := by
  intro fuel depth s hs
  obtain ⟨hspace, h1, h2, h3, h4, h5, h6⟩ := number_start hc
  have hnumber := hread s hs
  rw [htext, cons_append] at hnumber ⊢
  rw [parseValue, skipSpace_cons hspace]
  dsimp only
  rw [if_neg h1, if_neg h2, if_neg h3, if_neg h4, if_neg h5, if_neg h6, hnumber]
  rfl

theorem printNat_eq_cons (n : Nat) : ∃ c ds, printNat n = c :: ds ∧ isDigit c := by
  by_cases hn : n = 0
  · exact ⟨zero, [], by rw [printNat, if_pos hn], by decide⟩
  · obtain ⟨c, ds, hprint, hc, -, -⟩ := printNat_of_pos hn
    exact ⟨c, ds, hprint, hc⟩

theorem prints_printNat (n : Nat) : Prints (printNat n) (.number (printNat n)) := by
  obtain ⟨c, ds, hprint, hc⟩ := printNat_eq_cons n
  refine prints_number hprint (.inr hc) fun s hs => ?_
  have hminus : c ≠ minus := fun h => by
    rw [h] at hc
    exact absurd hc (by decide)
  have hread := parseUnsigned_printNat n hs
  rw [hprint, cons_append] at hread ⊢
  rw [parseNumber, if_neg hminus, hread]

theorem prints_printInt (i : Int) : Prints (printInt i) (.number (printInt i)) := by
  cases i with
  | ofNat n => exact prints_printNat n
  | negSucc n =>
    refine prints_number rfl (.inl rfl) fun s hs => ?_
    rw [printInt, cons_append, parseNumber, if_pos rfl, parseUnsigned_printNat _ hs]
    rfl

/-! ## Reading what was written: objects -/

theorem parseMembers_member {key text : Bytes} {v : Json} (h : Prints text v) (fuel depth : Nat)
    {s : Bytes} (hs : Ends s) :
    parseMembers (fuel + 2) depth (quoteString key ++ colon :: (text ++ s)) =
      if s.head? = some comma then
        (parseMembers (fuel + 1) depth (s.drop 1)).map fun r => ((toValidUTF8 key, v) :: r.1, r.2)
      else some ([(toValidUTF8 key, v)], s.drop 1) := by
  have hcolon : skipSpace (colon :: (text ++ s)) = colon :: (text ++ s) :=
    skipSpace_cons (by decide) _
  have hend : s.head? ≠ some comma → s.head? = some closeBrace := by
    obtain ⟨c, s, rfl, rfl | rfl⟩ := hs
    · exact fun h => absurd rfl h
    · exact fun _ => rfl
  rw [quoteString_append, parseMembers, skipSpace_cons (by decide)]
  dsimp only
  rw [if_pos rfl, parseString_quoteString]
  dsimp only
  rw [hcolon, head?_cons, if_pos rfl, drop_one, tail_cons, h fuel depth s hs]
  dsimp only
  rw [hs.skipSpace_eq]
  split
  · rfl
  · rw [if_pos (hend ‹_›)]

theorem parseMembers_printMembers {fields : List (Bytes × Bytes × Json)} (hne : fields ≠ [])
    (hprints : ∀ f ∈ fields, Prints f.2.1 f.2.2) {fuel : Nat} (hfuel : fields.length < fuel)
    (depth : Nat) (rest : Bytes) :
    parseMembers fuel depth (printMembers (fields.map fun f => (f.1, f.2.1)) ++ rest) =
      some (fields.map fun f => (toValidUTF8 f.1, f.2.2), rest) := by
  induction fields generalizing fuel with
  | nil => exact absurd rfl hne
  | cons f fields ih =>
    obtain ⟨fuel, rfl⟩ : ∃ k, fuel = k + 2 := ⟨fuel - 2, by simp at hfuel; omega⟩
    have hf := hprints f mem_cons_self
    cases fields with
    | nil =>
      have hmember := @parseMembers_member f.1 f.2.1 f.2.2 hf fuel depth (closeBrace :: rest)
        ⟨_, _, rfl, .inr rfl⟩
      rw [if_neg (by simp [comma, closeBrace])] at hmember
      simpa [printMembers] using hmember
    | cons g fields =>
      have hlt : (g :: fields).length < fuel + 1 := by simpa using hfuel
      have hrest := ih (by simp) (fun f' hf' => hprints f' (mem_cons_of_mem _ hf')) hlt
      have hmember := @parseMembers_member f.1 f.2.1 f.2.2 hf fuel depth
        (comma :: (printMembers ((g :: fields).map fun f => (f.1, f.2.1)) ++ rest))
        ⟨_, _, rfl, .inl rfl⟩
      rw [head?_cons, if_pos rfl, drop_one, tail_cons, hrest] at hmember
      simpa [printMembers] using hmember

theorem length_lt_printMembers {fields : List (Bytes × Bytes)} :
    fields.length < (printMembers fields).length := by
  induction fields with
  | nil => decide
  | cons f fields ih =>
    cases fields with
    | nil => simp [printMembers, quoteString]
    | cons g fields =>
      simp only [printMembers, quoteString, length_append, length_cons] at ih ⊢
      omega

theorem parse_printObject {fields : List (Bytes × Bytes × Json)} (hne : fields ≠ [])
    (hprints : ∀ f ∈ fields, Prints f.2.1 f.2.2) :
    parse (printObject (fields.map fun f => (f.1, f.2.1))) =
      some (.object (fields.map fun f => (toValidUTF8 f.1, f.2.2))) := by
  generalize htexts : (fields.map fun f => (f.1, f.2.1)) = texts
  have hlt : fields.length < (printMembers texts).length + 1 := by
    have := @length_lt_printMembers texts
    rw [← htexts, length_map] at this
    rw [← htexts]
    omega
  have hread := parseMembers_printMembers hne hprints hlt (maxNestingDepth - 1) []
  rw [htexts, append_nil] at hread
  -- the object is not empty: a quotation mark follows
  have hmore : (skipSpace (printMembers texts)).head? ≠ some closeBrace := by
    obtain ⟨f, fields, rfl⟩ := exists_cons_of_ne_nil hne
    obtain ⟨s, hs⟩ : ∃ s, printMembers texts = quoteMark :: s := by
      rw [← htexts, map_cons]
      cases fields with
      | nil => exact ⟨_, rfl⟩
      | cons g fields => exact ⟨_, rfl⟩
    rw [hs, skipSpace_cons (by decide)]
    simp [quoteMark, closeBrace]
  rw [parse, printObject, length_cons, parseValue, skipSpace_cons (by decide)]
  dsimp only
  rw [if_pos rfl, if_neg (by decide), if_neg hmore, hread]
  rfl

/-! ## Reading what was written: integers -/

theorem foldr_digitChar {l : List Nat} (h : ∀ d ∈ l, d < 10) :
    l.foldr (fun d n => n * 10 + ((digitChar d).toNat - 48)) 0 = Nat.ofDigits 10 l := by
  induction l with
  | nil => rfl
  | cons d l ih =>
    have hd := (digitChar_spec d (h d mem_cons_self)).2.2.2
    rw [foldr_cons, ih fun d' hd' => h d' (mem_cons_of_mem _ hd'), hd, Nat.ofDigits_cons]
    omega

theorem digitsValue_printNat (n : Nat) : digitsValue (printNat n) = n := by
  unfold digitsValue printNat
  split
  case isTrue hn =>
    subst hn
    decide
  case isFalse =>
    rw [foldl_map, foldl_reverse, foldr_digitChar, Nat.ofDigits_digits]
    exact fun d hd => Nat.digits_lt_base (by decide) hd

theorem all_printNat (n : Nat) : (printNat n).all isDigit := by
  by_cases hn : n = 0
  · rw [printNat, if_pos hn]
    decide
  · obtain ⟨c, ds, hprint, hc, -, hds⟩ := printNat_of_pos hn
    rw [hprint, all_cons, hc, Bool.true_and, all_eq_true]
    exact hds

theorem parseUint_printNat {bits n : Nat} (h : n < 2 ^ bits) :
    parseUint bits (printNat n) = some n := by
  obtain ⟨c, ds, hprint, -⟩ := printNat_eq_cons n
  rw [parseUint, digitsValue_printNat, if_pos ⟨by simp [hprint], all_printNat n, h⟩]

theorem parseInt_printInt {bits : Nat} (hbits : 0 < bits) {i : Int}
    (hlo : -(2 : Int) ^ (bits - 1) ≤ i) (hhi : i < 2 ^ (bits - 1)) :
    parseInt bits (printInt i) = some i := by
  have hpow : 2 ^ (bits - 1) ≤ 2 ^ bits := Nat.pow_le_pow_right (by decide) (Nat.sub_le _ _)
  cases i with
  | ofNat n =>
    have hn : n < 2 ^ (bits - 1) := by
      have : (n : Int) < ((2 ^ (bits - 1) : Nat) : Int) := by
        push_cast
        exact hhi
      exact_mod_cast this
    obtain ⟨c, ds, hprint, hc⟩ := printNat_eq_cons n
    have hplain : c ≠ minus ∧ c ≠ 43 := by
      constructor <;> rintro rfl <;> exact absurd hc (by decide)
    have hread := parseUint_printNat (Nat.lt_of_lt_of_le hn hpow)
    rw [hprint] at hread
    rw [printInt, hprint, parseInt, if_neg hplain.1, if_neg hplain.2, hread]
    simp [hn]
  | negSucc n =>
    have hn : n + 1 ≤ 2 ^ (bits - 1) := by
      have : ((n + 1 : Nat) : Int) ≤ ((2 ^ (bits - 1) : Nat) : Int) := by
        rw [Int.negSucc_eq] at hlo
        push_cast
        omega
      exact_mod_cast this
    have hlt : n + 1 < 2 ^ bits := by
      have : 2 ^ bits = 2 * 2 ^ (bits - 1) := by
        rw [← Nat.pow_succ', Nat.succ_eq_add_one, Nat.sub_add_cancel hbits]
      omega
    rw [printInt, parseInt, if_pos rfl, parseUint_printNat hlt]
    simp only [hn, if_true, Int.negSucc_eq]
    simp

end Json

end ChronicleDB.Foundation
