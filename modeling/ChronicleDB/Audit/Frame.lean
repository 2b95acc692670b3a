import ChronicleDB.Foundation.Json
import ChronicleDB.Foundation.Sha256

/-!
# Audit records

The frame of one audit record (`internal/audit/audit.go`): the header of a WAL
record, the hash of the record before it, the entry as JSON, a CRC-32 and the
SHA-256 of all of that.
-/

namespace ChronicleDB.Audit

open Foundation List
open Foundation.Json (ascii quoteString printNat printInt printObject parseUint
  parseInt Prints prints_quoteString prints_printNat prints_printInt parse_printObject
  parseUint_printNat parseInt_printInt)

structure Entry where
  seq : UInt64
  timestamp : Int64
  principal : Bytes
  role : Bytes
  action : Bytes
  endpoint : Bytes
  result : Bytes
  detail : Bytes
  deriving DecidableEq

namespace Entry

def zero : Entry := ⟨0, 0, [], [], [], [], [], []⟩

/-! ## Entries as JSON -/

/-- `json.Marshal`; an empty `detail` is left out. -/
def marshal (e : Entry) : Bytes :=
  printObject ([(ascii "seq", printNat e.seq.toNat), (ascii "timestamp", printInt e.timestamp.toInt),
    (ascii "principal", quoteString e.principal), (ascii "role", quoteString e.role),
    (ascii "action", quoteString e.action), (ascii "endpoint", quoteString e.endpoint),
    (ascii "result", quoteString e.result)] ++
    if e.detail = [] then [] else [(ascii "detail", quoteString e.detail)])

/-- Of the characters outside ASCII, the long s and the Kelvin sign fold to letters. -/
def foldPiece : Piece → Bytes
  | .rune [b] => [if 65 ≤ b ∧ b ≤ 90 then b + 32 else b]
  | .rune [0xC5, 0xBF] => [115]
  | .rune [0xE2, 0x84, 0xAA] => [107]
  | p => p.bytes

def foldName (name : Bytes) : Bytes := (splitRunes name).flatMap foldPiece

/-- A value for a field that holds a string; `null` leaves the field as it is. -/
def stringField (v : Json) (old : Bytes) : Option Bytes :=
  match v with
  | .null => some old
  | .string s => some s
  | _ => none

def uint64Field (v : Json) (old : UInt64) : Option UInt64 :=
  match v with
  | .null => some old
  | .number literal => (parseUint 64 literal).map UInt64.ofNat
  | _ => none

def int64Field (v : Json) (old : Int64) : Option Int64 :=
  match v with
  | .null => some old
  | .number literal => (parseInt 64 literal).map Int64.ofInt
  | _ => none

/-- A member whose name is that of no field is skipped. -/
def setMember (e : Entry) (name : Bytes) (v : Json) : Option Entry :=
  let name := foldName name
  if name = ascii "seq" then (uint64Field v e.seq).map fun x => { e with seq := x }
  else if name = ascii "timestamp" then
    (int64Field v e.timestamp).map fun x => { e with timestamp := x }
  else if name = ascii "principal" then
    (stringField v e.principal).map fun x => { e with principal := x }
  else if name = ascii "role" then (stringField v e.role).map fun x => { e with role := x }
  else if name = ascii "action" then (stringField v e.action).map fun x => { e with action := x }
  else if name = ascii "endpoint" then
    (stringField v e.endpoint).map fun x => { e with endpoint := x }
  else if name = ascii "result" then (stringField v e.result).map fun x => { e with result := x }
  else if name = ascii "detail" then (stringField v e.detail).map fun x => { e with detail := x }
  else some e

/-- `json.Unmarshal`; `none` is an error, of which the callers keep nothing. -/
def unmarshal (text : Bytes) : Option Entry :=
  match Json.parse text with
  | some .null => some zero
  | some (.object members) => members.foldlM (fun e m => e.setMember m.1 m.2) zero
  | _ => none

/-- The entry as JSON can tell it: text that is not UTF-8 is repaired. -/
def rendered (e : Entry) : Entry :=
  { e with
    principal := toValidUTF8 e.principal
    role := toValidUTF8 e.role
    action := toValidUTF8 e.action
    endpoint := toValidUTF8 e.endpoint
    result := toValidUTF8 e.result
    detail := toValidUTF8 e.detail }

def members (e : Entry) : List (Bytes × Bytes × Json) :=
  [(ascii "seq", printNat e.seq.toNat, .number (printNat e.seq.toNat)),
    (ascii "timestamp", printInt e.timestamp.toInt, .number (printInt e.timestamp.toInt)),
    (ascii "principal", quoteString e.principal, .string (toValidUTF8 e.principal)),
    (ascii "role", quoteString e.role, .string (toValidUTF8 e.role)),
    (ascii "action", quoteString e.action, .string (toValidUTF8 e.action)),
    (ascii "endpoint", quoteString e.endpoint, .string (toValidUTF8 e.endpoint)),
    (ascii "result", quoteString e.result, .string (toValidUTF8 e.result))] ++
    if e.detail = [] then []
    else [(ascii "detail", quoteString e.detail, .string (toValidUTF8 e.detail))]

theorem marshal_eq (e : Entry) :
    marshal e = printObject (e.members.map fun f => (f.1, f.2.1)) := by
  by_cases h : e.detail = [] <;> simp [marshal, members, h]

theorem prints_members {e : Entry} : ∀ f ∈ e.members, Prints f.2.1 f.2.2 := by
  intro f hf
  by_cases h : e.detail = [] <;> simp only [members, h, if_true, if_false, cons_append,
    nil_append, mem_cons, not_mem_nil, or_false] at hf
  · rcases hf with rfl | rfl | rfl | rfl | rfl | rfl | rfl
    · exact prints_printNat _
    · exact prints_printInt _
    all_goals exact prints_quoteString _
  · rcases hf with rfl | rfl | rfl | rfl | rfl | rfl | rfl | rfl
    · exact prints_printNat _
    · exact prints_printInt _
    all_goals exact prints_quoteString _

theorem uint64Field_printNat (n old : UInt64) :
    uint64Field (.number (printNat n.toNat)) old = some n := by
  simp [uint64Field, parseUint_printNat n.toNat_lt]

theorem int64Field_printInt (n old : Int64) :
    int64Field (.number (printInt n.toInt)) old = some n := by
  have h : parseInt 64 (printInt n.toInt) = some n.toInt :=
    parseInt_printInt (by decide) n.le_toInt n.toInt_lt
  simp [int64Field, h]

theorem foldName_keys : ∀ k ∈ ["seq", "timestamp", "principal", "role", "action", "endpoint",
    "result", "detail"], foldName (toValidUTF8 (ascii k)) = ascii k := by
  decide

theorem unmarshal_marshal (e : Entry) : unmarshal (marshal e) = some e.rendered := by
  have hne : e.members ≠ [] := by simp [members]
  rw [unmarshal, marshal_eq, parse_printObject hne prints_members]
  have hkeys := foldName_keys
  simp only [mem_cons, not_mem_nil, or_false, forall_eq_or_imp, forall_eq] at hkeys
  by_cases h : e.detail = []
  · have hdetail : toValidUTF8 [] = [] := rfl
    simp +decide [members, h, setMember, hkeys, uint64Field_printNat, int64Field_printInt,
      stringField, rendered, zero, hdetail]
  · simp +decide [members, h, setMember, hkeys, uint64Field_printNat, int64Field_printInt,
      stringField, rendered, zero]

def texts (e : Entry) : List Bytes :=
  [e.principal, e.role, e.action, e.endpoint, e.result, e.detail]

def ValidText (e : Entry) : Prop := ∀ s ∈ e.texts, ValidUTF8 s

instance (e : Entry) : Decidable e.ValidText := inferInstanceAs (Decidable (∀ s ∈ e.texts, _))

theorem rendered_of_validText {e : Entry} (h : e.ValidText) : e.rendered = e := by
  have htexts : ∀ s ∈ e.texts, toValidUTF8 s = s := fun s hs => toValidUTF8_of_valid (h s hs)
  simp only [texts, forall_mem_cons] at htexts
  simp [rendered, htexts]

end Entry

/-! ## Hashes -/

def hashSize : Nat := 32

abbrev Hash := { h : Bytes // h.length = hashSize }

namespace Hash

def zero : Hash := ⟨List.replicate hashSize 0, List.length_replicate⟩

def copy (bs : Bytes) : Hash :=
  ⟨bs.take hashSize ++ List.replicate (hashSize - bs.length) 0, by simp; omega⟩

def sum (bs : Bytes) : Hash := ⟨sum256 bs, length_sum256 bs⟩

@[simp] theorem copy_val (h : Hash) : copy h.val = h := by
  apply Subtype.ext
  have hlen := h.property
  simp [copy, hlen, take_of_length_le]

theorem val_copy {bs : Bytes} (h : bs.length = hashSize) : (copy bs).val = bs :=
  congrArg Subtype.val (copy_val ⟨bs, h⟩)

@[simp] theorem take_append (h : Hash) (rest : Bytes) :
    (h.val ++ rest).take hashSize = h.val :=
  take_left' h.property

@[simp] theorem drop_append (h : Hash) (rest : Bytes) : (h.val ++ rest).drop hashSize = rest :=
  drop_left' h.property

end Hash

/-! ## Frames -/

def formatVersion : UInt8 := 1
def recordType : UInt8 := 1
def maxRecordPayloadSize : Nat := 1 * 1024 * 1024
def headerTypeOff : Nat := 0
def headerSeqOff : Nat := 1
def headerLengthOff : Nat := 9
def headerVersionOff : Nat := 13
def headerSize : Nat := 14
def checksumSize : Nat := 4

structure Record where
  seq : UInt64
  prevHash : Hash
  entry : Entry
  recordHash : Hash
  deriving DecidableEq

inductive FrameError where
  | entryTooLarge (length : Nat)
  | tornTail
  | unsupportedVersion (version : UInt8)
  | unknownType (code : UInt8)
  | recordTooLarge (length : Nat)
  | payloadTooShort (length : Nat)
  | checksumMismatch (seq : UInt64)
  | hashMismatch (seq : UInt64)
  | badEntry (seq : UInt64)
  deriving DecidableEq

def encodeHeader (seq : UInt64) (length : Nat) : Bytes :=
  recordType :: (putUint 8 seq.toNat ++ (putUint 4 length ++ [formatVersion]))

def encodeBody (seq : UInt64) (payload : Bytes) : Bytes :=
  let covered := encodeHeader seq payload.length ++ payload
  covered ++ putUint 4 (checksumIEEE covered)

def encodeFrame (prevHash : Hash) (entry : Entry) : Except FrameError (Bytes × Hash) :=
  let payload := prevHash.val ++ entry.marshal
  if payload.length > maxRecordPayloadSize then .error (.entryTooLarge payload.length)
  else
    let body := encodeBody entry.seq payload
    let recordHash := Hash.sum body
    .ok (body ++ recordHash.val, recordHash)

def decodeFrame (buf : Bytes) : Except FrameError (Record × Nat) :=
  if buf.length < headerSize then .error .tornTail
  else
    let code := buf.getD headerTypeOff 0
    let seq := UInt64.ofNat (getUint ((buf.drop headerSeqOff).take 8))
    let length := getUint ((buf.drop headerLengthOff).take 4)
    let version := buf.getD headerVersionOff 0
    if version ≠ formatVersion then .error (.unsupportedVersion version)
    else if code ≠ recordType then .error (.unknownType code)
    else
      let need := headerSize + length + checksumSize + hashSize
      if buf.length < need then .error .tornTail
      else if length > maxRecordPayloadSize then .error (.recordTooLarge length)
      else if length < hashSize then .error (.payloadTooShort length)
      else
        let payloadEnd := headerSize + length
        let hashOff := payloadEnd + checksumSize
        let wantCRC := getUint ((buf.drop payloadEnd).take checksumSize)
        let gotCRC := checksumIEEE (buf.take payloadEnd)
        if gotCRC ≠ wantCRC then .error (.checksumMismatch seq)
        else
          let storedHash := Hash.copy ((buf.drop hashOff).take hashSize)
          let gotHash := Hash.sum (buf.take hashOff)
          if gotHash ≠ storedHash then .error (.hashMismatch seq)
          else
            let prevHash := Hash.copy ((buf.drop headerSize).take hashSize)
            match Entry.unmarshal ((buf.take payloadEnd).drop (headerSize + hashSize)) with
            | none => .error (.badEntry seq)
            | some entry => .ok (⟨seq, prevHash, entry, storedHash⟩, need)

/-! ## Decoding what was encoded -/

@[simp] theorem length_encodeHeader (seq : UInt64) (length : Nat) :
    (encodeHeader seq length).length = headerSize := by
  simp [encodeHeader, headerSize]

@[simp] theorem length_encodeBody (seq : UInt64) (payload : Bytes) :
    (encodeBody seq payload).length = headerSize + payload.length + checksumSize := by
  simp [encodeBody, checksumSize, Nat.add_assoc]

section Header

variable (seq : UInt64) (length : Nat) (rest : Bytes)

private theorem encodeHeader_type :
    (encodeHeader seq length ++ rest).getD headerTypeOff 0 = recordType := by
  simp [encodeHeader, headerTypeOff]

private theorem encodeHeader_seq :
    ((encodeHeader seq length ++ rest).drop headerSeqOff).take 8 = putUint 8 seq.toNat := by
  simp [encodeHeader, headerSeqOff]

private theorem encodeHeader_length :
    ((encodeHeader seq length ++ rest).drop headerLengthOff).take 4 = putUint 4 length := by
  have h : headerLengthOff = 8 + 1 := rfl
  simp only [encodeHeader, cons_append, append_assoc, h, drop_succ_cons,
    drop_putUint_append, take_putUint_append]

private theorem encodeHeader_version :
    (encodeHeader seq length ++ rest).getD headerVersionOff 0 = formatVersion := by
  have h : headerVersionOff = 4 + 8 + 1 := rfl
  simp only [encodeHeader, cons_append, append_assoc, h, getD_eq_getElem?_getD, getElem?_cons_succ]
  rw [getElem?_append_right (by simp), getElem?_append_right (by simp)]
  simp

end Header

/-- Decoding stops early only for want of bytes once the header is there. -/
private theorem decodeFrame_header (seq : UInt64) {length : Nat} (hlength : length < 256 ^ 4)
    {rest : Bytes} (hrest : rest.length < length + checksumSize + hashSize) :
    decodeFrame (encodeHeader seq length ++ rest) = .error .tornTail := by
  rw [decodeFrame, if_neg (by simp)]
  simp only [encodeHeader_type, encodeHeader_length, encodeHeader_version,
    getUint_putUint_of_lt hlength, ne_eq, not_true_eq_false, if_false]
  rw [if_pos (by simp; omega)]

section Sealed

variable {seq : UInt64} {payload : Bytes}

private theorem encodeBody_append (rest : Bytes) :
    encodeBody seq payload ++ rest = encodeHeader seq payload.length ++ (payload ++
      (putUint 4 (checksumIEEE (encodeHeader seq payload.length ++ payload)) ++ rest)) := by
  simp [encodeBody]

private theorem decodeFrame_sealed {prevHash : Hash} {text : Bytes}
    (hpayload : payload = prevHash.val ++ text) (hmax : payload.length ≤ maxRecordPayloadSize)
    {entry : Entry} (hentry : Entry.unmarshal text = some entry) (rest : Bytes) :
    decodeFrame (encodeBody seq payload ++ ((Hash.sum (encodeBody seq payload)).val ++ rest)) =
      .ok (⟨seq, prevHash, entry, Hash.sum (encodeBody seq payload)⟩,
        headerSize + payload.length + checksumSize + hashSize) := by
  have hlt : payload.length < 256 ^ 4 := lt_of_le_of_lt hmax (by decide)
  have hhead := length_encodeHeader seq payload.length
  have hbody := length_encodeBody seq payload
  set sealHash := Hash.sum (encodeBody seq payload) with hseal
  have hshort : hashSize ≤ payload.length := by simp [hpayload, prevHash.property]
  -- the two cuts of the buffer that the checks read: after the payload and after the checksum
  have hcovered : (encodeBody seq payload ++ (sealHash.val ++ rest)).take
      (headerSize + payload.length) = encodeHeader seq payload.length ++ payload := by
    rw [encodeBody_append, ← hhead, take_length_add_append, take_left]
  have hcrc : getUint (((encodeBody seq payload ++ (sealHash.val ++ rest)).drop
      (headerSize + payload.length)).take checksumSize) =
      checksumIEEE (encodeHeader seq payload.length ++ payload) := by
    rw [encodeBody_append, ← hhead, drop_length_add_append, drop_left, checksumSize,
      take_putUint_append, getUint_putUint_of_lt (checksumIEEE_lt _)]
  have hprev : ((encodeBody seq payload ++ (sealHash.val ++ rest)).drop headerSize).take
      hashSize = prevHash.val := by
    rw [encodeBody_append, ← hhead, drop_left, hpayload, append_assoc, Hash.take_append]
  have htext : (encodeHeader seq payload.length ++ payload).drop (headerSize + hashSize) =
      text := by
    rw [← hhead, drop_length_add_append, hpayload, Hash.drop_append]
  have hhash : ((encodeBody seq payload ++ (sealHash.val ++ rest)).drop
      (headerSize + payload.length + checksumSize)).take hashSize = sealHash.val := by
    rw [← hbody, drop_left, Hash.take_append]
  have hsealed : (encodeBody seq payload ++ (sealHash.val ++ rest)).take
      (headerSize + payload.length + checksumSize) = encodeBody seq payload := by
    rw [← hbody, take_left]
  have hneed : ¬ (encodeBody seq payload ++ (sealHash.val ++ rest)).length <
      headerSize + payload.length + checksumSize + hashSize := by
    simp only [length_append, hbody, sealHash.property]
    omega
  have hsome : ¬ (encodeBody seq payload ++ (sealHash.val ++ rest)).length < headerSize := by
    omega
  have hseq : getUint (((encodeBody seq payload ++ (sealHash.val ++ rest)).drop
      headerSeqOff).take 8) = seq.toNat := by
    rw [encodeBody_append, encodeHeader_seq, getUint_putUint_of_lt seq.toNat_lt]
  have hfield : getUint (((encodeBody seq payload ++ (sealHash.val ++ rest)).drop
      headerLengthOff).take 4) = payload.length := by
    rw [encodeBody_append, encodeHeader_length, getUint_putUint_of_lt hlt]
  have hversion : (encodeBody seq payload ++ (sealHash.val ++ rest)).getD headerVersionOff 0 =
      formatVersion := by
    rw [encodeBody_append, encodeHeader_version]
  have htype : (encodeBody seq payload ++ (sealHash.val ++ rest)).getD headerTypeOff 0 =
      recordType := by
    rw [encodeBody_append, encodeHeader_type]
  simp only [decodeFrame, hsome, hseq, hfield, hversion, htype, hneed, hcovered, hcrc, hprev,
    htext, hhash, hsealed, hentry, Hash.copy_val, ← hseal, ne_eq, not_true_eq_false, if_false,
    Nat.not_lt.mpr hmax, Nat.not_lt.mpr hshort, UInt64.ofNat_toNat]

end Sealed

section Encoded

variable {prevHash recordHash : Hash} {entry : Entry} {frame : Bytes}

theorem encodeFrame_eq (h : encodeFrame prevHash entry = .ok (frame, recordHash)) :
    (prevHash.val ++ entry.marshal).length ≤ maxRecordPayloadSize ∧
      recordHash = Hash.sum (encodeBody entry.seq (prevHash.val ++ entry.marshal)) ∧
      frame = encodeBody entry.seq (prevHash.val ++ entry.marshal) ++ recordHash.val := by
  rw [encodeFrame] at h
  split at h
  · cases h
  · rename_i hmax
    cases h
    exact ⟨Nat.not_lt.mp hmax, rfl, rfl⟩

theorem decodeFrame_encodeFrame (h : encodeFrame prevHash entry = .ok (frame, recordHash))
    (rest : Bytes) : decodeFrame (frame ++ rest) =
      .ok (⟨entry.seq, prevHash, entry.rendered, recordHash⟩, frame.length) := by
  obtain ⟨hmax, rfl, rfl⟩ := encodeFrame_eq h
  have hlen : (encodeBody entry.seq (prevHash.val ++ entry.marshal) ++
      (Hash.sum (encodeBody entry.seq (prevHash.val ++ entry.marshal))).val).length =
      headerSize + (prevHash.val ++ entry.marshal).length + checksumSize + hashSize := by
    rw [length_append, length_encodeBody, (Hash.sum _).property]
  rw [append_assoc, decodeFrame_sealed rfl hmax entry.unmarshal_marshal rest, hlen]

theorem decodeFrame_take_encodeFrame (h : encodeFrame prevHash entry = .ok (frame, recordHash))
    {k : Nat} (hk : k < frame.length) : decodeFrame (frame.take k) = .error .tornTail := by
  obtain ⟨hmax, -, rfl⟩ := encodeFrame_eq h
  by_cases hhead : k < headerSize
  · rw [decodeFrame, if_pos]
    simp only [length_take]
    omega
  · obtain ⟨j, rfl⟩ := Nat.exists_eq_add_of_le (Nat.not_lt.mp hhead)
    rw [length_append, length_encodeBody, recordHash.property] at hk
    rw [encodeBody_append, ← length_encodeHeader entry.seq (prevHash.val ++ entry.marshal).length,
      take_length_add_append]
    apply decodeFrame_header _ (lt_of_le_of_lt hmax (by decide))
    simp only [length_take]
    omega

theorem encodeFrame_ne_nil (h : encodeFrame prevHash entry = .ok (frame, recordHash)) :
    frame ≠ [] := by
  obtain ⟨-, -, rfl⟩ := encodeFrame_eq h
  simp [encodeBody, encodeHeader]

end Encoded

/-! ## What decoding reads -/

structure Decodes (buf : Bytes) (r : Record) (n : Nat) : Prop where
  version : buf.getD headerVersionOff 0 = formatVersion
  type : buf.getD headerTypeOff 0 = recordType
  size : n = headerSize + getUint ((buf.drop headerLengthOff).take 4) + checksumSize + hashSize
  complete : n ≤ buf.length
  bounded : n ≤ headerSize + maxRecordPayloadSize + checksumSize + hashSize
  chained : headerSize + hashSize + checksumSize + hashSize ≤ n
  checksum : checksumIEEE (buf.take (n - hashSize - checksumSize)) =
    getUint ((buf.drop (n - hashSize - checksumSize)).take checksumSize)
  intact : Hash.sum (buf.take (n - hashSize)) = Hash.copy ((buf.drop (n - hashSize)).take hashSize)
  seq : r.seq = UInt64.ofNat (getUint ((buf.drop headerSeqOff).take 8))
  prevHash : r.prevHash = Hash.copy ((buf.drop headerSize).take hashSize)
  recordHash : r.recordHash = Hash.copy ((buf.drop (n - hashSize)).take hashSize)
  entry : Entry.unmarshal
    ((buf.take (n - hashSize - checksumSize)).drop (headerSize + hashSize)) = some r.entry

theorem decodeFrame_ok_iff {buf : Bytes} {r : Record} {n : Nat} :
    decodeFrame buf = .ok (r, n) ↔ Decodes buf r n := by
  constructor
  · intro h
    simp only [decodeFrame] at h
    set length := getUint ((buf.drop headerLengthOff).take 4) with hlength
    have hhashOff : headerSize + length + checksumSize + hashSize - hashSize =
        headerSize + length + checksumSize := by omega
    have hcrcOff : headerSize + length + checksumSize + hashSize - hashSize - checksumSize =
        headerSize + length := by omega
    split at h
    · cases h
    split at h
    · cases h
    rename_i hversion
    split at h
    · cases h
    rename_i htype
    split at h
    · cases h
    rename_i hneed
    split at h
    · cases h
    rename_i hmax
    split at h
    · cases h
    rename_i hshort
    split at h
    · cases h
    rename_i hcrc
    split at h
    · cases h
    rename_i hseal
    split at h
    · cases h
    rename_i entry hentry
    cases h
    rw [not_not] at hversion htype hcrc hseal
    exact
      { version := hversion
        type := htype
        size := rfl
        complete := by omega
        bounded := by omega
        chained := by omega
        checksum := by rw [hcrcOff]; exact hcrc
        intact := by rw [hhashOff]; exact hseal
        seq := rfl
        prevHash := rfl
        recordHash := by rw [hhashOff]
        entry := by rw [hcrcOff]; exact hentry }
  · intro h
    obtain ⟨hversion, htype, hsize, hneed, hmax, hshort, hcrc, hintact, hseq, hprev, hhash,
      hentry⟩ := h
    set length := getUint ((buf.drop headerLengthOff).take 4) with hlength
    have hhashOff : n - hashSize = headerSize + length + checksumSize := by omega
    have hcrcOff : n - hashSize - checksumSize = headerSize + length := by omega
    rw [hcrcOff] at hcrc hentry
    rw [hhashOff] at hintact hhash
    simp only [decodeFrame, ← hlength]
    rw [if_neg (by omega), if_neg (not_not.mpr hversion), if_neg (not_not.mpr htype),
      if_neg (by omega), if_neg (by omega), if_neg (by omega), if_neg (not_not.mpr hcrc),
      if_neg (not_not.mpr hintact), hentry, ← hseq, ← hprev, ← hhash, ← hsize]

section Front

variable {buf : Bytes} {n : Nat} (hn : n ≤ buf.length) (rest : Bytes)

include hn

private theorem take_front {k : Nat} (hk : k ≤ n) : (buf.take n ++ rest).take k = buf.take k := by
  rw [take_append_of_le_length (by simp; omega), take_take, Nat.min_eq_left hk]

private theorem drop_take_front {i k : Nat} (hk : i + k ≤ n) :
    ((buf.take n ++ rest).drop i).take k = (buf.drop i).take k := by
  rw [take_drop, take_drop, take_front hn rest (by omega)]

private theorem getD_front {i : Nat} (hi : i < n) :
    (buf.take n ++ rest).getD i 0 = buf.getD i 0 := by
  simp only [getD_eq_getElem?_getD]
  rw [getElem?_append_left (by simp; omega), getElem?_take_of_lt hi]

end Front

namespace Decodes

variable {buf : Bytes} {r : Record} {n : Nat}

theorem append (h : Decodes buf r n) (rest : Bytes) : Decodes (buf.take n ++ rest) r n := by
  have hn := h.complete
  have hlarge := h.chained
  simp only [headerSize, hashSize, checksumSize] at hlarge
  exact
    { version := by rw [getD_front hn rest (by simp [headerVersionOff]; omega), h.version]
      type := by rw [getD_front hn rest (by simp [headerTypeOff]; omega), h.type]
      size := by
        rw [drop_take_front hn rest (by simp [headerLengthOff]; omega)]
        exact h.size
      complete := by simp; omega
      bounded := h.bounded
      chained := h.chained
      checksum := by
        rw [take_front hn rest (by omega),
          drop_take_front hn rest (by simp [hashSize, checksumSize]; omega)]
        exact h.checksum
      intact := by
        rw [take_front hn rest (by omega), drop_take_front hn rest (by simp [hashSize]; omega)]
        exact h.intact
      seq := by
        rw [drop_take_front hn rest (by simp [headerSeqOff]; omega)]
        exact h.seq
      prevHash := by
        rw [drop_take_front hn rest (by simp [headerSize, hashSize]; omega)]
        exact h.prevHash
      recordHash := by
        rw [drop_take_front hn rest (by simp [hashSize]; omega)]
        exact h.recordHash
      entry := by
        rw [take_front hn rest (by omega)]
        exact h.entry }

theorem pos (h : Decodes buf r n) : 0 < n :=
  lt_of_lt_of_le (by decide) h.chained

theorem recordHash_eq (h : Decodes buf r n) :
    r.recordHash = Hash.sum (buf.take (n - hashSize)) := by
  rw [h.recordHash, h.intact]

theorem take_eq (h : Decodes buf r n) :
    buf.take n = buf.take (n - hashSize) ++ r.recordHash.val := by
  have hn := h.complete
  have hlarge := h.chained
  have hlen : ((buf.drop (n - hashSize)).take hashSize).length = hashSize := by
    simp only [length_take, length_drop]
    omega
  rw [h.recordHash, Hash.val_copy hlen, ← take_add, Nat.sub_add_cancel (by omega)]

end Decodes

end ChronicleDB.Audit
