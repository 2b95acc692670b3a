import ChronicleDB.Foundation.Bytes

/-!
# WAL record frames

The frame of one WAL record (`internal/wal/record.go`): a fourteen byte header
with type, index, payload length and format version, the payload, and a CRC-32
of everything before it.  `readFrame` reads the header first and falls back to
reading the rest of the segment when the header alone cannot show that the
frame is complete (`internal/wal/wal.go`).
-/

namespace ChronicleDB.Wal

open Foundation List

inductive RecordType where
  | logEntry
  | hardState
  | metadata
  deriving DecidableEq, Repr

def RecordType.code : RecordType → UInt8
  | .logEntry => 1
  | .hardState => 2
  | .metadata => 3

def RecordType.ofCode (b : UInt8) : Option RecordType :=
  if b = 1 then some .logEntry
  else if b = 2 then some .hardState
  else if b = 3 then some .metadata
  else none

@[simp] theorem RecordType.ofCode_code (t : RecordType) :
    RecordType.ofCode t.code = some t := by
  cases t <;> rfl

def formatVersion : UInt8 := 1
def maxRecordPayloadSize : Nat := 64 * 1024 * 1024
def headerIndexOff : Nat := 1
def headerLengthOff : Nat := 9
def headerVersionOff : Nat := 13
def headerSize : Nat := 14
def checksumSize : Nat := 4

structure Record where
  type : RecordType
  index : Nat
  payload : Bytes
  deriving DecidableEq, Repr

/-! ## Encoding and decoding one frame -/

def encodeHeader (rt : RecordType) (index length : Nat) : Bytes :=
  rt.code :: (putUint 8 index ++ (putUint 4 length ++ [formatVersion]))

def encodeRecord (rt : RecordType) (index : Nat) (payload : Bytes) : Bytes :=
  let body := encodeHeader rt index payload.length ++ payload
  body ++ putUint 4 (checksumIEEE body)

def Record.frame (r : Record) : Bytes := encodeRecord r.type r.index r.payload

/-- The ways in which a frame can be refused. `tornTail` is the only one that
recovery repairs. -/
inductive FrameError where
  | tornTail
  | unsupportedVersion (version : UInt8)
  | recordTooLarge (length : Nat)
  | unknownType (code : UInt8)
  | checksumMismatch (code : UInt8) (index : Nat)
  deriving DecidableEq, Repr

def decodeFrameBytes (buf : Bytes) : Except FrameError (Record × Nat) :=
  if buf.length < headerSize then .error .tornTail
  else
    let code := buf.getD 0 0
    let index := getUint ((buf.drop headerIndexOff).take 8)
    let length := getUint ((buf.drop headerLengthOff).take 4)
    let version := buf.getD headerVersionOff 0
    if version ≠ formatVersion then .error (.unsupportedVersion version)
    else
      let need := headerSize + length + checksumSize
      if buf.length < need then .error .tornTail
      else if length > maxRecordPayloadSize then .error (.recordTooLarge length)
      else match RecordType.ofCode code with
        | none => .error (.unknownType code)
        | some rt =>
          let payloadEnd := headerSize + length
          let wantCRC := getUint ((buf.drop payloadEnd).take checksumSize)
          let gotCRC := checksumIEEE (buf.take payloadEnd)
          if gotCRC ≠ wantCRC then .error (.checksumMismatch code index)
          else .ok (⟨rt, index, (buf.take payloadEnd).drop headerSize⟩, need)

/-! ## Reading a frame out of a segment -/

/-- `Segment.ReadAt` with a buffer of `n` bytes: what is present, at most `n`. -/
def readAt (seg : Bytes) (offset n : Nat) : Bytes := (seg.drop offset).take n

def readFrameFull (seg : Bytes) (offset avail : Nat) :
    Except FrameError (Record × Nat) :=
  decodeFrameBytes
    (readAt seg offset (min avail (headerSize + maxRecordPayloadSize + checksumSize)))

/-- `none` is the clean end of the segment. -/
def readFrame (seg : Bytes) (offset : Nat) :
    Except FrameError (Option (Record × Nat)) :=
  if offset ≥ seg.length then .ok none
  else
    let avail := seg.length - offset
    let hdrBuf := readAt seg offset (min avail headerSize)
    if hdrBuf.length < headerSize then .error .tornTail
    else
      let length := getUint ((hdrBuf.drop headerLengthOff).take 4)
      let frameLen := headerSize + length + checksumSize
      if length > maxRecordPayloadSize ∨ frameLen > avail then
        (readFrameFull seg offset avail).map some
      else (decodeFrameBytes (readAt seg offset frameLen)).map some

/-! ## Decoding what was encoded -/

/-- A record whose index and payload length the frame's fields can hold. -/
structure Record.Fits (r : Record) : Prop where
  index_lt : r.index < 2 ^ 64
  payload_le : r.payload.length ≤ maxRecordPayloadSize

@[simp] theorem length_encodeHeader (rt : RecordType) (index length : Nat) :
    (encodeHeader rt index length).length = headerSize := by
  simp [encodeHeader, headerSize]

@[simp] theorem Record.length_frame (r : Record) :
    r.frame.length = headerSize + r.payload.length + checksumSize := by
  simp [Record.frame, encodeRecord, checksumSize, Nat.add_assoc]

section Header

variable (rt : RecordType) (index length : Nat) (rest : Bytes)

private theorem header_code :
    (encodeHeader rt index length ++ rest).getD 0 0 = rt.code := by
  simp [encodeHeader]

private theorem header_index :
    ((encodeHeader rt index length ++ rest).drop headerIndexOff).take 8 =
      putUint 8 index := by
  simp [encodeHeader, headerIndexOff]

theorem header_length :
    ((encodeHeader rt index length ++ rest).drop headerLengthOff).take 4 =
      putUint 4 length := by
  have h : headerLengthOff = 8 + 1 := rfl
  simp only [encodeHeader, cons_append, append_assoc, h,
    drop_succ_cons, drop_putUint_append, take_putUint_append]

theorem header_version :
    (encodeHeader rt index length ++ rest).getD headerVersionOff 0 =
      formatVersion := by
  have h : headerVersionOff = 4 + 8 + 1 := rfl
  simp only [encodeHeader, cons_append, append_assoc, h, getD_eq_getElem?_getD, getElem?_cons_succ]
  rw [getElem?_append_right (by simp), getElem?_append_right (by simp)]
  simp

end Header

private theorem decodeFrameBytes_header (rt : RecordType) {index length : Nat}
    (hindex : index < 256 ^ 8) (hlength : length < 256 ^ 4) (rest : Bytes) :
    decodeFrameBytes (encodeHeader rt index length ++ rest) =
      if rest.length < length + checksumSize then .error .tornTail
      else if length > maxRecordPayloadSize then .error (.recordTooLarge length)
      else if checksumIEEE (encodeHeader rt index length ++ rest.take length) ≠
          getUint ((rest.drop length).take checksumSize) then
        .error (.checksumMismatch rt.code index)
      else .ok (⟨rt, index, rest.take length⟩, headerSize + length + checksumSize) := by
  have hhead := length_encodeHeader rt index length
  have htake : (encodeHeader rt index length ++ rest).take (headerSize + length) =
      encodeHeader rt index length ++ rest.take length := by
    rw [← hhead, take_length_add_append]
  have hdrop : (encodeHeader rt index length ++ rest).drop (headerSize + length) =
      rest.drop length := by
    rw [← hhead, drop_length_add_append]
  have hpayload : (encodeHeader rt index length ++ rest.take length).drop headerSize =
      rest.take length := by
    rw [← hhead, drop_left]
  have htotal : (encodeHeader rt index length ++ rest).length =
      headerSize + rest.length := by simp
  have hneed : headerSize + rest.length < headerSize + length + checksumSize ↔
      rest.length < length + checksumSize := by omega
  unfold decodeFrameBytes
  simp only [header_code, header_index, header_length, header_version,
    getUint_putUint_of_lt hindex, getUint_putUint_of_lt hlength, htotal, htake,
    hdrop, hpayload, hneed, RecordType.ofCode_code, ne_eq, not_true_eq_false,
    if_false]
  rw [if_neg (by omega)]

private theorem frame_eq_header (r : Record) :
    r.frame = encodeHeader r.type r.index r.payload.length ++ (r.payload ++
      putUint 4 (checksumIEEE
        (encodeHeader r.type r.index r.payload.length ++ r.payload))) := by
  simp [Record.frame, encodeRecord]

private theorem Record.Fits.length_lt {r : Record} (h : r.Fits) :
    r.payload.length < 256 ^ 4 :=
  lt_of_le_of_lt h.payload_le (by decide)

theorem decodeFrameBytes_frame {r : Record} (h : r.Fits) (rest : Bytes) :
    decodeFrameBytes (r.frame ++ rest) = .ok (r, r.frame.length) := by
  rw [frame_eq_header, append_assoc,
    decodeFrameBytes_header r.type h.index_lt h.length_lt, append_assoc,
    take_left, drop_left, checksumSize, take_putUint_append,
    getUint_putUint_of_lt (checksumIEEE_lt _),
    if_neg (by simp), if_neg (Nat.not_lt.mpr h.payload_le)]
  simp [Nat.add_assoc]

theorem decodeFrameBytes_take_frame {r : Record} (h : r.Fits) {k : Nat}
    (hk : k < r.frame.length) :
    decodeFrameBytes (r.frame.take k) = .error .tornTail := by
  by_cases hhead : k < headerSize
  · rw [decodeFrameBytes, if_pos]
    simp only [length_take]
    omega
  · obtain ⟨j, rfl⟩ := Nat.exists_eq_add_of_le (Nat.not_lt.mp hhead)
    rw [Record.length_frame] at hk
    rw [frame_eq_header, ← length_encodeHeader r.type r.index r.payload.length,
      take_length_add_append, decodeFrameBytes_header r.type h.index_lt h.length_lt,
      if_pos]
    simp only [length_take, length_append, length_putUint]
    omega

/-! ## Reading frames at an offset -/

@[simp] theorem readFrame_end (seg : Bytes) : readFrame seg seg.length = .ok none := by
  simp [readFrame]

private theorem readFrame_header {seg : Bytes} {offset : Nat} {rt : RecordType}
    {index length : Nat} {rest : Bytes} (hlength : length ≤ maxRecordPayloadSize)
    (hseg : seg.drop offset = encodeHeader rt index length ++ rest) :
    readFrame seg offset = (decodeFrameBytes
      ((encodeHeader rt index length ++ rest).take
        (headerSize + length + checksumSize))).map some := by
  have hdropLen := congrArg List.length hseg
  simp only [List.length_drop, List.length_append, length_encodeHeader] at hdropLen
  have hpos : 0 < headerSize := by decide
  have hbuf : readAt seg offset (min (seg.length - offset) headerSize) =
      encodeHeader rt index length := by
    rw [readAt, hseg, Nat.min_eq_right (by omega),
      ← length_encodeHeader rt index length, List.take_left]
  have hfield : getUint ((List.drop headerLengthOff
      (encodeHeader rt index length)).take 4) = length := by
    have := header_length rt index length []
    rw [List.append_nil] at this
    rw [this, getUint_putUint_of_lt (lt_of_le_of_lt hlength (by decide))]
  unfold readFrame
  rw [if_neg (by omega)]
  simp only [hbuf, hfield, length_encodeHeader, lt_irrefl, if_false]
  split
  · rename_i hfull
    have havail : seg.length - offset < headerSize + length + checksumSize := by omega
    have hsmall : seg.length - offset ≤
        headerSize + maxRecordPayloadSize + checksumSize := by omega
    rw [readFrameFull, readAt, Nat.min_eq_left hsmall, hseg,
      List.take_of_length_le (by simp; omega), List.take_of_length_le (by simp; omega)]
  · rw [readAt, hseg]

theorem readFrame_frame {r : Record} (h : r.Fits) (pre rest : Bytes) :
    readFrame (pre ++ (r.frame ++ rest)) pre.length =
      .ok (some (r, r.frame.length)) := by
  have hdrop : (pre ++ (r.frame ++ rest)).drop pre.length =
      encodeHeader r.type r.index r.payload.length ++ (r.payload ++ (putUint 4
        (checksumIEEE (encodeHeader r.type r.index r.payload.length ++ r.payload)) ++
          rest)) := by
    rw [drop_left, frame_eq_header]
    simp only [append_assoc]
  rw [readFrame_header h.payload_le hdrop, ← hdrop, drop_left, ← Record.length_frame r, take_left]
  have hdecode := decodeFrameBytes_frame h []
  rw [append_nil] at hdecode
  rw [hdecode]
  rfl

theorem readFrame_torn {r : Record} (h : r.Fits) (pre : Bytes) {k : Nat}
    (hpos : 0 < k) (hk : k < r.frame.length) :
    readFrame (pre ++ r.frame.take k) pre.length = .error .tornTail := by
  have hlen : (r.frame.take k).length = k := by
    rw [length_take]; omega
  by_cases hhead : k < headerSize
  · unfold readFrame
    rw [if_neg (by simp only [length_append, hlen]; omega)]
    simp only [readAt, drop_left, length_append, hlen, length_take]
    rw [if_pos (by omega)]
  · obtain ⟨j, rfl⟩ := Nat.exists_eq_add_of_le (Nat.not_lt.mp hhead)
    have hdrop : (pre ++ r.frame.take (headerSize + j)).drop pre.length =
        encodeHeader r.type r.index r.payload.length ++ (r.payload ++ putUint 4
          (checksumIEEE (encodeHeader r.type r.index r.payload.length ++
            r.payload))).take j := by
      rw [drop_left, frame_eq_header]
      conv_lhs => rw [← length_encodeHeader r.type r.index r.payload.length]
      rw [take_length_add_append]
    rw [readFrame_header h.payload_le hdrop, ← hdrop, drop_left,
      ← Record.length_frame r, take_take, Nat.min_eq_right (by omega),
      decodeFrameBytes_take_frame h hk]
    rfl

/-! ## The index of a decoded record -/

theorem index_lt_of_decodeFrameBytes {buf : Bytes} {rec : Record} {n : Nat}
    (h : decodeFrameBytes buf = .ok (rec, n)) : rec.index < 2 ^ 64 := by
  have hfield : getUint ((buf.drop headerIndexOff).take 8) < 2 ^ 64 := by
    refine lt_of_lt_of_le (getUint_lt _) ?_
    calc 256 ^ ((buf.drop headerIndexOff).take 8).length ≤ 256 ^ 8 :=
          Nat.pow_le_pow_right (by decide) (by simp)
      _ = 2 ^ 64 := by decide
  simp only [decodeFrameBytes] at h
  split at h
  · cases h
  split at h
  · cases h
  split at h
  · cases h
  split at h
  · cases h
  split at h
  · cases h
  split at h
  · cases h
  cases h
  exact hfield

theorem index_lt_of_readFrame {seg : Bytes} {offset n : Nat} {rec : Record}
    (h : readFrame seg offset = .ok (some (rec, n))) : rec.index < 2 ^ 64 := by
  have hmap : ∀ buf, (decodeFrameBytes buf).map some = .ok (some (rec, n)) →
      rec.index < 2 ^ 64 := by
    intro buf hbuf
    cases hdecode : decodeFrameBytes buf with
    | error e =>
      rw [hdecode] at hbuf
      cases hbuf
    | ok p =>
      rw [hdecode] at hbuf
      cases hbuf
      exact index_lt_of_decodeFrameBytes hdecode
  simp only [readFrame] at h
  split at h
  · cases h
  split at h
  · cases h
  split at h
  · exact hmap _ h
  · exact hmap _ h

end ChronicleDB.Wal
