import ChronicleDB.Foundation.Decoder
import ChronicleDB.Mvcc.Store

/-!
# Commands

`internal/fsm/command.go`, and the command parts of `clusterversion.go` and
`gc.go`: the commands of the replicated history as bytes.
-/

namespace ChronicleDB.Fsm

open Foundation Foundation.Decoder Mvcc List

abbrev RequestID := Bytes

structure CommitTxnCommand where
  requestID : RequestID
  txnID : Nat
  startSeq : Nat
  mutations : List Mutation
  deriving DecidableEq, Repr

structure SetClusterVersionCommand where
  requestID : RequestID
  targetGeneration : Nat
  deriving DecidableEq, Repr

structure AdvanceGCWatermarkCommand where
  requestID : RequestID
  watermark : Nat
  maxVersions : Nat
  maxKeys : Nat
  deriving DecidableEq, Repr

def commitTxnCommandVersion : UInt8 := 2
def controlCommandMarker : UInt8 := 0xF0
def controlKindSetClusterVersion : UInt8 := 1
def controlKindAdvanceGCWatermark : UInt8 := 2

/-! ## Errors -/

inductive MutationField where
  | keyLength
  | key (declared remaining : Nat)
  | tombstone
  | valueLength
  | value (declared remaining : Nat)
  deriving DecidableEq, Repr

/-- The texts of `ErrMalformedCommand` for commands. -/
inductive Malformed where
  | payloadTooShort (length needed : Nat)
  | truncatedRequestID (declared remaining : Nat)
  | truncatedBody (remaining needed : Nat)
  | mutationCount (declared remaining : Nat)
  | truncatedMutation (i : Nat) (field : MutationField)
  | trailingBytes (extra mutations : Nat)
  | notControl
  | controlTrailer (remaining expected : Nat)
  deriving DecidableEq, Repr

inductive CommandError where
  | malformed (what : Malformed)
  | unsupportedVersion (version expected : UInt8)
  | unknownControlCommand (kind : UInt8)
  deriving DecidableEq, Repr

/-! ## Encoding -/

def putString (s : Bytes) : Bytes := putUint 4 s.length ++ s

def putValue : Option Bytes → Bytes
  | none => [1]
  | some v => 0 :: putString v

def putMutation (m : Mutation) : Bytes := putString m.key ++ putValue m.value

def encodeCommitBody (cmd : CommitTxnCommand) : Bytes :=
  putUint 8 cmd.txnID ++ (putUint 8 cmd.startSeq ++
    (putUint 4 cmd.mutations.length ++ cmd.mutations.flatMap putMutation))

def encodeCommitTxn (cmd : CommitTxnCommand) : Bytes :=
  commitTxnCommandVersion :: (putString cmd.requestID ++ encodeCommitBody cmd)

def encodeSetClusterVersion (cmd : SetClusterVersionCommand) : Bytes :=
  controlCommandMarker :: controlKindSetClusterVersion ::
    (putString cmd.requestID ++ putUint 4 cmd.targetGeneration)

def encodeAdvanceGCWatermark (cmd : AdvanceGCWatermarkCommand) : Bytes :=
  controlCommandMarker :: controlKindAdvanceGCWatermark ::
    (putString cmd.requestID ++ (putUint 8 cmd.watermark ++
      (putUint 4 cmd.maxVersions ++ putUint 4 cmd.maxKeys)))

/-! ## Decoding -/

def getMutation (i : Nat) : Decoder CommandError Mutation := do
  let truncated := fun field => CommandError.malformed (.truncatedMutation i field)
  need 4 fun _ => truncated .keyLength
  let key ← string fun declared remaining => truncated (.key declared remaining)
  need 1 fun _ => truncated .tombstone
  let tombstone ← byte
  if tombstone ≠ 0 then pure ⟨key, none⟩
  else
    need 4 fun _ => truncated .valueLength
    let value ← string fun declared remaining => truncated (.value declared remaining)
    pure ⟨key, some value⟩

def getCommitTxn : Decoder CommandError CommitTxnCommand := do
  need 5 fun n => .malformed (.payloadTooShort n 5)
  let version ← byte
  check (version = commitTxnCommandVersion)
    (.unsupportedVersion version commitTxnCommandVersion)
  let requestID ← string fun declared n => .malformed (.truncatedRequestID declared n)
  need 20 fun n => .malformed (.truncatedBody n 20)
  let txnID ← uint 8
  let startSeq ← uint 8
  let numMutations ← uint 4
  checkCount numMutations 5 fun declared n => .malformed (.mutationCount declared n)
  let mutations ← times getMutation numMutations 0
  finished fun n => .malformed (.trailingBytes n numMutations)
  pure ⟨requestID, txnID, startSeq, mutations⟩

def decodeCommitTxn (b : Bytes) : Except CommandError CommitTxnCommand :=
  (getCommitTxn b).map (·.1)

def isControlCommand (payload : Bytes) : Bool := payload.head? = some controlCommandMarker

def controlKind (payload : Bytes) : Option UInt8 :=
  if isControlCommand payload then payload[1]? else none

/-- What the two control commands share: the marker, the kind, the RequestID,
and that exactly `size` bytes follow. -/
def getControl (kind : UInt8) (size : Nat) : Decoder CommandError RequestID := do
  need 6 fun n => .malformed (.payloadTooShort n 6)
  let marker ← byte
  check (marker = controlCommandMarker) (.malformed .notControl)
  let found ← byte
  check (found = kind) (.unknownControlCommand found)
  let requestID ← string fun declared n => .malformed (.truncatedRequestID declared n)
  let rest ← get
  check (rest.length = size) (.malformed (.controlTrailer rest.length size))
  pure requestID

def decodeSetClusterVersion (b : Bytes) : Except CommandError SetClusterVersionCommand :=
  (StateT.run (do
    let requestID ← getControl controlKindSetClusterVersion 4
    let targetGeneration ← uint 4
    pure ⟨requestID, targetGeneration⟩) b).map (·.1)

def decodeAdvanceGCWatermark (b : Bytes) : Except CommandError AdvanceGCWatermarkCommand :=
  (StateT.run (do
    let requestID ← getControl controlKindAdvanceGCWatermark 16
    let watermark ← uint 8
    let maxVersions ← uint 4
    let maxKeys ← uint 4
    pure ⟨requestID, watermark, maxVersions, maxKeys⟩) b).map (·.1)

/-! ## Round trip -/

theorem length_putString (s : Bytes) : (putString s).length = 4 + s.length := by
  simp [putString]

theorem need_put {s : Bytes} {n : Nat} (rest : Bytes) (h : n ≤ 4) {e : Nat → CommandError} :
    need n e (putString s ++ rest) = .ok ((), putString s ++ rest) :=
  need_ok (by rw [length_append, length_putString]; omega)

theorem string_putString {ε : Type} {s : Bytes} (h : s.length < 2 ^ 32) {e : Nat → Nat → ε}
    (rest : Bytes) : string e (putString s ++ rest) = .ok (s, rest) := by
  rw [putString, append_assoc, string_put h]

structure MutationFits (m : Mutation) : Prop where
  key_lt : m.key.length < 2 ^ 32
  value_lt : ∀ v, m.value = some v → v.length < 2 ^ 32

theorem getMutation_put {m : Mutation} (h : MutationFits m) (i : Nat) (rest : Bytes) :
    getMutation i (putMutation m ++ rest) = .ok (m, rest) := by
  obtain ⟨key, value⟩ := m
  rw [putMutation, append_assoc, getMutation, bind_ok (need_put _ (Nat.le_refl 4)),
    bind_ok (string_putString h.key_lt _)]
  cases value with
  | none => rfl
  | some v =>
    rw [bind_ok (need_ok (by simp [putValue])), putValue, cons_append,
      bind_ok (byte_cons 0 _), if_neg (by decide), bind_ok (need_put _ (Nat.le_refl 4)),
      bind_ok (string_putString (h.value_lt v rfl) _)]
    rfl

theorem five_le_length_putMutation (m : Mutation) : 5 ≤ (putMutation m).length := by
  obtain ⟨key, value⟩ := m
  rw [putMutation, length_append, length_putString]
  cases value with
  | none => simp [putValue]
  | some v => simp [putValue]; omega

/-- A command whose numbers are within their widths and whose encoding is
shorter than 4 GiB. -/
structure CommitTxnCommand.Fits (cmd : CommitTxnCommand) : Prop where
  txnID_lt : cmd.txnID < 2 ^ 64
  startSeq_lt : cmd.startSeq < 2 ^ 64
  size_lt : (encodeCommitTxn cmd).length < 2 ^ 32

theorem length_encodeCommitTxn (cmd : CommitTxnCommand) :
    (encodeCommitTxn cmd).length =
      25 + cmd.requestID.length + (cmd.mutations.flatMap putMutation).length := by
  simp [encodeCommitTxn, encodeCommitBody, length_putString]
  omega

theorem CommitTxnCommand.Fits.mutation {cmd : CommitTxnCommand} (h : cmd.Fits) {m : Mutation}
    (hm : m ∈ cmd.mutations) : MutationFits m := by
  have hsize := h.size_lt
  rw [length_encodeCommitTxn] at hsize
  have hle : (putMutation m).length ≤ (cmd.mutations.flatMap putMutation).length :=
    (sublist_flatten_of_mem (mem_map_of_mem hm)).length_le
  rw [putMutation, length_append, length_putString] at hle
  refine ⟨by omega, fun v hv => ?_⟩
  rw [hv, putValue, length_cons, length_putString] at hle
  omega

theorem decodeCommitTxn_encode {cmd : CommitTxnCommand} (h : cmd.Fits) :
    decodeCommitTxn (encodeCommitTxn cmd) = .ok cmd := by
  have hsize := h.size_lt
  rw [length_encodeCommitTxn] at hsize
  have hcount : 5 * cmd.mutations.length ≤ (cmd.mutations.flatMap putMutation).length :=
    length_flatMap_ge fun m _ => five_le_length_putMutation m
  have hmutations := times_put (fun m hm i rest => getMutation_put (h.mutation hm) i rest) 0 []
  rw [append_nil] at hmutations
  have hlen : cmd.mutations.length < 256 ^ 4 := by
    rw [show (256 : Nat) ^ 4 = 2 ^ 32 from rfl]
    omega
  have hget : getCommitTxn (encodeCommitTxn cmd) = .ok (cmd, []) := by
    rw [getCommitTxn, bind_ok (need_ok (by rw [length_encodeCommitTxn]; omega)),
      encodeCommitTxn, bind_ok (byte_cons _ _), bind_ok (check_ok rfl),
      bind_ok (string_putString (by omega) _), encodeCommitBody,
      bind_ok (need_ok (by simp; omega)), bind_ok (uint_put h.txnID_lt _),
      bind_ok (uint_put h.startSeq_lt _), bind_ok (uint_put hlen _),
      bind_ok (checkCount_ok (count_le_of_fits (by decide) hcount (by omega))),
      bind_ok hmutations]
    rfl
  rw [decodeCommitTxn, hget]
  rfl

theorem isControlCommand_encodeCommitTxn (cmd : CommitTxnCommand) :
    isControlCommand (encodeCommitTxn cmd) = false := rfl

theorem getControl_put {kind : UInt8} {id : RequestID} {rest : Bytes} (hid : id.length < 2 ^ 32) :
    getControl kind rest.length (controlCommandMarker :: kind :: (putString id ++ rest)) =
      .ok (id, rest) := by
  rw [getControl, bind_ok (need_ok (by simp [length_putString]; omega)), bind_ok (byte_cons _ _),
    bind_ok (check_ok rfl), bind_ok (byte_cons _ _), bind_ok (check_ok rfl),
    bind_ok (string_putString hid _)]
  have hget : (get : Decoder CommandError Bytes) rest = .ok (rest, rest) := rfl
  rw [bind_ok hget, bind_ok (check_ok rfl)]
  rfl

theorem decodeSetClusterVersion_encode {cmd : SetClusterVersionCommand}
    (hid : cmd.requestID.length < 2 ^ 32) (htarget : cmd.targetGeneration < 2 ^ 32) :
    decodeSetClusterVersion (encodeSetClusterVersion cmd) = .ok cmd := by
  have hcontrol := @getControl_put controlKindSetClusterVersion _
    (putUint 4 cmd.targetGeneration) hid
  have htarget := @uint_put CommandError 4 _ (show cmd.targetGeneration < 256 ^ 4 from htarget) []
  rw [append_nil] at htarget
  rw [decodeSetClusterVersion, encodeSetClusterVersion, StateT.run,
    bind_ok (by simpa using hcontrol), bind_ok htarget]
  rfl

theorem decodeAdvanceGCWatermark_encode {cmd : AdvanceGCWatermarkCommand}
    (hid : cmd.requestID.length < 2 ^ 32) (hwatermark : cmd.watermark < 2 ^ 64)
    (hversions : cmd.maxVersions < 2 ^ 32) (hkeys : cmd.maxKeys < 2 ^ 32) :
    decodeAdvanceGCWatermark (encodeAdvanceGCWatermark cmd) = .ok cmd := by
  have hcontrol := @getControl_put controlKindAdvanceGCWatermark _
    (putUint 8 cmd.watermark ++ (putUint 4 cmd.maxVersions ++ putUint 4 cmd.maxKeys)) hid
  have hkeys := @uint_put CommandError 4 _ (show cmd.maxKeys < 256 ^ 4 from hkeys) []
  rw [append_nil] at hkeys
  rw [decodeAdvanceGCWatermark, encodeAdvanceGCWatermark, StateT.run,
    bind_ok (by simpa using hcontrol),
    bind_ok (uint_put (show cmd.watermark < 256 ^ 8 from hwatermark) _),
    bind_ok (uint_put (show cmd.maxVersions < 256 ^ 4 from hversions) _), bind_ok hkeys]
  rfl

end ChronicleDB.Fsm
