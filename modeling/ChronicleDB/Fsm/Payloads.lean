import ChronicleDB.Foundation.Cursor
import ChronicleDB.Fsm.Machine

/-!
# Commit commands as payloads

`internal/fsm/command.go` with what the model of commands leaves out: mutations as
the source has them, where a tombstone may carry a value that is ignored, and
`DecodeCommitTxn` with its offset, its slices and its allocations.
-/

namespace ChronicleDB.Fsm

open Foundation Mvcc List Decoder

/-! ## Commands as the source has them -/

structure MutationRecord where
  key : Bytes
  value : Bytes
  tombstone : Bool
  deriving DecidableEq, Repr

def MutationRecord.mutation (m : MutationRecord) : Mutation :=
  ⟨m.key, if m.tombstone then none else some m.value⟩

structure CommitTxnRecord where
  requestID : RequestID
  txnID : Nat
  startSeq : Nat
  mutations : List MutationRecord
  deriving DecidableEq, Repr

namespace CommitTxnRecord

/-- The command without the values of its tombstones. -/
def command (cmd : CommitTxnRecord) : CommitTxnCommand :=
  ⟨cmd.requestID, cmd.txnID, cmd.startSeq, cmd.mutations.map MutationRecord.mutation⟩

def encodeCommitBody (cmd : CommitTxnRecord) : Bytes :=
  putUint 8 cmd.txnID ++ (putUint 8 cmd.startSeq ++ (putUint 4 cmd.mutations.length ++
    cmd.mutations.flatMap fun m =>
      putUint 4 m.key.length ++ m.key ++
        if m.tombstone then [1] else 0 :: (putUint 4 m.value.length ++ m.value)))

def encodeCommitTxn (cmd : CommitTxnRecord) : Bytes :=
  commitTxnCommandVersion ::
    (putUint 4 cmd.requestID.length ++ cmd.requestID ++ cmd.encodeCommitBody)

def fingerprintOf (cmd : CommitTxnRecord) : Bytes := sum256 cmd.encodeCommitBody

theorem encodeCommitBody_command (cmd : CommitTxnRecord) :
    cmd.encodeCommitBody = Fsm.encodeCommitBody cmd.command := by
  have hput : ∀ m : MutationRecord, putUint 4 m.key.length ++ m.key ++
      (if m.tombstone then [1] else 0 :: (putUint 4 m.value.length ++ m.value)) =
        putMutation m.mutation := by
    intro m
    cases h : m.tombstone <;>
      simp [putMutation, MutationRecord.mutation, putValue, putString, h]
  simp only [encodeCommitBody, hput, Fsm.encodeCommitBody, command, length_map, flatMap_map]

theorem encodeCommitTxn_command (cmd : CommitTxnRecord) :
    cmd.encodeCommitTxn = Fsm.encodeCommitTxn cmd.command := by
  rw [encodeCommitTxn, encodeCommitBody_command]
  rfl

end CommitTxnRecord

/-! ## What is read back -/

/-- Numbers within their widths, and every field shorter than 4 GiB. -/
structure CommitTxnCommand.Sized (cmd : CommitTxnCommand) : Prop where
  requestID_lt : cmd.requestID.length < 2 ^ 32
  txnID_lt : cmd.txnID < 2 ^ 64
  startSeq_lt : cmd.startSeq < 2 ^ 64
  mutation : ∀ m ∈ cmd.mutations, MutationFits m

theorem times_getMutation_finished {ms : List Mutation} (h : ∀ m ∈ ms, MutationFits m) {k : Nat}
    (hk : k ≤ ms.length) (cmd : List Mutation → CommitTxnCommand) :
    Decoder.Reads (do
        let mutations ← times getMutation k 0
        finished fun n => CommandError.malformed (.trailingBytes n k)
        pure (cmd mutations)) (ms.flatMap putMutation) (k = ms.length) (cmd ms) [] := by
  have hitem : ∀ m ∈ ms.take k, ∀ i rest, getMutation i (putMutation m ++ rest) = .ok (m, rest) :=
    fun m hm i rest => getMutation_put (h m (mem_of_mem_take hm)) i rest
  have htimes := times_put hitem 0 ((ms.drop k).flatMap putMutation)
  rw [length_take, Nat.min_eq_left hk, ← flatMap_append, take_append_drop] at htimes
  refine .after htimes ⟨fun hall => ?_, fun hless => ?_⟩
  · rw [hall, drop_length, take_length]
    rfl
  · have hlen : 5 * (ms.drop k).length ≤ ((ms.drop k).flatMap putMutation).length :=
      length_flatMap_ge fun m _ => five_le_length_putMutation m
    rw [length_drop] at hlen
    exact ⟨_, bind_error (if_pos (by omega))⟩

/-- The mutations that fit are counted in 32 bits, so that the declared number is compared
with what is left over multiples of 20 GiB. -/
theorem getCommitTxn_reads {cmd : CommitTxnCommand} (h : cmd.Sized) :
    Decoder.Reads getCommitTxn (encodeCommitTxn cmd)
      (cmd.mutations.length ≤ (cmd.mutations.flatMap putMutation).length / 5 % 2 ^ 32) cmd [] := by
  set k := cmd.mutations.length % 2 ^ 32 with hk
  have hmod := Nat.mod_lt ((cmd.mutations.flatMap putMutation).length / 5)
    (show 2 ^ 32 > 0 by decide)
  have hrest := times_getMutation_finished h.mutation (Nat.mod_le _ (2 ^ 32))
    fun ms => ⟨cmd.requestID, cmd.txnID, cmd.startSeq, ms⟩
  have hread : Decoder.Reads getCommitTxn (encodeCommitTxn cmd)
      (k ≤ (cmd.mutations.flatMap putMutation).length / 5 % 2 ^ 32 ∧ k = cmd.mutations.length)
      cmd [] := by
    rw [getCommitTxn, encodeCommitTxn, encodeCommitBody]
    refine .after (need_ok ?_) <| .after (byte_cons _ _) <|
      .after (check_ok rfl) <| .after (string_putString h.requestID_lt _) <|
      .after (need_ok ?_) <| .after (uint_put h.txnID_lt _) <|
      .after (uint_put h.startSeq_lt _) <| .after (uint_put_mod 4 _ _) <|
      (checkCount_reads _ 5 _ _).bind hrest
    · simp [length_putString]
      omega
    · simp
      omega
  refine hread.congr ⟨fun hk => hk.2 ▸ hk.1, fun hle => ?_⟩
  have hall : k = cmd.mutations.length := Nat.mod_eq_of_lt (by omega)
  exact ⟨hall.symm ▸ hle, hall⟩

theorem decodeCommitTxn_encode_iff {cmd : CommitTxnCommand} (h : cmd.Sized) :
    decodeCommitTxn (encodeCommitTxn cmd) = .ok cmd ↔
      cmd.mutations.length ≤ (cmd.mutations.flatMap putMutation).length / 5 % 2 ^ 32 := by
  constructor
  · intro hok
    by_contra hcount
    obtain ⟨e, he⟩ := (getCommitTxn_reads h).2 hcount
    rw [decodeCommitTxn, he] at hok
    cases hok
  · intro hcount
    rw [decodeCommitTxn, (getCommitTxn_reads h).1 hcount]
    rfl

/-! ## Bodies and fingerprints -/

theorem encodeCommitBody_inj {cmd cmd' : CommitTxnCommand} (h : cmd.Sized) (h' : cmd'.Sized)
    (heq : encodeCommitBody cmd = encodeCommitBody cmd') :
    cmd' = { cmd with requestID := cmd'.requestID } := by
  obtain ⟨htxn, heq⟩ := append_inj heq (by simp)
  obtain ⟨hstart, heq⟩ := append_inj heq (by simp)
  obtain ⟨-, hmutations⟩ := append_inj heq (by simp)
  have hput : ∀ m, putMutation m ≠ [] := fun m hnil =>
    absurd (five_le_length_putMutation m) (by rw [hnil]; decide)
  have htxn' := congrArg getUint htxn
  have hstart' := congrArg getUint hstart
  rw [getUint_putUint_of_lt h.txnID_lt, getUint_putUint_of_lt h'.txnID_lt] at htxn'
  rw [getUint_putUint_of_lt h.startSeq_lt, getUint_putUint_of_lt h'.startSeq_lt] at hstart'
  have hms := flatMap_inj hput (fun m hm => getMutation_put (h.mutation m hm) 0)
    (fun m hm => getMutation_put (h'.mutation m hm) 0) hmutations
  rw [htxn', hstart', hms]

theorem length_encodeCommitBody (cmd : CommitTxnCommand) :
    (encodeCommitBody cmd).length = 20 + (cmd.mutations.flatMap putMutation).length := by
  simp only [encodeCommitBody, length_append, length_putUint]
  omega

namespace CommitTxnRecord

theorem decodeCommitTxn_encode_iff {cmd : CommitTxnRecord} (h : cmd.command.Sized) :
    decodeCommitTxn cmd.encodeCommitTxn = .ok cmd.command ↔
      cmd.mutations.length ≤ (cmd.encodeCommitBody.length - 20) / 5 % 2 ^ 32 := by
  have hlen : cmd.mutations.length = cmd.command.mutations.length := by simp [command]
  rw [encodeCommitTxn_command, Fsm.decodeCommitTxn_encode_iff h, encodeCommitBody_command,
    length_encodeCommitBody, Nat.add_sub_cancel_left, hlen]

theorem encodeCommitBody_eq_iff {cmd cmd' : CommitTxnRecord} (h : cmd.command.Sized)
    (h' : cmd'.command.Sized) :
    cmd.encodeCommitBody = cmd'.encodeCommitBody ↔
      cmd'.command = { cmd.command with requestID := cmd'.requestID } := by
  rw [encodeCommitBody_command, encodeCommitBody_command]
  constructor
  · exact encodeCommitBody_inj h h'
  · intro heq
    rw [heq]
    rfl

theorem command_eq_of_fingerprintOf {s : Set Bytes} (hs : Set.InjOn sum256 s)
    {cmd cmd' : CommitTxnRecord} (h : cmd.command.Sized) (h' : cmd'.command.Sized)
    (hmem : cmd.encodeCommitBody ∈ s) (hmem' : cmd'.encodeCommitBody ∈ s)
    (heq : cmd.fingerprintOf = cmd'.fingerprintOf) :
    cmd'.command = { cmd.command with requestID := cmd'.requestID } :=
  (encodeCommitBody_eq_iff h h').mp (hs hmem hmem' heq)

end CommitTxnRecord

/-! ## The reader with an offset -/

def getStringAt (e : Nat → Nat → CommandError) : Cursor CommandError Bytes := do
  let len ← Cursor.uint 4
  Cursor.need len (e len)
  Cursor.copy len

def getMutationAt (i : Nat) : Cursor CommandError Mutation := do
  let truncated := fun field => CommandError.malformed (.truncatedMutation i field)
  Cursor.need 4 fun _ => truncated .keyLength
  let key ← getStringAt fun declared remaining => truncated (.key declared remaining)
  Cursor.need 1 fun _ => truncated .tombstone
  let tombstone ← Cursor.byte
  if tombstone ≠ 0 then pure ⟨key, none⟩
  else
    Cursor.need 4 fun _ => truncated .valueLength
    let value ← getStringAt fun declared remaining => truncated (.value declared remaining)
    pure ⟨key, some value⟩

def getCommitTxnAt : Cursor CommandError CommitTxnCommand := do
  Cursor.need 5 fun n => .malformed (.payloadTooShort n 5)
  let version ← Cursor.byte
  Cursor.check (version = commitTxnCommandVersion)
    (.unsupportedVersion version commitTxnCommandVersion)
  let requestID ← getStringAt fun declared n => .malformed (.truncatedRequestID declared n)
  Cursor.need 20 fun n => .malformed (.truncatedBody n 20)
  let txnID ← Cursor.uint 8
  let startSeq ← Cursor.uint 8
  let numMutations ← Cursor.uint 4
  Cursor.checkCount numMutations 5 fun declared n => .malformed (.mutationCount declared n)
  Cursor.make numMutations
  let mutations ← Cursor.times getMutationAt numMutations 0
  Cursor.finished fun n => .malformed (.trailingBytes n numMutations)
  pure ⟨requestID, txnID, startSeq, mutations⟩

theorem getStringAt_refines (e : Nat → Nat → CommandError) :
    Cursor.Refines 4 (getStringAt e) (string e) fun _ => 0 :=
  (Cursor.Refines.uint 4 (m := 0)).bind fun len => (Cursor.Refines.need len _).bind fun _ =>
    Cursor.Refines.copy len (m := 0)

theorem getMutationAt_refines (i : Nat) :
    Cursor.Refines 0 (getMutationAt i) (getMutation i) fun _ => 0 := by
  refine (Cursor.Refines.need 4 _).bind fun _ => (getStringAt_refines _).bind fun key =>
    (Cursor.Refines.need 1 _).bind fun _ => (Cursor.Refines.byte (m := 0)).bind fun tombstone => ?_
  split
  · exact .pure _
  · exact (Cursor.Refines.need 4 _).bind fun _ => (getStringAt_refines _).bind fun value => .pure _

theorem getCommitTxnAt_refines :
    Cursor.Refines 0 getCommitTxnAt getCommitTxn fun _ => 0 :=
  (Cursor.Refines.need 5 _).bind fun _ => (Cursor.Refines.byte (m := 4)).bind fun _ =>
    (Cursor.Refines.check _).bind fun _ => (getStringAt_refines _).bind fun _ =>
      (Cursor.Refines.need 20 _).bind fun _ => (Cursor.Refines.uint 8 (m := 12)).bind fun _ =>
        (Cursor.Refines.uint 8 (m := 4)).bind fun _ =>
          (Cursor.Refines.uint 4 (m := 0)).bind fun count =>
            Cursor.Refines.checkCount_make count 5 _ <|
              (Cursor.Refines.times getMutationAt_refines count 0).bind fun _ =>
                (Cursor.Refines.finished _).bind fun _ => .pure _

theorem getCommitTxnAt_result (b : Bytes) :
    Checked.Refines (fun r cmd => r.1 = cmd) (getCommitTxnAt b 0).result (decodeCommitTxn b) := by
  have hresult := getCommitTxnAt_refines.result b
  rw [decodeCommitTxn]
  cases hget : getCommitTxn b with
  | error e =>
    rw [hget] at hresult
    exact hresult
  | ok r =>
    rw [hget] at hresult
    exact hresult

end ChronicleDB.Fsm
