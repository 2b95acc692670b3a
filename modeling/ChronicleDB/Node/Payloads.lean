import ChronicleDB.Fsm.Payloads
import ChronicleDB.Node.Mirror
import ChronicleDB.Raft.Membership

/-!
# Payloads of log entries

Commands and configuration changes inside the payload of a log entry
(`internal/node/storage.go`), which is typed exactly if its ninth byte is the
sentinel.
-/

namespace ChronicleDB.Node

open Foundation Fsm Raft List

/-- What a node appends to its log: the commands of `Propose` and of the control proposals, the
configuration changes of a leader, and the entries that a restore has voided. -/
inductive Appendable : EntryType → Bytes → Prop
  | commit (cmd : CommitTxnRecord) : Appendable .normal cmd.encodeCommitTxn
  | setClusterVersion (cmd : SetClusterVersionCommand) :
      Appendable .normal (encodeSetClusterVersion cmd)
  | advanceGCWatermark (cmd : AdvanceGCWatermarkCommand) :
      Appendable .normal (encodeAdvanceGCWatermark cmd)
  | configChange (kind : MembershipChangeKind) (requestID targetID targetAddr : Bytes)
      (cfg : Configuration) :
      Appendable .config (encodeConfigChange (wireKindFor kind) requestID targetID targetAddr cfg)
  | voided : Appendable .config encodeVoidedEntryConfigPayload

/-- No command begins with the sentinel. -/
theorem Appendable.untyped {typ : EntryType} {data : Bytes} (h : Appendable typ data) :
    typ = .normal → data.head? ≠ some entryPayloadTypeSentinel := by
  intro htyp
  cases h with
  | commit cmd => simp [CommitTxnRecord.encodeCommitTxn, commitTxnCommandVersion,
      entryPayloadTypeSentinel]
  | setClusterVersion cmd => simp [encodeSetClusterVersion, controlCommandMarker,
      entryPayloadTypeSentinel]
  | advanceGCWatermark cmd => simp [encodeAdvanceGCWatermark, controlCommandMarker,
      entryPayloadTypeSentinel]
  | configChange => cases htyp
  | voided => cases htyp

theorem ninth_encodeEntryPayload {typ : EntryType} {data : Bytes} (h : Appendable typ data)
    (term : Nat) :
    (encodeEntryPayload term typ data)[8]? = some entryPayloadTypeSentinel ↔ typ = .config := by
  cases typ with
  | config => simp [encodeEntryPayload]
  | normal =>
    have huntyped := h.untyped rfl
    rw [head?_eq_getElem?] at huntyped
    rw [encodeEntryPayload, getElem?_append_right (by simp), length_putUint]
    simpa using huntyped

/-- Commit commands, their bodies and the payloads of log entries are unambiguous.  Only the
check of the number of mutations refuses commands that were encoded: it counts in 32 bits. -/
theorem payloads_unambiguous (cmd : CommitTxnRecord) (hcmd : cmd.command.Sized) :
    (decodeCommitTxn cmd.encodeCommitTxn = .ok cmd.command ↔
      cmd.mutations.length ≤
        (cmd.encodeCommitBody.length - 20) / 5 % 2 ^ 32) ∧
    (∀ cmd' : CommitTxnRecord, cmd'.command.Sized →
      (cmd.encodeCommitBody = cmd'.encodeCommitBody ↔
        cmd'.command = { cmd.command with requestID := cmd'.requestID })) ∧
    (∀ s : Set Bytes, Set.InjOn sum256 s → ∀ cmd' : CommitTxnRecord, cmd'.command.Sized →
      cmd.encodeCommitBody ∈ s → cmd'.encodeCommitBody ∈ s →
      cmd.fingerprintOf = cmd'.fingerprintOf →
        cmd'.command = { cmd.command with requestID := cmd'.requestID }) ∧
    (∀ term typ data, term < 2 ^ 64 → Appendable typ data →
      decodeEntryPayload (encodeEntryPayload term typ data) = .ok (term, typ, data) ∧
      ((encodeEntryPayload term typ data)[8]? = some entryPayloadTypeSentinel ↔ typ = .config)) ∧
    ∀ b, Checked.Refines (fun r cmd => r.1 = cmd) (getCommitTxnAt b 0).result (decodeCommitTxn b) ∧
      (∀ n ∈ (getCommitTxnAt b 0).made, n ≤ b.length) ∧
      (getCommitTxnAt b 0).copied ≤ b.length := by
  refine ⟨CommitTxnRecord.decodeCommitTxn_encode_iff hcmd,
    fun cmd' hcmd' => CommitTxnRecord.encodeCommitBody_eq_iff hcmd hcmd',
    fun s hs cmd' hcmd' => CommitTxnRecord.command_eq_of_fingerprintOf hs hcmd hcmd',
    fun term typ data hterm hdata => ?_, fun b => ?_⟩
  · exact ⟨decodeEntryPayload_encode hterm hdata.untyped, ninth_encodeEntryPayload hdata term⟩
  · exact ⟨getCommitTxnAt_result b, getCommitTxnAt_refines.allocates b⟩

def writeAndDelete : CommitTxnRecord := ⟨[7], 1, 2, [⟨[1], [5], false⟩, ⟨[2], [6], true⟩]⟩

theorem writeAndDelete_sized : writeAndDelete.command.Sized where
  requestID_lt := by decide
  txnID_lt := by decide
  startSeq_lt := by decide
  mutation := by
    intro m hm
    simp only [writeAndDelete, CommitTxnRecord.command, map_cons, map_nil,
      mem_cons, not_mem_nil, or_false] at hm
    rcases hm with rfl | rfl
    · exact ⟨by decide, fun v hv => by cases hv; decide⟩
    · exact ⟨by decide, fun v hv => by cases hv⟩

theorem writeAndDelete_unambiguous :
    decodeCommitTxn writeAndDelete.encodeCommitTxn =
        .ok ⟨[7], 1, 2, [⟨[1], some [5]⟩, ⟨[2], none⟩]⟩ ∧
      decodeEntryPayload (encodeEntryPayload 3 .normal writeAndDelete.encodeCommitTxn) =
        .ok (3, .normal, writeAndDelete.encodeCommitTxn) := by
  obtain ⟨hread, -, -, hentry, -⟩ := payloads_unambiguous writeAndDelete writeAndDelete_sized
  exact ⟨hread.mpr (by decide), (hentry 3 .normal _ (by decide) (.commit _)).1⟩

/-! ## A command that is not read back -/

def threeWrites (n : Nat) : CommitTxnRecord :=
  ⟨[7], 1, 2, [0, 1, 2].map fun x => ⟨List.replicate n x, List.replicate n x, false⟩⟩

theorem threeWrites_sized {n : Nat} (h : n < 2 ^ 32) : (threeWrites n).command.Sized where
  requestID_lt := by simp [threeWrites, CommitTxnRecord.command]
  txnID_lt := by simp [threeWrites, CommitTxnRecord.command]
  startSeq_lt := by simp [threeWrites, CommitTxnRecord.command]
  mutation := by
    intro m hm
    obtain ⟨r, hr, rfl⟩ := mem_map.mp hm
    obtain ⟨x, -, rfl⟩ := mem_map.mp hr
    refine ⟨by simpa [MutationRecord.mutation] using h, fun v hv => ?_⟩
    obtain rfl : replicate n x = v := Option.some.inj hv
    simpa using h

theorem length_threeWrites (n : Nat) :
    (threeWrites n).encodeCommitBody.length = 20 + 3 * (9 + 2 * n) := by
  simp [CommitTxnRecord.encodeCommitBody, threeWrites]
  omega

/-- Three writes of 20 GiB together: what is left divided by five is zero in 32 bits. -/
theorem threeWrites_refused :
    ∃ cmd : CommitTxnRecord, cmd.command.Sized ∧ cmd.mutations.length = 3 ∧
      decodeCommitTxn cmd.encodeCommitTxn ≠ .ok cmd.command := by
  have hsized : (threeWrites 3579139409).command.Sized := threeWrites_sized (by decide)
  refine ⟨threeWrites 3579139409, hsized, rfl, fun h => ?_⟩
  have hcount := (CommitTxnRecord.decodeCommitTxn_encode_iff hsized).mp h
  rw [length_threeWrites] at hcount
  exact absurd hcount (by decide)

end ChronicleDB.Node
