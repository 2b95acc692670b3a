import ChronicleDB.Foundation.Cursor
import ChronicleDB.Raft.Transitions

/-!
# The bytes of a configuration change

Each configuration change has one payload, and a payload that is accepted is that of
the change it is read as.  The reader is also written here as the source has it, with
an offset into the payload, to see that it stays within it.
-/

namespace ChronicleDB.Raft

open Foundation Decoder
open Snapshots (encodeConfiguration decodeConfiguration getString getMember
  getMemberList getMembers eq_putString_of_getString eq_encodeConfiguration_of_decode SnapshotError)

/-! ## Accepted payloads -/

theorem eq_putLenPrefixed_of_get {b s rest : Bytes} (h : getLenPrefixed b = .ok (s, rest)) :
    b = putLenPrefixed s ++ rest ∧ s.length < 2 ^ 32 := by
  unfold getLenPrefixed at h
  split at h
  · cases h
  case h_2 r hr =>
    cases h
    obtain ⟨hb, hlt⟩ := eq_putString_of_getString hr
    exact ⟨by rw [hb, putLenPrefixed, List.append_assoc], hlt⟩

theorem checkConfigChange_cases {kind : UInt8} {requestID targetID addr cfgB : Bytes}
    {change : ConfigChange} (h : checkConfigChange kind requestID targetID addr cfgB = .ok change) :
    (∃ k cfg, kind = wireKindFor k ∧ cfgB = encodeConfiguration cfg ∧ cfg.voters ≠ [] ∧
      change = ⟨kind, requestID, targetID, addr, some cfg⟩) ∨
    (kind = membershipKindVoided ∧ cfgB = [] ∧ requestID = [] ∧ targetID = [] ∧ addr = [] ∧
      change = ⟨membershipKindVoided, [], [], [], none⟩) := by
  unfold checkConfigChange at h
  split at h
  case isTrue hkind =>
    left
    split at h
    · cases h
    case h_2 cfg hcfg =>
      split at h
      · cases h
      case isFalse hvoters =>
        cases h
        have hvoters' : cfg.voters ≠ [] := fun hnil => hvoters (by rw [hnil]; rfl)
        have hk : ∃ k, kind = wireKindFor k := by
          rcases hkind with rfl | rfl | rfl
          · exact ⟨.addLearner, rfl⟩
          · exact ⟨.promoteToVoter, rfl⟩
          · exact ⟨.removeServer, rfl⟩
        obtain ⟨k, hk⟩ := hk
        exact ⟨k, cfg, hk, eq_encodeConfiguration_of_decode hcfg, hvoters', rfl⟩
  case isFalse =>
    right
    split at h
    case isTrue hvoided =>
      split at h
      · cases h
      case isFalse hfields =>
        cases h
        simp only [not_or, not_not, List.length_eq_zero_iff] at hfields
        obtain ⟨hcfg, hrequest, htarget, haddr⟩ := hfields
        subst hcfg hrequest htarget haddr
        exact ⟨hvoided, rfl, rfl, rfl, rfl, by rw [hvoided]⟩
    case isFalse => cases h

theorem decodeConfigChange_fields {b : Bytes} {change : ConfigChange}
    (h : decodeConfigChange b = .ok change) :
    ∃ kind requestID targetID addr cfgB,
      b = controlCommandMarkerMirror :: kind :: (putLenPrefixed requestID ++
        (putLenPrefixed targetID ++ (putLenPrefixed addr ++ putLenPrefixed cfgB))) ∧
      requestID.length < 2 ^ 32 ∧ targetID.length < 2 ^ 32 ∧ addr.length < 2 ^ 32 ∧
      cfgB.length < 2 ^ 32 ∧ checkConfigChange kind requestID targetID addr cfgB = .ok change := by
  unfold decodeConfigChange at h
  split at h
  case h_2 => cases h
  case h_1 marker kind b =>
    split at h
    · cases h
    case isFalse hmarker =>
      split at h
      · cases h
      case h_2 requestID b₁ hrequest =>
        split at h
        · cases h
        case h_2 targetID b₂ htarget =>
          split at h
          · cases h
          case h_2 addr b₃ haddr =>
            split at h
            · cases h
            case h_2 cfgB b₄ hcfg =>
              split at h
              · cases h
              case isFalse hrest =>
                obtain ⟨hb, hrequest⟩ := eq_putLenPrefixed_of_get hrequest
                obtain ⟨hb₁, htarget⟩ := eq_putLenPrefixed_of_get htarget
                obtain ⟨hb₂, haddr⟩ := eq_putLenPrefixed_of_get haddr
                obtain ⟨hb₃, hcfg⟩ := eq_putLenPrefixed_of_get hcfg
                have hnil : b₄ = [] := List.length_eq_zero_iff.mp (not_not.mp hrest)
                refine ⟨kind, requestID, targetID, addr, cfgB, ?_, hrequest, htarget, haddr, hcfg, h⟩
                rw [not_not.mp hmarker, hb, hb₁, hb₂, hb₃, hnil, List.append_nil]

theorem decodeConfigChange_cases {b : Bytes} {change : ConfigChange}
    (h : decodeConfigChange b = .ok change) :
    (∃ k cfg, change = ⟨wireKindFor k, change.requestID, change.targetID, change.targetAddr,
        some cfg⟩ ∧ cfg.voters ≠ [] ∧
      b = encodeConfigChange (wireKindFor k) change.requestID change.targetID change.targetAddr cfg ∧
      change.requestID.length < 2 ^ 32 ∧ change.targetID.length < 2 ^ 32 ∧
      change.targetAddr.length < 2 ^ 32 ∧ (encodeConfiguration cfg).length < 2 ^ 32) ∨
    (change = ⟨membershipKindVoided, [], [], [], none⟩ ∧ b = encodeVoidedEntryConfigPayload) := by
  obtain ⟨kind, requestID, targetID, addr, cfgB, hb, hrequest, htarget, haddr, hcfgB, hcheck⟩ :=
    decodeConfigChange_fields h
  rcases checkConfigChange_cases hcheck with
    ⟨k, cfg, rfl, rfl, hvoters, rfl⟩ | ⟨rfl, rfl, rfl, rfl, rfl, rfl⟩
  · exact .inl ⟨k, cfg, rfl, hvoters, hb, hrequest, htarget, haddr, hcfgB⟩
  · exact .inr ⟨rfl, hb⟩

/-! ## The reader with an offset -/

def getLenPrefixedAt : Cursor ConfigChangeError Bytes := do
  Cursor.need 4 fun _ => .malformed
  let n ← Cursor.uint 4
  Cursor.need n fun _ => .malformed
  Cursor.slice n

def getMemberAt : Cursor ConfigChangeError Member := do
  let id ← getLenPrefixedAt
  let address ← getLenPrefixedAt
  pure ⟨id, address⟩

def getMembersAt : Cursor ConfigChangeError (List Member) := do
  Cursor.need 4 fun _ => .malformed
  let count ← Cursor.uint 4
  Cursor.checkCount count 8 fun _ _ => .malformed
  Cursor.make count
  Cursor.times (fun _ => getMemberAt) count 0

def decodeConfigurationAt : Cursor ConfigChangeError Configuration := do
  let voters ← getMembersAt
  let learners ← getMembersAt
  Cursor.finished fun _ => .malformed
  pure ⟨voters, learners⟩

def getFieldsAt : Cursor ConfigChangeError (UInt8 × Bytes × Bytes × Bytes × Bytes) := do
  Cursor.need 2 fun _ => .malformed
  let marker ← Cursor.byte
  Cursor.check (marker = controlCommandMarkerMirror) .malformed
  let kind ← Cursor.byte
  let requestID ← getLenPrefixedAt
  let targetID ← getLenPrefixedAt
  let targetAddr ← getLenPrefixedAt
  let cfgB ← getLenPrefixedAt
  Cursor.finished fun _ => .malformed
  pure (kind, requestID, targetID, targetAddr, cfgB)

def checkConfigChangeAt (kind : UInt8) (requestID targetID targetAddr cfgB : Bytes) :
    Checked ConfigChangeError ConfigChange :=
  if kind = membershipKindAddLearner ∨ kind = membershipKindPromoteVoter ∨
      kind = membershipKindRemoveServer then do
    let (cfg, _) ← (decodeConfigurationAt cfgB 0).result
    if cfg.voters.length = 0 then .error (.panic .malformed)
    else .ok ⟨kind, requestID, targetID, targetAddr, some cfg⟩
  else if kind = membershipKindVoided then
    if cfgB.length ≠ 0 ∨ requestID.length ≠ 0 ∨ targetID.length ≠ 0 ∨ targetAddr.length ≠ 0 then
      .error (.panic .malformed)
    else .ok ⟨kind, requestID, targetID, targetAddr, none⟩
  else .error (.panic (.unknownKind kind))

def decodeConfigChangeAt (b : Bytes) : Checked ConfigChangeError ConfigChange := do
  let ((kind, requestID, targetID, targetAddr, cfgB), _) ← (getFieldsAt b 0).result
  checkConfigChangeAt kind requestID targetID targetAddr cfgB

/-! ## The reader stays within the payload -/

theorem getLenPrefixed_eq : getLenPrefixed = (do
    need 4 fun _ => .malformed
    let n ← uint 4
    need n fun _ => .malformed
    bytes n : Decoder ConfigChangeError Bytes) := by
  funext b
  rw [getLenPrefixed, getString]
  by_cases hheader : b.length < 4
  · rw [if_pos hheader, bind_error (if_pos hheader)]
  · rw [if_neg hheader, bind_ok (need_ok (Nat.not_lt.mp hheader)),
      bind_ok (show uint 4 b = .ok (getUint (b.take 4), b.drop 4) from rfl)]
    dsimp only
    by_cases hfits : getUint (b.take 4) > (b.drop 4).length
    · rw [if_pos hfits, bind_error (if_pos hfits)]
    · rw [if_neg hfits, bind_ok (need_ok (Nat.not_lt.mp hfits))]
      rfl

theorem getLenPrefixedAt_refines :
    Cursor.Refines 0 getLenPrefixedAt getLenPrefixed fun _ => 0 := by
  rw [getLenPrefixed_eq]
  exact (Cursor.Refines.need 4 _).bind fun _ => (Cursor.Refines.uint (m := 0) 4).bind fun n =>
    (Cursor.Refines.need n _).bind fun _ => .slice (m := 0) n

def memberDecoder : Decoder ConfigChangeError Member := do
  let id ← getLenPrefixed
  let address ← getLenPrefixed
  pure ⟨id, address⟩

def membersDecoder : Decoder ConfigChangeError (List Member) := do
  Decoder.need 4 fun _ => .malformed
  let count ← Decoder.uint 4
  Decoder.checkCount count 8 fun _ _ => .malformed
  Decoder.times (fun _ => memberDecoder) count 0

def configurationDecoder : Decoder ConfigChangeError Configuration := do
  let voters ← membersDecoder
  let learners ← membersDecoder
  Decoder.finished fun _ => .malformed
  pure ⟨voters, learners⟩

/-- All errors inside a configuration are reported as one. -/
def malformed {α : Type} (r : Except SnapshotError α) : Except ConfigChangeError α :=
  r.mapError fun _ => .malformed

theorem getLenPrefixed_eq_malformed (b : Bytes) : getLenPrefixed b = malformed (getString b) := by
  rw [getLenPrefixed]
  cases getString b <;> rfl

theorem malformed_getMember (b : Bytes) : malformed (getMember b) = memberDecoder b := by
  unfold memberDecoder getMember
  cases hid : getString b with
  | error e =>
    rw [bind_error (by rw [getLenPrefixed_eq_malformed, hid]; rfl)]
    rfl
  | ok r =>
    rw [bind_ok (by rw [getLenPrefixed_eq_malformed, hid]; rfl)]
    dsimp only
    cases haddress : getString r.2 with
    | error e =>
      rw [bind_error (by rw [getLenPrefixed_eq_malformed, haddress]; rfl)]
      rfl
    | ok r' =>
      rw [bind_ok (by rw [getLenPrefixed_eq_malformed, haddress]; rfl)]
      rfl

theorem malformed_getMemberList (count i : Nat) (b : Bytes) :
    malformed (getMemberList count b) = times (fun _ => memberDecoder) count i b := by
  induction count generalizing i b with
  | zero => rfl
  | succ count ih =>
    rw [getMemberList, times]
    cases hm : getMember b with
    | error e =>
      rw [bind_error (by rw [← malformed_getMember, hm]; rfl)]
      rfl
    | ok r =>
      rw [bind_ok (by rw [← malformed_getMember, hm]; rfl)]
      dsimp only
      cases hms : getMemberList count r.2 with
      | error e =>
        rw [bind_error (by rw [← ih (i + 1), hms]; rfl)]
        rfl
      | ok r' =>
        rw [bind_ok (by rw [← ih (i + 1), hms]; rfl)]
        rfl

theorem malformed_getMembers (b : Bytes) : malformed (getMembers b) = membersDecoder b := by
  unfold getMembers membersDecoder
  by_cases hheader : b.length < 4
  · rw [if_pos hheader, bind_error (if_pos hheader)]
    rfl
  · rw [if_neg hheader, bind_ok (need_ok (Nat.not_lt.mp hheader)),
      bind_ok (show uint 4 b = .ok (getUint (b.take 4), b.drop 4) from rfl)]
    dsimp only
    by_cases hcount : getUint (b.take 4) > (b.drop 4).length / 8 % 2 ^ 32
    · rw [if_pos hcount, bind_error (if_pos hcount)]
      rfl
    · rw [if_neg hcount, bind_ok (checkCount_ok (Nat.not_lt.mp hcount)),
        malformed_getMemberList]

theorem malformed_decodeConfiguration (b : Bytes) :
    malformed (decodeConfiguration b) = (configurationDecoder b).map (·.1) := by
  unfold decodeConfiguration configurationDecoder
  cases hvoters : getMembers b with
  | error e =>
    rw [bind_error (by rw [← malformed_getMembers, hvoters]; rfl)]
    rfl
  | ok r =>
    rw [bind_ok (by rw [← malformed_getMembers, hvoters]; rfl)]
    dsimp only
    cases hlearners : getMembers r.2 with
    | error e =>
      rw [bind_error (by rw [← malformed_getMembers, hlearners]; rfl)]
      rfl
    | ok r' =>
      rw [bind_ok (by rw [← malformed_getMembers, hlearners]; rfl)]
      dsimp only
      by_cases hrest : r'.2.length ≠ 0
      · rw [if_pos hrest, bind_error (if_pos hrest)]
        rfl
      · rw [if_neg hrest, bind_ok (if_neg hrest)]
        rfl

theorem decodeConfigurationAt_refines :
    Cursor.Refines 0 decodeConfigurationAt configurationDecoder fun _ => 0 := by
  have hmember : Cursor.Refines 0 getMemberAt memberDecoder fun _ => 0 :=
    getLenPrefixedAt_refines.bind fun _ => getLenPrefixedAt_refines.bind fun _ => .pure _
  have hmembers : Cursor.Refines 0 getMembersAt membersDecoder fun _ => 0 :=
    (Cursor.Refines.need 4 _).bind fun _ => (Cursor.Refines.uint (m := 0) 4).bind fun count =>
      .checkCount_make count 8 _ (.times (fun _ => hmember) count 0)
  exact hmembers.bind fun _ => hmembers.bind fun _ => (Cursor.Refines.finished _).bind fun _ =>
    .pure _

def fieldsDecoder : Decoder ConfigChangeError (UInt8 × Bytes × Bytes × Bytes × Bytes) := do
  Decoder.need 2 fun _ => .malformed
  let marker ← Decoder.byte
  Decoder.check (marker = controlCommandMarkerMirror) .malformed
  let kind ← Decoder.byte
  let requestID ← getLenPrefixed
  let targetID ← getLenPrefixed
  let targetAddr ← getLenPrefixed
  let cfgB ← getLenPrefixed
  Decoder.finished fun _ => .malformed
  pure (kind, requestID, targetID, targetAddr, cfgB)

theorem getFieldsAt_refines : Cursor.Refines 0 getFieldsAt fieldsDecoder fun _ => 0 :=
  (Cursor.Refines.need 2 _).bind fun _ => (Cursor.Refines.byte (m := 1)).bind fun _ =>
    (Cursor.Refines.check _).bind fun _ => (Cursor.Refines.byte (m := 0)).bind fun _ =>
      getLenPrefixedAt_refines.bind fun _ => getLenPrefixedAt_refines.bind fun _ =>
        getLenPrefixedAt_refines.bind fun _ => getLenPrefixedAt_refines.bind fun _ =>
          (Cursor.Refines.finished _).bind fun _ => .pure _

theorem decodeConfigChange_eq (b : Bytes) :
    decodeConfigChange b = fieldsDecoder b >>= fun r =>
      checkConfigChange r.1.1 r.1.2.1 r.1.2.2.1 r.1.2.2.2.1 r.1.2.2.2.2 := by
  unfold decodeConfigChange fieldsDecoder
  match b with
  | [] => rfl
  | [_] => rfl
  | marker :: kind :: b =>
    rw [bind_ok (need_ok (by simp)), bind_ok (byte_cons _ _)]
    by_cases hmarker : marker = controlCommandMarkerMirror
    · rw [bind_ok (check_ok hmarker), bind_ok (byte_cons _ _)]
      simp only [hmarker, ne_eq, not_true, if_false]
      cases hrequest : getLenPrefixed b with
      | error e => rw [bind_error hrequest]; rfl
      | ok r₁ =>
        rw [bind_ok hrequest]
        dsimp only
        cases htarget : getLenPrefixed r₁.2 with
        | error e => rw [bind_error htarget]; rfl
        | ok r₂ =>
          rw [bind_ok htarget]
          dsimp only
          cases haddr : getLenPrefixed r₂.2 with
          | error e => rw [bind_error haddr]; rfl
          | ok r₃ =>
            rw [bind_ok haddr]
            dsimp only
            cases hcfg : getLenPrefixed r₃.2 with
            | error e => rw [bind_error hcfg]; rfl
            | ok r₄ =>
              rw [bind_ok hcfg]
              dsimp only
              by_cases hrest : r₄.2.length ≠ 0
              · rw [if_pos hrest, bind_error (if_pos hrest)]
                rfl
              · rw [if_neg hrest, bind_ok (if_neg hrest)]
                rfl
    · rw [bind_error (if_neg hmarker)]
      simp only [ne_eq, hmarker, not_false_eq_true, if_true]
      rfl

theorem checkConfigChangeAt_refines (kind : UInt8) (requestID targetID targetAddr cfgB : Bytes) :
    Checked.Refines Eq (checkConfigChangeAt kind requestID targetID targetAddr cfgB)
      (checkConfigChange kind requestID targetID targetAddr cfgB) := by
  unfold checkConfigChangeAt checkConfigChange
  split
  · have hcfg := decodeConfigurationAt_refines.result cfgB
    have hmalformed := malformed_decodeConfiguration cfgB
    cases hdecoder : configurationDecoder cfgB with
    | error e =>
      rw [hdecoder] at hcfg hmalformed
      rw [Checked.Refines] at hcfg
      rw [hcfg]
      cases hdecode : decodeConfiguration cfgB with
      | ok cfg =>
        rw [hdecode] at hmalformed
        cases hmalformed
      | error e' =>
        rw [hdecode] at hmalformed
        cases hmalformed
        exact rfl
    | ok r =>
      rw [hdecoder] at hcfg hmalformed
      obtain ⟨⟨cfg, off⟩, hresult, rfl⟩ := hcfg
      rw [hresult]
      cases hdecode : decodeConfiguration cfgB with
      | error e =>
        rw [hdecode] at hmalformed
        cases hmalformed
      | ok cfg' =>
        rw [hdecode] at hmalformed
        cases hmalformed
        dsimp only [Checked.ok_bind]
        split
        · exact rfl
        · exact ⟨_, rfl, rfl⟩
  · split
    · split
      · exact rfl
      · exact ⟨_, rfl, rfl⟩
    · exact rfl

theorem decodeConfigChangeAt_refines (b : Bytes) :
    Checked.Refines Eq (decodeConfigChangeAt b) (decodeConfigChange b) := by
  rw [decodeConfigChange_eq]
  refine Checked.Refines.bind (getFieldsAt_refines.result b) fun p q _ hpq => ?_
  obtain ⟨⟨kind, requestID, targetID, targetAddr, cfgB⟩, off⟩ := p
  dsimp only at hpq
  rw [← hpq]
  exact checkConfigChangeAt_refines kind requestID targetID targetAddr cfgB

/-! ## One payload for each change -/

/-- A change with a voter is read back exactly if its fields are shorter than 4 GiB; what is
accepted is the voided payload or the payload of the change it is read as, which has a voter; and
the reader never leaves the payload. -/
theorem configChange_canonical :
    (∀ kind requestID targetID targetAddr cfg, cfg.voters ≠ [] →
      (decodeConfigChange
          (encodeConfigChange (wireKindFor kind) requestID targetID targetAddr cfg) =
        .ok ⟨wireKindFor kind, requestID, targetID, targetAddr, some cfg⟩ ↔
      requestID.length < 2 ^ 32 ∧ targetID.length < 2 ^ 32 ∧ targetAddr.length < 2 ^ 32 ∧
        (encodeConfiguration cfg).length < 2 ^ 32)) ∧
    (∀ b change, decodeConfigChange b = .ok change →
      (b = encodeVoidedEntryConfigPayload ∧ change.cfg = none) ∨
      ∃ cfg, change.cfg = some cfg ∧ cfg.voters ≠ [] ∧
        encodeConfigChange change.kind change.requestID change.targetID change.targetAddr cfg = b) ∧
    ∀ b, Checked.Refines Eq (decodeConfigChangeAt b) (decodeConfigChange b) := by
  refine ⟨fun kind requestID targetID targetAddr cfg hvoters => ⟨fun h => ?_, fun h => ?_⟩,
    fun b change h => ?_, decodeConfigChangeAt_refines⟩
  · rcases decodeConfigChange_cases h with ⟨k, cfg', hchange, -, -, hlengths⟩ | ⟨hchange, -⟩
    · injection hchange with _ hrequest htarget haddr hcfg
      rw [hrequest, htarget, haddr, Option.some.inj hcfg]
      exact hlengths
    · injection hchange with _ _ _ _ hcfg
      cases hcfg
  · exact decodeConfigChange_encode_of_lt hvoters h.1 h.2.1 h.2.2.1 h.2.2.2
  · rcases decodeConfigChange_cases h with ⟨k, cfg, hchange, hvoters, hb, -⟩ | ⟨hchange, hb⟩
    · rw [hchange]
      exact .inr ⟨cfg, rfl, hvoters, hb.symm⟩
    · exact .inl ⟨hb, by rw [hchange]⟩

theorem configChange_canonical_learner :
    ∃ b, decodeConfigChange b = .ok ⟨membershipKindAddLearner, [9], [2], [7],
        some ⟨[⟨[1], []⟩], [⟨[2], [7]⟩]⟩⟩ ∧
      encodeConfigChange membershipKindAddLearner [9] [2] [7] ⟨[⟨[1], []⟩], [⟨[2], [7]⟩]⟩ = b := by
  obtain ⟨hread, haccepted, -⟩ := configChange_canonical
  have hok := (hread .addLearner [9] [2] [7] ⟨[⟨[1], []⟩], [⟨[2], [7]⟩]⟩ (by simp)).mpr (by decide)
  refine ⟨_, hok, ?_⟩
  rcases haccepted _ _ hok with ⟨-, hnone⟩ | ⟨cfg, hcfg, -, hb⟩
  · cases hnone
  · cases hcfg
    exact hb

/-- A RequestID of 4 GiB is not read back. -/
theorem configChange_long_requestID :
    ∃ requestID : Bytes, ∃ cfg : Configuration, cfg.voters ≠ [] ∧
      decodeConfigChange
          (encodeConfigChange (wireKindFor .addLearner) requestID [2] [] cfg) ≠
        .ok ⟨wireKindFor .addLearner, requestID, [2], [], some cfg⟩ := by
  refine ⟨List.replicate (2 ^ 32) 0, ⟨[⟨[1], []⟩], []⟩, by simp, fun h => ?_⟩
  rcases decodeConfigChange_cases h with ⟨k, cfg, hchange, -, -, hlength, -⟩ | ⟨hchange, -⟩
  · rw [List.length_replicate] at hlength
    exact absurd hlength (lt_irrefl _)
  · cases hchange

end ChronicleDB.Raft
