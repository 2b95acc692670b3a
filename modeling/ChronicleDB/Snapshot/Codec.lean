import ChronicleDB.Raft.Types

/-!
# Snapshot files

`internal/snapshot/snapshot.go`: one checksummed frame with the boundary, the
state of the state machine and, from version 2 on, the configuration at the
boundary.  The package mirrors `raft.Configuration`; the model uses that type
itself.  The state machine's own codec is a parameter.
-/

namespace ChronicleDB.Snapshots

open Foundation Raft List

variable {b rest : Bytes} {ms : List Member} {cfg : Configuration} {v : UInt8}

/-- `EncodeState` and `DecodeState` of the state machine. Decoding also returns the
largest commit sequence number that the state refers to. -/
structure FSMFormat (F : Type) where
  encodeState : F → Bytes
  decodeState : Bytes → Option (F × Nat)

/-- A format that recovers every state, and what is asked of a state. -/
structure FSMCodec (F : Type) extends FSMFormat F where
  maxSeq : F → Nat
  clusterGeneration : F → Nat
  decodeState_encodeState : ∀ f, decodeState (encodeState f) = some (f, maxSeq f)

instance {F : Type} : CoeOut (FSMCodec F) (FSMFormat F) := ⟨FSMCodec.toFSMFormat⟩

structure Meta where
  lastIncludedIndex : Nat
  lastIncludedTerm : Nat
  hasConfiguration : Bool
  configuration : Configuration
  deriving DecidableEq, Repr

variable {info : Meta}

structure Snapshot (F : Type) where
  info : Meta
  fsm : F
  deriving DecidableEq, Repr

def formatVersion : UInt8 := 2
def minReadVersion : UInt8 := 1
def magic : Bytes := [67, 83, 78, 80]
def headerSize : Nat := 29
def checksumSize : Nat := 4

/-! ## Encoding -/

def putMember (m : Member) : Bytes :=
  putUint 4 m.id.length ++ (m.id ++ (putUint 4 m.address.length ++ m.address))

def putMembers (members : List Member) : Bytes :=
  putUint 4 members.length ++ members.flatMap putMember

def encodeConfiguration (cfg : Configuration) : Bytes :=
  putMembers cfg.voters ++ putMembers cfg.learners

def encodeConfigSection (hasConfig : Bool) (cfg : Configuration) : Bytes :=
  let cfgBytes := if hasConfig then encodeConfiguration cfg else []
  (if hasConfig then 1 else 0) :: (putUint 8 cfgBytes.length ++ cfgBytes)

def frameBody (info : Meta) (state : Bytes) (writeVersion : UInt8) : Bytes :=
  magic ++ writeVersion :: (putUint 8 info.lastIncludedIndex ++
    (putUint 8 info.lastIncludedTerm ++ (putUint 8 state.length ++ (state ++
      if writeVersion ≥ 2 then
        encodeConfigSection info.hasConfiguration info.configuration else []))))

/-- A write version outside the supported range is a programming error: the
source panics there. -/
def encode {F : Type} (codec : FSMFormat F) (info : Meta) (f : F) (writeVersion : UInt8) :
    Option Bytes :=
  if writeVersion < minReadVersion ∨ writeVersion > formatVersion then none
  else
    let body := frameBody info (codec.encodeState f) writeVersion
    some (body ++ putUint checksumSize (checksumIEEE body))

/-! ## Decoding -/

inductive SnapshotError where
  | tooShort (length : Nat)
  | badMagic
  | unsupportedVersion (version : UInt8)
  | stateLength (declared : Nat)
  | truncatedConfigHeader
  | configLengthWithoutConfig (length : Nat)
  | emptyConfig
  | invalidConfigByte (b : UInt8)
  | configLength (declared : Nat)
  | truncatedMemberCount
  | memberCount (declared available : Nat)
  | truncatedMember
  | trailingConfigBytes (extra : Nat)
  | trailingBytes
  | checksumMismatch
  | badState
  | sequenceBeyondBoundary (maxSeq boundary : Nat)
  deriving DecidableEq, Repr

def getString (b : Bytes) : Except SnapshotError (Bytes × Bytes) :=
  if b.length < 4 then .error .truncatedMember
  else
    let len := getUint (b.take 4)
    if len > (b.drop 4).length then .error .truncatedMember
    else .ok ((b.drop 4).take len, (b.drop 4).drop len)

def getMember (b : Bytes) : Except SnapshotError (Member × Bytes) :=
  match getString b with
  | .error e => .error e
  | .ok (id, b) =>
    match getString b with
    | .error e => .error e
    | .ok (address, b) => .ok (⟨id, address⟩, b)

def getMemberList : Nat → Bytes → Except SnapshotError (List Member × Bytes)
  | 0, b => .ok ([], b)
  | count + 1, b =>
    match getMember b with
    | .error e => .error e
    | .ok (m, b) =>
      match getMemberList count b with
      | .error e => .error e
      | .ok (ms, b) => .ok (m :: ms, b)

def getMembers (b : Bytes) : Except SnapshotError (List Member × Bytes) :=
  if b.length < 4 then .error .truncatedMemberCount
  else
    let count := getUint (b.take 4)
    let remaining := (b.drop 4).length
    -- the number of members that fit is computed in 32 bits
    if count > remaining / 8 % 2 ^ 32 then .error (.memberCount count remaining)
    else getMemberList count (b.drop 4)

def decodeConfiguration (b : Bytes) : Except SnapshotError Configuration :=
  match getMembers b with
  | .error e => .error e
  | .ok (voters, b) =>
    match getMembers b with
    | .error e => .error e
    | .ok (learners, b) =>
      if b.length ≠ 0 then .error (.trailingConfigBytes b.length)
      else .ok ⟨voters, learners⟩

def decodeConfigSection (b : Bytes) :
    Except SnapshotError (Option Configuration × Bytes) :=
  if b.length - checksumSize < 9 then .error .truncatedConfigHeader
  else
    let hasConfigByte := b.getD 0 0
    let configLen := getUint ((b.drop 1).take 8)
    let b := b.drop 9
    if hasConfigByte = 0 ∧ configLen ≠ 0 then .error (.configLengthWithoutConfig configLen)
    else if hasConfigByte = 1 ∧ configLen = 0 then .error .emptyConfig
    else if hasConfigByte ≠ 0 ∧ hasConfigByte ≠ 1 then
      .error (.invalidConfigByte hasConfigByte)
    else if configLen > b.length - checksumSize then .error (.configLength configLen)
    else if hasConfigByte = 1 then
      match decodeConfiguration (b.take configLen) with
      | .error e => .error e
      | .ok cfg => .ok (some cfg, b.drop configLen)
    else .ok (none, b.drop configLen)

def decode {F : Type} (codec : FSMFormat F) (data : Bytes) :
    Except SnapshotError (Snapshot F) :=
  if data.length < headerSize + checksumSize then .error (.tooShort data.length)
  else if data.take 4 ≠ magic then .error .badMagic
  else
    let version := data.getD 4 0
    if version > formatVersion ∨ version < minReadVersion then
      .error (.unsupportedVersion version)
    else
      let index := getUint ((data.drop 5).take 8)
      let term := getUint ((data.drop 13).take 8)
      let stateLen := getUint ((data.drop 21).take 8)
      let rest := data.drop headerSize
      if stateLen > rest.length - checksumSize then .error (.stateLength stateLen)
      else
        let state := rest.take stateLen
        let section_ := if version ≥ 2 then decodeConfigSection (rest.drop stateLen)
          else .ok (none, rest.drop stateLen)
        match section_ with
        | .error e => .error e
        | .ok (cfg, rest) =>
          if rest.length ≠ checksumSize then .error .trailingBytes
          else if checksumIEEE (data.take (data.length - checksumSize)) ≠ getUint rest then
            .error .checksumMismatch
          else
            match codec.decodeState state with
            | none => .error .badState
            | some (f, maxSeq) =>
              if maxSeq > index then .error (.sequenceBeyondBoundary maxSeq index)
              else .ok ⟨⟨index, term, cfg.isSome, cfg.getD .zero⟩, f⟩

/-! ## Round trip -/

structure MemberFits (m : Member) : Prop where
  id_lt : m.id.length < 2 ^ 32
  address_lt : m.address.length < 2 ^ 32

/-- Every length and count is within its width. -/
structure ConfigurationSized (cfg : Configuration) : Prop where
  voters_lt : cfg.voters.length < 2 ^ 32
  learners_lt : cfg.learners.length < 2 ^ 32
  voters : ∀ m ∈ cfg.voters, MemberFits m
  learners : ∀ m ∈ cfg.learners, MemberFits m
  size_lt : (encodeConfiguration cfg).length < 2 ^ 64

def ConfigurationCounts (cfg : Configuration) : Prop :=
  cfg.voters.length ≤
    ((cfg.voters.flatMap putMember).length + (putMembers cfg.learners).length) / 8 % 2 ^ 32 ∧
  cfg.learners.length ≤ (cfg.learners.flatMap putMember).length / 8 % 2 ^ 32

structure ConfigurationFits (cfg : Configuration) : Prop extends ConfigurationSized cfg where
  counts : ConfigurationCounts cfg

structure MetaFits (info : Meta) : Prop where
  index_lt : info.lastIncludedIndex < 2 ^ 64
  term_lt : info.lastIncludedTerm < 2 ^ 64
  configuration : ConfigurationFits info.configuration

theorem getString_put {s : Bytes} (h : s.length < 2 ^ 32) (rest : Bytes) :
    getString (putUint 4 s.length ++ (s ++ rest)) = .ok (s, rest) := by
  unfold getString
  rw [if_neg (by simp), take_putUint_append, drop_putUint_append,
    getUint_putUint_of_lt (show s.length < 256 ^ 4 from h)]
  simp

theorem getMember_put {m : Member} (h : MemberFits m) (rest : Bytes) :
    getMember (putMember m ++ rest) = .ok (m, rest) := by
  simp only [getMember, putMember, append_assoc, getString_put h.id_lt, getString_put h.address_lt]

theorem getMemberList_put (h : ∀ m ∈ ms, MemberFits m) (rest : Bytes) :
    getMemberList ms.length (ms.flatMap putMember ++ rest) = .ok (ms, rest) := by
  induction ms with
  | nil => rfl
  | cons m ms ih =>
    have hrest := ih fun x hx => h x (mem_cons_of_mem _ hx)
    have hm := getMember_put (h m mem_cons_self)
    simp only [flatMap_cons, append_assoc, length_cons, getMemberList, hm] at hrest ⊢
    rw [hrest]

theorem getMembers_putMembers (hlt : ms.length < 2 ^ 32)
    (h : ∀ m ∈ ms, MemberFits m) (rest : Bytes) :
    getMembers (putMembers ms ++ rest) =
      if ms.length ≤ ((ms.flatMap putMember).length + rest.length) / 8 % 2 ^ 32 then
        .ok (ms, rest)
      else .error (.memberCount ms.length ((ms.flatMap putMember).length + rest.length)) := by
  unfold getMembers putMembers
  rw [append_assoc, if_neg (by simp), take_putUint_append, drop_putUint_append,
    getUint_putUint_of_lt (show ms.length < 256 ^ 4 from hlt)]
  simp only [length_append, gt_iff_lt, ← Nat.not_le, ite_not, getMemberList_put h]

theorem decodeConfiguration_encode (h : ConfigurationFits cfg) :
    decodeConfiguration (encodeConfiguration cfg) = .ok cfg := by
  have hvoters := getMembers_putMembers h.voters_lt h.voters (putMembers cfg.learners)
  have hlearners := getMembers_putMembers h.learners_lt h.learners []
  rw [if_pos h.counts.1] at hvoters
  rw [append_nil, length_nil, Nat.add_zero, if_pos h.counts.2] at hlearners
  simp [decodeConfiguration, encodeConfiguration, hvoters, hlearners]

theorem decodeConfiguration_error (h : ConfigurationSized cfg)
    (hcounts : ¬ConfigurationCounts cfg) :
    ∃ e, decodeConfiguration (encodeConfiguration cfg) = .error e := by
  have hvoters := getMembers_putMembers h.voters_lt h.voters (putMembers cfg.learners)
  have hlearners := getMembers_putMembers h.learners_lt h.learners []
  rw [append_nil, length_nil, Nat.add_zero] at hlearners
  simp only [decodeConfiguration, encodeConfiguration, hvoters]
  by_cases hv : cfg.voters.length ≤
      ((cfg.voters.flatMap putMember).length + (putMembers cfg.learners).length) / 8 % 2 ^ 32
  · rw [if_pos hv]
    simp only [hlearners, if_neg fun hl => hcounts ⟨hv, hl⟩]
    exact ⟨_, rfl⟩
  · rw [if_neg hv]
    exact ⟨_, rfl⟩

/-! ## What is read is written back -/

theorem eq_putString_of_getString {s : Bytes} (h : getString b = .ok (s, rest)) :
    b = putUint 4 s.length ++ (s ++ rest) ∧ s.length < 2 ^ 32 := by
  unfold getString at h
  split at h
  · cases h
  case isFalse hheader =>
    dsimp only at h
    split at h
    · cases h
    case isFalse hfits =>
      cases h
      have hfour : (b.take 4).length = 4 := by rw [length_take]; omega
      have hlen : ((b.drop 4).take (getUint (b.take 4))).length = getUint (b.take 4) := by
        rw [length_take]
        omega
      have hput := putUint_getUint (b.take 4)
      have hlt := getUint_lt (b.take 4)
      rw [hfour] at hput hlt
      rw [hlen, hput, take_append_drop, take_append_drop]
      exact ⟨rfl, hlt⟩

theorem eq_putMember_of_getMember {m : Member}
    (h : getMember b = .ok (m, rest)) : b = putMember m ++ rest := by
  unfold getMember at h
  split at h
  · cases h
  case h_2 id b₁ hid =>
    split at h
    · cases h
    case h_2 address b₂ haddress =>
      cases h
      rw [(eq_putString_of_getString hid).1, (eq_putString_of_getString haddress).1]
      simp only [putMember, append_assoc]

theorem eq_putMember_of_getMemberList {count : Nat} (h : getMemberList count b = .ok (ms, rest)) :
    b = ms.flatMap putMember ++ rest ∧ ms.length = count := by
  induction count generalizing b ms with
  | zero =>
    cases h
    exact ⟨rfl, rfl⟩
  | succ count ih =>
    rw [getMemberList] at h
    split at h
    · cases h
    case h_2 m b₁ hm =>
      split at h
      · cases h
      case h_2 ms' b₂ hms =>
        cases h
        obtain ⟨hb, hlen⟩ := ih hms
        rw [eq_putMember_of_getMember hm, hb, flatMap_cons, append_assoc, length_cons, hlen]
        exact ⟨rfl, rfl⟩

theorem eq_putMembers_of_getMembers (h : getMembers b = .ok (ms, rest)) :
    b = putMembers ms ++ rest := by
  unfold getMembers at h
  split at h
  · cases h
  case isFalse hheader =>
    dsimp only at h
    split at h
    · cases h
    · obtain ⟨hb, hlen⟩ := eq_putMember_of_getMemberList h
      have hfour : (b.take 4).length = 4 := by rw [length_take]; omega
      have hput := putUint_getUint (b.take 4)
      rw [hfour] at hput
      rw [putMembers, hlen, hput, append_assoc, ← hb, take_append_drop]

theorem eq_encodeConfiguration_of_decode
    (h : decodeConfiguration b = .ok cfg) : b = encodeConfiguration cfg := by
  unfold decodeConfiguration at h
  split at h
  · cases h
  case h_2 voters b₁ hvoters =>
    split at h
    · cases h
    case h_2 learners b₂ hlearners =>
      split at h
      · cases h
      case isFalse hrest =>
        cases h
        have hnil : b₂ = [] := length_eq_zero_iff.mp (not_not.mp hrest)
        rw [eq_putMembers_of_getMembers hvoters, eq_putMembers_of_getMembers hlearners, hnil,
          append_nil, encodeConfiguration]

/-- What a section written with `hasConfig` says. -/
def sectionConfig (hasConfig : Bool) (cfg : Configuration) : Option Configuration :=
  if hasConfig then some cfg else none

theorem decodeConfigSection_encode (hasConfig : Bool)
    (h : ConfigurationSized cfg) {crc : Bytes} (hcrc : crc.length = checksumSize) :
    decodeConfigSection (encodeConfigSection hasConfig cfg ++ crc) =
      (if hasConfig then (decodeConfiguration (encodeConfiguration cfg)).map some
        else .ok none).map fun c => (c, crc) := by
  cases hasConfig with
  | false =>
    have hzero : getUint (putUint 8 0) = 0 := getUint_putUint_of_lt (by decide)
    simp [decodeConfigSection, encodeConfigSection, hcrc, hzero, Except.map]
    omega
  | true =>
    have hlen := getUint_putUint_of_lt
      (show (encodeConfiguration cfg).length < 256 ^ 8 from h.size_lt)
    have hpos : (encodeConfiguration cfg).length ≠ 0 := by
      simp [encodeConfiguration, putMembers]
    simp only [decodeConfigSection, encodeConfigSection, if_true, cons_append,
      append_assoc, length_cons, length_append, length_putUint, hcrc,
      drop_succ_cons, drop_zero, take_putUint_append, drop_putUint_append, hlen,
      getD_cons_zero, show (9 : Nat) = 8 + 1 from rfl]
    rw [if_neg (by omega), if_neg (by simp), if_neg (by simp [hpos]), if_neg (by simp),
      if_neg (by omega)]
    simp only [take_left, drop_left]
    cases decodeConfiguration (encodeConfiguration cfg) <;> rfl

def Meta.stored (info : Meta) (writeVersion : UInt8) : Meta :=
  let cfg := if writeVersion ≥ 2 then
    sectionConfig info.hasConfiguration info.configuration else none
  { info with hasConfiguration := cfg.isSome, configuration := cfg.getD .zero }

theorem decode_frame {F : Type} (codec : FSMFormat F) {state : Bytes}
    (hv : v = 1 ∨ v = 2) (hindex : info.lastIncludedIndex < 2 ^ 64)
    (hterm : info.lastIncludedTerm < 2 ^ 64) (hconfig : ConfigurationSized info.configuration)
    (hstate : state.length < 2 ^ 64) {cfg : Except SnapshotError (Option Configuration)}
    (hcfg : (if v ≥ 2 ∧ info.hasConfiguration then
      (decodeConfiguration (encodeConfiguration info.configuration)).map some
      else .ok none) = cfg) :
    decode codec (frameBody info state v ++
        putUint checksumSize (checksumIEEE (frameBody info state v))) =
      match cfg with
      | .error e => .error e
      | .ok cfg =>
        match codec.decodeState state with
        | none => .error .badState
        | some (f, maxSeq) =>
          if maxSeq > info.lastIncludedIndex then
            .error (.sequenceBeyondBoundary maxSeq info.lastIncludedIndex)
          else .ok ⟨⟨info.lastIncludedIndex, info.lastIncludedTerm, cfg.isSome,
            cfg.getD .zero⟩, f⟩ := by
  set body := frameBody info state v with hbody
  set crc := putUint checksumSize (checksumIEEE body) with hcrc
  set sec := if v ≥ 2 then encodeConfigSection info.hasConfiguration info.configuration
    else [] with hsec
  have hcrclen : crc.length = checksumSize := length_putUint ..
  have hdata : body ++ crc = magic ++ v :: (putUint 8 info.lastIncludedIndex ++
      (putUint 8 info.lastIncludedTerm ++ (putUint 8 state.length ++ (state ++
        (sec ++ crc))))) := by
    simp [hbody, frameBody, hsec]
  have h4 : (body ++ crc).take 4 = magic := by rw [hdata]; rfl
  have hversion : (body ++ crc).getD 4 0 = v := by rw [hdata]; rfl
  have h5 : (body ++ crc).drop 5 = putUint 8 info.lastIncludedIndex ++
      (putUint 8 info.lastIncludedTerm ++ (putUint 8 state.length ++ (state ++
        (sec ++ crc)))) := by rw [hdata]; rfl
  have h13 : (body ++ crc).drop 13 = putUint 8 info.lastIncludedTerm ++
      (putUint 8 state.length ++ (state ++ (sec ++ crc))) := by
    rw [show (13 : Nat) = 5 + 8 from rfl, ← drop_drop, h5, drop_putUint_append]
  have h21 : (body ++ crc).drop 21 = putUint 8 state.length ++ (state ++ (sec ++ crc)) := by
    rw [show (21 : Nat) = 13 + 8 from rfl, ← drop_drop, h13, drop_putUint_append]
  have h29 : (body ++ crc).drop headerSize = state ++ (sec ++ crc) := by
    rw [show headerSize = 21 + 8 from rfl, ← drop_drop, h21, drop_putUint_append]
  have hlen : headerSize + checksumSize ≤ (body ++ crc).length := by
    rw [hdata]
    simp only [magic, length_append, length_cons, length_nil, length_putUint, hcrclen, headerSize]
    omega
  have hsection : (if v ≥ 2 then decodeConfigSection (sec ++ crc) else .ok (none, sec ++ crc)) =
      cfg.map fun c => (c, crc) := by
    rw [← hcfg]
    by_cases h2 : v ≥ 2
    · simp only [hsec, h2, if_true, true_and]
      exact decodeConfigSection_encode _ hconfig hcrclen
    · simp only [hsec, nil_append, h2, false_and, if_false]
      rfl
  have hcheck : (body ++ crc).take ((body ++ crc).length - checksumSize) = body := by
    rw [length_append, hcrclen, Nat.add_sub_cancel, take_left]
  have hgood : ¬(v > formatVersion ∨ v < minReadVersion) := by
    rcases hv with rfl | rfl <;> decide
  have hsum : getUint crc = checksumIEEE body :=
    getUint_putUint_of_lt (show checksumIEEE body < 256 ^ 4 from checksumIEEE_lt body)
  unfold decode
  rw [if_neg (by omega), if_neg (by simp [h4])]
  simp only [hversion, if_neg hgood, h5, h13, h21, h29, take_putUint_append,
    getUint_putUint_of_lt (show info.lastIncludedIndex < 256 ^ 8 from hindex),
    getUint_putUint_of_lt (show info.lastIncludedTerm < 256 ^ 8 from hterm),
    getUint_putUint_of_lt (show state.length < 256 ^ 8 from hstate), take_left,
    drop_left, hsection, hcheck]
  rw [if_neg (by simp only [length_append, hcrclen]; omega)]
  cases cfg with
  | error e => rfl
  | ok cfg =>
    simp only [Except.map, hcrclen, hsum, ne_eq, not_true_eq_false, if_false]

theorem encode_eq {F : Type} (codec : FSMFormat F) (info : Meta) (f : F) (hv : v = 1 ∨ v = 2) :
    encode codec info f v = some (frameBody info (codec.encodeState f) v ++
      putUint checksumSize (checksumIEEE (frameBody info (codec.encodeState f) v))) := by
  rw [encode, if_neg]
  rcases hv with rfl | rfl <;> decide

theorem decode_encode {F : Type} (codec : FSMCodec F) {f : F}
    (hv : v = 1 ∨ v = 2) (h : MetaFits info) (hstate : (codec.encodeState f).length < 2 ^ 64)
    (hseq : codec.maxSeq f ≤ info.lastIncludedIndex) :
    ∃ data, encode codec info f v = some data ∧
      decode codec data = .ok ⟨info.stored v, f⟩ := by
  have hcfg : (if v ≥ 2 ∧ info.hasConfiguration then
      (decodeConfiguration (encodeConfiguration info.configuration)).map some
      else .ok none) = Except.ok (ε := SnapshotError)
        (if v ≥ 2 then sectionConfig info.hasConfiguration info.configuration else none) := by
    rw [decodeConfiguration_encode h.configuration, sectionConfig]
    by_cases h2 : v ≥ 2 <;> cases info.hasConfiguration <;> simp [h2, Except.map]
  refine ⟨_, encode_eq codec.toFSMFormat info f hv, ?_⟩
  rw [decode_frame codec.toFSMFormat hv h.index_lt h.term_lt h.configuration.toConfigurationSized
    hstate hcfg]
  simp only [codec.decodeState_encodeState, if_neg (Nat.not_lt.mpr hseq)]
  rfl

structure Snapshot.Fits {F : Type} (codec : FSMCodec F) (s : Snapshot F) : Prop where
  info : MetaFits s.info
  state_lt : (codec.encodeState s.fsm).length < 2 ^ 64
  seq_le : codec.maxSeq s.fsm ≤ s.info.lastIncludedIndex

theorem configurationFits_zero : ConfigurationFits .zero where
  voters_lt := by decide
  learners_lt := by decide
  voters := by simp [Configuration.zero]
  learners := by simp [Configuration.zero]
  size_lt := by decide
  counts := by
    rw [ConfigurationCounts]
    decide

theorem MetaFits.stored (h : MetaFits info) (v : UInt8) :
    MetaFits (info.stored v) where
  index_lt := h.index_lt
  term_lt := h.term_lt
  configuration := by
    simp only [Meta.stored, sectionConfig]
    split
    · split
      · exact h.configuration
      · exact configurationFits_zero
    · exact configurationFits_zero

end ChronicleDB.Snapshots
