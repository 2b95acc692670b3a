import ChronicleDB.Fsm.State

/-!
# Reading a state back

A state whose fields are within their widths is read back exactly when each
count in it passes the decoder's bound.  As the bound is computed in 32 bits, a
state of 32 GiB or more can fail it.
-/

namespace ChronicleDB.Fsm

open Foundation Foundation.Decoder Mvcc List

/-! ## Items -/

structure VersionFits (v : Version) : Prop where
  commitSeq_lt : v.commitSeq < 2 ^ 64
  value_lt : ∀ x, v.value = some x → x.length < 2 ^ 32

theorem getVersion_put {v : Version} (h : VersionFits v) (i j : Nat) (rest : Bytes) :
    getVersion i j (putVersion v ++ rest) = .ok (v, rest) := by
  obtain ⟨seq, value⟩ := v
  cases value with
  | none =>
    rw [getVersion, bind_ok (need_ok (by simp [putVersion, putValue]; omega)), putVersion,
      append_assoc, bind_ok (uint_put h.commitSeq_lt _)]
    rfl
  | some x =>
    rw [getVersion, bind_ok (need_ok (by simp [putVersion, putValue]; omega)), putVersion,
      append_assoc, bind_ok (uint_put h.commitSeq_lt _), putValue, cons_append,
      bind_ok (byte_cons 0 _), if_neg (by decide),
      bind_ok (need_ok (by simp [length_putString]; omega)),
      bind_ok (string_putString (h.value_lt x rfl) _)]
    rfl

structure ChainFits (c : Bytes × List Version) : Prop where
  key_lt : c.1.length < 2 ^ 32
  count_lt : c.2.length < 2 ^ 32
  version : ∀ v ∈ c.2, VersionFits v

/-- A number of items passes the bound on items of at least `size` bytes when
`after` bytes follow the last. -/
def CountPasses {α : Type} (put : α → Bytes) (size : Nat) (xs : List α) (after : Nat) : Prop :=
  xs.length ≤ ((xs.flatMap put).length + after) / size % 2 ^ 32

/-- The version count of a chain passes its bound when `after` bytes follow. -/
def ChainPasses (c : Bytes × List Version) (after : Nat) : Prop :=
  CountPasses putVersion 9 c.2 after

theorem getChain_reads {c : Bytes × List Version} (h : ChainFits c) (i : Nat) (rest : Bytes) :
    Reads (getChain i) (putChain c ++ rest) (ChainPasses c rest.length) c rest := by
  have hversions := times_put (fun v hv j rest => getVersion_put (h.version v hv) i j rest) 0 rest
  have hcount := checkCount_reads c.2.length 9 (StateError.count (.version i 0))
    (c.2.flatMap putVersion ++ rest)
  rw [length_append] at hcount
  rw [putChain, append_assoc, append_assoc, getChain]
  refine .after (need_ok (by simp [length_putString]; omega)) ?_
  refine .after (string_putString h.key_lt _) (.after (need_ok (by simp)) ?_)
  refine .after (uint_put h.count_lt _) ?_
  exact (hcount.bind (.after hversions (.of_ok rfl))).congr (and_true _ ▸ .rfl)

theorem getStatus_byte (field : StateField) (s : Status) (rest : Bytes) :
    getStatus field (s.byte :: rest) = .ok (s, rest) := by
  rw [getStatus, bind_ok (byte_cons _ _), Status.ofByte_byte]
  rfl

/-- An outcome as it is recorded under `id` before index `n`. -/
structure OutcomeSound (n : Nat) (id : RequestID) (o : Outcome) : Prop where
  requestID_eq : o.requestID = id
  commitSeq_le : o.commitSeq ≤ n - 1
  conflictLatestSeq_le : o.conflictLatestSeq ≤ n - 1
  decodedSeq_eq : decodedSeq o.status o.commitSeq = o.commitSeq

/-- Without a conflict, as control commands and membership changes have it. -/
structure PlainOutcome (n : Nat) (id : RequestID) (o : Outcome) : Prop
    extends OutcomeSound n id o where
  conflictKey_eq : o.conflictKey = []
  conflictLatestSeq_eq : o.conflictLatestSeq = 0

section Outcomes

variable {n : Nat} (hn : n ≤ 2 ^ 64)
include hn

theorem getOutcomeEntry_put {e : RequestID × OutcomeEntry} (h : OutcomeSound n e.1 e.2.outcome)
    (hfp : e.2.fingerprint.length = fingerprintSize) (hid : e.1.length < 2 ^ 32)
    (hkey : e.2.outcome.conflictKey.length < 2 ^ 32) (i : Nat) (rest : Bytes) :
    getOutcomeEntry i (putOutcome e ++ rest) = .ok (e, rest) := by
  obtain ⟨id, ⟨reqID, status, seq, key, latest⟩, fp⟩ := e
  obtain rfl : reqID = id := h.requestID_eq
  simp only at hfp hid hkey
  have hseq : decodedSeq status seq = seq := h.decodedSeq_eq
  have hlt : seq < 2 ^ 64 := by have := h.commitSeq_le; simp only at this; omega
  have hlatest : latest < 2 ^ 64 := by have := h.conflictLatestSeq_le; simp only at this; omega
  rw [putOutcome, getOutcomeEntry]
  simp only [append_assoc, cons_append]
  rw [bind_ok (need_ok (by simp [length_putString]; omega)), bind_ok (string_putString hid _),
    bind_ok (need_ok (by simp [length_putString, hfp]; omega)), bind_ok (bytes_append hfp _),
    bind_ok (getStatus_byte _ _ _), bind_ok (uint_put hlt _),
    bind_ok (string_putString hkey _), bind_ok (need_ok (by simp)),
    bind_ok (uint_put hlatest _), hseq]
  rfl

theorem getControlOutcome_put {e : RequestID × Outcome} (h : PlainOutcome n e.1 e.2)
    (hid : e.1.length < 2 ^ 32) (i : Nat) (rest : Bytes) :
    getControlOutcome i (putControlOutcome e ++ rest) = .ok (e, rest) := by
  obtain ⟨id, ⟨reqID, status, seq, key, latest⟩⟩ := e
  obtain rfl : reqID = id := h.requestID_eq
  obtain rfl : key = [] := h.conflictKey_eq
  obtain rfl : latest = 0 := h.conflictLatestSeq_eq
  have hseq : decodedSeq status seq = seq := h.decodedSeq_eq
  have hlt : seq < 2 ^ 64 := by have := h.commitSeq_le; simp only at this; omega
  rw [putControlOutcome, getControlOutcome]
  simp only [append_assoc, cons_append]
  rw [bind_ok (need_ok (by simp [length_putString]; omega)), bind_ok (string_putString hid _),
    bind_ok (need_ok (by simp)), bind_ok (getStatus_byte _ _ _),
    bind_ok (uint_put hlt _), hseq]
  rfl

theorem getMembershipEntry_put {e : RequestID × OutcomeEntry} (h : PlainOutcome n e.1 e.2.outcome)
    (hfp : e.2.fingerprint.length = fingerprintSize) (hid : e.1.length < 2 ^ 32) (i : Nat)
    (rest : Bytes) :
    getMembershipEntry i (putMembershipOutcome e ++ rest) = .ok (e, rest) := by
  obtain ⟨id, ⟨reqID, status, seq, key, latest⟩, fp⟩ := e
  obtain rfl : reqID = id := h.requestID_eq
  obtain rfl : key = [] := h.conflictKey_eq
  obtain rfl : latest = 0 := h.conflictLatestSeq_eq
  simp only at hfp hid
  have hseq : decodedSeq status seq = seq := h.decodedSeq_eq
  have hlt : seq < 2 ^ 64 := by have := h.commitSeq_le; simp only at this; omega
  rw [putMembershipOutcome, getMembershipEntry]
  simp only [append_assoc, cons_append]
  rw [bind_ok (need_ok (by simp [length_putString]; omega)), bind_ok (string_putString hid _),
    bind_ok (need_ok (by simp [hfp]; omega)), bind_ok (bytes_append hfp _),
    bind_ok (getStatus_byte _ _ _), bind_ok (uint_put hlt _), hseq]
  rfl

end Outcomes

/-! ## States -/

namespace FSM

/-- What holds of a state, whatever its size, that has come about by applying commands
at indexes below `n`. -/
structure Sound (n : Nat) (f : FSM) : Prop where
  ordered : f.store.Ordered
  below : f.store.Below n
  outcome : f.outcomes.All fun id e =>
    OutcomeSound n id e.outcome ∧ e.fingerprint.length = fingerprintSize
  controlOutcome : f.controlOutcomes.All fun id o => PlainOutcome n id o
  membershipOutcome : f.membershipOutcomes.All fun id e =>
    PlainOutcome n id e.outcome ∧ e.fingerprint.length = fingerprintSize
  clusterGeneration_lt : f.clusterGeneration < 2 ^ 32
  gcWatermark_lt : f.gcWatermark < 2 ^ 64
  gcPasses_lt : f.gcPasses < 2 ^ 64
  gcPassSeq_lt : f.gcPassSeq < 2 ^ 64
  copy : f.store.gcWatermark = f.gcWatermark

/-- What is not written below a generation is not there. -/
structure Gated (f : FSM) : Prop where
  control : f.clusterGeneration = 0 → f.controlOutcomes = .empty
  membership : f.clusterGeneration < 2 → f.membershipOutcomes = .empty
  gc : f.clusterGeneration < 3 →
    f.gcWatermark = 0 ∧ f.gcPasses = 0 ∧ f.gcPassSeq = 0 ∧ f.gcCursor = []

structure Fits (f : FSM) : Prop where
  chains_lt : f.store.keyChains.length < 2 ^ 32
  key_lt : ∀ c ∈ f.store.keyChains, c.1.length < 2 ^ 32
  versions_lt : ∀ c ∈ f.store.keyChains, c.2.length < 2 ^ 32
  value_lt : ∀ c ∈ f.store.keyChains, ∀ v ∈ c.2, ∀ x, v.value = some x → x.length < 2 ^ 32
  outcomes_lt : f.outcomes.entries.length < 2 ^ 32
  requestID_lt : ∀ e ∈ f.outcomes.entries, e.1.length < 2 ^ 32
  conflictKey_lt : ∀ e ∈ f.outcomes.entries, e.2.outcome.conflictKey.length < 2 ^ 32
  controlOutcomes_lt : f.controlOutcomes.entries.length < 2 ^ 32
  controlID_lt : ∀ e ∈ f.controlOutcomes.entries, e.1.length < 2 ^ 32
  membershipOutcomes_lt : f.membershipOutcomes.entries.length < 2 ^ 32
  membershipID_lt : ∀ e ∈ f.membershipOutcomes.entries, e.1.length < 2 ^ 32
  gcCursor_lt : f.gcCursor.length < 2 ^ 32

def outcomeBlock (f : FSM) : Bytes :=
  putCounted putOutcome f.outcomes.entries ++ f.trailingBlock

structure TrailerPasses (f : FSM) : Prop where
  controlOutcomes : f.clusterGeneration > 0 → CountPasses putControlOutcome 13
    f.controlOutcomes.entries (f.membershipBlock ++ f.gcBlock).length
  membershipOutcomes : f.clusterGeneration ≥ 2 → CountPasses putMembershipOutcome 45
    f.membershipOutcomes.entries f.gcBlock.length

/-- Every count in the encoded state passes the decoder's bound. -/
structure CountsPass (f : FSM) : Prop where
  chains : CountPasses putChain 8 f.store.keyChains f.outcomeBlock.length
  versions : AllPass putChain ChainPasses f.store.keyChains f.outcomeBlock.length
  outcomes : CountPasses putOutcome 57 f.outcomes.entries f.trailingBlock.length
  trailer : f.TrailerPasses

def trailer (f : FSM) : Trailer :=
  ⟨f.clusterGeneration, f.controlOutcomes.entries, f.membershipOutcomes.entries,
    f.gcWatermark, f.gcPasses, f.gcPassSeq, f.gcCursor⟩

variable {f : FSM} {n : Nat}

theorem getMembershipBlock_reads (hs : f.Sound n) (hn : n ≤ 2 ^ 64) (hg : f.Gated) (hf : f.Fits) (rest : Bytes) :
    Reads (getMembershipBlock f.clusterGeneration) (f.membershipBlock ++ rest)
      (f.clusterGeneration ≥ 2 →
        CountPasses putMembershipOutcome 45 f.membershipOutcomes.entries rest.length)
      f.membershipOutcomes.entries rest := by
  rw [getMembershipBlock, membershipBlock]
  split
  case isFalse h =>
    rw [hg.membership (Nat.not_le.mp h)]
    exact (Reads.of_ok rfl).congr (by simp [h])
  case isTrue h =>
    have hitems := times_put (fun e he i rest => getMembershipEntry_put hn
      (hs.membershipOutcome.of_mem he).1 (hs.membershipOutcome.of_mem he).2
      (hf.membershipID_lt e he) i rest) 0 rest
    have hcount := checkCount_reads f.membershipOutcomes.entries.length 45
      (StateError.count (.membershipOutcome 0))
      (f.membershipOutcomes.entries.flatMap putMembershipOutcome ++ rest)
    rw [length_append] at hcount
    rw [putCounted, append_assoc]
    refine .after (need_ok (by simp)) (.after (uint_put hf.membershipOutcomes_lt _) ?_)
    refine (hcount.bind (.of_ok hitems)).congr ?_
    simp only [h, and_true, forall_const]
    rfl

theorem getGCBlock_put (hs : f.Sound n) (hg : f.Gated) (hf : f.Fits) (rest : Bytes) :
    getGCBlock f.clusterGeneration (f.gcBlock ++ rest) =
      .ok ((f.gcWatermark, f.gcPasses, f.gcPassSeq, f.gcCursor), rest) := by
  rw [getGCBlock, gcBlock]
  split
  case isFalse h =>
    obtain ⟨hw, hp, hq, hc⟩ := hg.gc (Nat.not_le.mp h)
    rw [hw, hp, hq, hc]
    rfl
  case isTrue h =>
    simp only [append_assoc]
    rw [bind_ok (need_ok (by simp [length_putString]; omega)),
      bind_ok (uint_put hs.gcWatermark_lt _), bind_ok (uint_put hs.gcPasses_lt _),
      bind_ok (uint_put hs.gcPassSeq_lt _), bind_ok (string_putString hf.gcCursor_lt _)]
    rfl

theorem getTrailingBlock_reads (hs : f.Sound n) (hn : n ≤ 2 ^ 64) (hg : f.Gated) (hf : f.Fits) :
    Reads getTrailingBlock f.trailingBlock f.TrailerPasses f.trailer [] := by
  rw [trailingBlock]
  split
  case isFalse h =>
    have hzero : f.clusterGeneration = 0 := Nat.eq_zero_of_not_pos h
    obtain ⟨hw, hp, hq, hc⟩ := hg.gc (by omega)
    have htrailer : f.trailer = .none := by
      rw [trailer, hzero, hg.control hzero, hg.membership (by omega), hw, hp, hq, hc]
      rfl
    rw [htrailer]
    exact (Reads.of_ok rfl).congr ⟨fun _ => ⟨by omega, by omega⟩, fun _ => trivial⟩
  case isTrue h =>
    have hitems := times_put (fun e he i rest => getControlOutcome_put hn
      (hs.controlOutcome.of_mem he) (hf.controlID_lt e he) i rest) 0 (f.membershipBlock ++ f.gcBlock)
    have hcount := checkCount_reads f.controlOutcomes.entries.length 13
      (StateError.count (.controlOutcome 0))
      (f.controlOutcomes.entries.flatMap putControlOutcome ++ (f.membershipBlock ++ f.gcBlock))
    rw [length_append] at hcount
    have hmembership := getMembershipBlock_reads hs hn hg hf f.gcBlock
    have hgc := getGCBlock_put hs hg hf []
    rw [append_nil] at hgc
    have htrailer : Reads getTrailer (putUint 4 f.clusterGeneration ++
        (putCounted putControlOutcome f.controlOutcomes.entries ++
          (f.membershipBlock ++ f.gcBlock)))
        (CountPasses putControlOutcome 13 f.controlOutcomes.entries
            (f.membershipBlock ++ f.gcBlock).length ∧
          (f.clusterGeneration ≥ 2 → CountPasses putMembershipOutcome 45
            f.membershipOutcomes.entries f.gcBlock.length)) f.trailer [] := by
      rw [getTrailer, putCounted, append_assoc]
      refine .after (need_ok (by simp; omega)) (.after (uint_put hs.clusterGeneration_lt _) ?_)
      refine .after (uint_put hf.controlOutcomes_lt _) (hcount.bind (.after hitems ?_))
      exact (hmembership.bind (.after hgc (.after (finished_nil _) (.of_ok rfl)))).congr
        (and_true _ ▸ .rfl)
    have hlong : (putUint 4 f.clusterGeneration ++
        (putCounted putControlOutcome f.controlOutcomes.entries ++
          (f.membershipBlock ++ f.gcBlock))).length > 0 := by simp
    rw [Reads, getTrailingBlock, if_pos hlong]
    refine htrailer.congr ⟨?_, ?_⟩
    · rintro ⟨hc, hm⟩
      exact ⟨fun _ => hc, hm⟩
    · rintro ⟨hc, hm⟩
      exact ⟨hc h, hm⟩

theorem restore_trailer (hs : f.Sound n) :
    restore f.store.keyChains f.outcomes.entries f.trailer = f := by
  have hstore := Store.restoreStore_keyChains f.store
  rw [hs.copy] at hstore
  simp only [restore, trailer, hstore, SortedMap.insertAll_entries]

theorem getState_reads (hs : f.Sound n) (hn : n ≤ 2 ^ 64) (hg : f.Gated) (hf : f.Fits) :
    Reads getState f.encodeState f.CountsPass (f, f.maxSeq) [] := by
  have hseq : ∀ c ∈ f.store.keyChains, ∀ v ∈ c.2, v.commitSeq < 2 ^ 64 := fun c hc v hv =>
    Nat.lt_of_lt_of_le (hs.below c.1 v (Store.chain_of_mem_keyChains hc ▸ hv)) hn
  have hchains := times_reads (fun c hc i rest => getChain_reads
    ⟨hf.key_lt c hc, hf.versions_lt c hc, fun v hv => ⟨hseq c hc v hv, hf.value_lt c hc v hv⟩⟩
    i rest) 0 f.outcomeBlock
  have hchainCount := checkCount_reads f.store.keyChains.length 8 (StateError.count (.chain 0))
    (f.store.keyChains.flatMap putChain ++ f.outcomeBlock)
  have houtcomes := times_put (fun e he i rest => getOutcomeEntry_put hn (hs.outcome.of_mem he).1
    (hs.outcome.of_mem he).2 (hf.requestID_lt e he) (hf.conflictKey_lt e he) i rest) 0 f.trailingBlock
  have houtcomeCount := checkCount_reads f.outcomes.entries.length 57 (StateError.count (.outcome 0))
    (f.outcomes.entries.flatMap putOutcome ++ f.trailingBlock)
  rw [length_append] at hchainCount houtcomeCount
  have htrailer := getTrailingBlock_reads hs hn hg hf
  have hrestore := restore_trailer hs
  rw [getState, encodeState]
  have hiff : (CountPasses putChain 8 f.store.keyChains f.outcomeBlock.length ∧
      AllPass putChain ChainPasses f.store.keyChains f.outcomeBlock.length ∧
      CountPasses putOutcome 57 f.outcomes.entries f.trailingBlock.length ∧ f.TrailerPasses) ↔
      f.CountsPass :=
    ⟨fun ⟨h1, h2, h3, h4⟩ => ⟨h1, h2, h3, h4⟩, fun ⟨h1, h2, h3, h4⟩ => ⟨h1, h2, h3, h4⟩⟩
  refine Reads.congr ?_ hiff
  refine .after (need_ok (by simp [putCounted])) (.after (byte_cons _ _)
    (.after (check_ok rfl) ?_))
  rw [putCounted, append_assoc]
  refine .after (uint_put hf.chains_lt _) (hchainCount.bind (hchains.bind ?_))
  rw [outcomeBlock, putCounted, append_assoc]
  refine .after (need_ok (by simp)) (.after (uint_put hf.outcomes_lt _)
    (houtcomeCount.bind (.after houtcomes ?_)))
  refine (htrailer.bind (.of_ok ?_)).congr (and_true _ ▸ .rfl)
  rw [hrestore]
  rfl

/-! ## The largest sequence number -/

theorem foldl_max_le {l : List Nat} {a b : Nat} (ha : a ≤ b) (h : ∀ x ∈ l, x ≤ b) :
    l.foldl max a ≤ b := by
  induction l generalizing a with
  | nil => exact ha
  | cons x l ih =>
    exact ih (Nat.max_le.mpr ⟨ha, h x mem_cons_self⟩)
      fun y hy => h y (mem_cons_of_mem _ hy)

theorem maxSeq_le (hs : f.Sound n) : f.maxSeq ≤ n - 1 := by
  refine foldl_max_le (Nat.zero_le _) fun x hx => ?_
  rcases mem_append.mp hx with hversion | houtcome
  · obtain ⟨c, hc, hx⟩ := mem_flatMap.mp hversion
    obtain ⟨v, hv, rfl⟩ := mem_map.mp hx
    exact Nat.le_sub_one_of_lt (hs.below c.1 v (Store.chain_of_mem_keyChains hc ▸ hv))
  · obtain ⟨o, ho, rfl⟩ := mem_map.mp houtcome
    simp only [mem_append, mem_map] at ho
    rcases ho with ⟨e, he, rfl⟩ | ⟨e, he, rfl⟩ | ⟨e, he, rfl⟩
    · exact (hs.outcome.of_mem he).1.commitSeq_le
    · exact (hs.controlOutcome.of_mem he).commitSeq_le
    · exact (hs.membershipOutcome.of_mem he).1.commitSeq_le

/-! ## What a state loses -/

/-- The part of a state that its encoding keeps. -/
def written (f : FSM) : FSM :=
  { f with
    store := if f.clusterGeneration < 3 then { f.store with gcWatermark := 0 } else f.store
    controlOutcomes := if f.clusterGeneration = 0 then .empty else f.controlOutcomes
    membershipOutcomes := if f.clusterGeneration < 2 then .empty else f.membershipOutcomes
    gcWatermark := if f.clusterGeneration < 3 then 0 else f.gcWatermark
    gcCursor := if f.clusterGeneration < 3 then [] else f.gcCursor
    gcPasses := if f.clusterGeneration < 3 then 0 else f.gcPasses
    gcPassSeq := if f.clusterGeneration < 3 then 0 else f.gcPassSeq }

@[simp] theorem clusterGeneration_written (f : FSM) :
    f.written.clusterGeneration = f.clusterGeneration := rfl

theorem keyChains_written (f : FSM) : f.written.store.keyChains = f.store.keyChains := by
  simp only [written]
  split <;> rfl

theorem encodeState_written (f : FSM) : f.written.encodeState = f.encodeState := by
  have hmembership : f.written.membershipBlock = f.membershipBlock := by
    by_cases h : f.clusterGeneration ≥ 2
    · simp [membershipBlock, written, h, Nat.not_lt.mpr h]
    · simp [membershipBlock, h]
  have hgc : f.written.gcBlock = f.gcBlock := by
    by_cases h : f.clusterGeneration ≥ 3
    · simp [gcBlock, written, Nat.not_lt.mpr h]
    · simp [gcBlock, h]
  have htrailing : f.written.trailingBlock = f.trailingBlock := by
    by_cases h : f.clusterGeneration = 0
    · simp [trailingBlock, h]
    · simp only [trailingBlock, clusterGeneration_written, hmembership, hgc]
      simp [written, h]
  rw [encodeState, encodeState, keyChains_written, htrailing]
  rfl

theorem gated_written (f : FSM) : f.written.Gated where
  control h := by
    rw [clusterGeneration_written] at h
    simp [written, h]
  membership h := by
    rw [clusterGeneration_written] at h
    simp [written, h]
  gc h := by
    rw [clusterGeneration_written] at h
    simp [written, h]

theorem written_eq_iff (hs : f.Sound n) : f.written = f ↔ f.Gated := by
  refine ⟨fun h => h ▸ gated_written f, fun hg => ?_⟩
  have hcontrol : (if f.clusterGeneration = 0 then .empty else f.controlOutcomes) =
      f.controlOutcomes := ite_eq_right_iff.mpr fun h => (hg.control h).symm
  have hmembership : (if f.clusterGeneration < 2 then .empty else f.membershipOutcomes) =
      f.membershipOutcomes := ite_eq_right_iff.mpr fun h => (hg.membership h).symm
  have hstore : (if f.clusterGeneration < 3 then { f.store with gcWatermark := 0 } else f.store) =
      f.store := ite_eq_right_iff.mpr fun h => by
    rw [← (hg.gc h).1, ← hs.copy]
  have hwatermark : (if f.clusterGeneration < 3 then 0 else f.gcWatermark) = f.gcWatermark :=
    ite_eq_right_iff.mpr fun h => (hg.gc h).1.symm
  have hpasses : (if f.clusterGeneration < 3 then 0 else f.gcPasses) = f.gcPasses :=
    ite_eq_right_iff.mpr fun h => (hg.gc h).2.1.symm
  have hpassSeq : (if f.clusterGeneration < 3 then 0 else f.gcPassSeq) = f.gcPassSeq :=
    ite_eq_right_iff.mpr fun h => (hg.gc h).2.2.1.symm
  have hcursor : (if f.clusterGeneration < 3 then [] else f.gcCursor) = f.gcCursor :=
    ite_eq_right_iff.mpr fun h => (hg.gc h).2.2.2.symm
  rw [written, hcontrol, hmembership, hstore, hwatermark, hpasses, hpassSeq, hcursor]

theorem Sound.written (hs : f.Sound n) : f.written.Sound n where
  ordered := by
    simp only [FSM.written]
    split
    · exact hs.ordered
    · exact hs.ordered
  below := by
    simp only [FSM.written]
    split
    · exact hs.below
    · exact hs.below
  outcome := hs.outcome
  controlOutcome := by
    simp only [FSM.written]
    split
    · exact SortedMap.all_empty _
    · exact hs.controlOutcome
  membershipOutcome := by
    simp only [FSM.written]
    split
    · exact SortedMap.all_empty _
    · exact hs.membershipOutcome
  clusterGeneration_lt := hs.clusterGeneration_lt
  gcWatermark_lt := by
    simp only [FSM.written]
    split
    · decide
    · exact hs.gcWatermark_lt
  gcPasses_lt := by
    simp only [FSM.written]
    split
    · decide
    · exact hs.gcPasses_lt
  gcPassSeq_lt := by
    simp only [FSM.written]
    split
    · decide
    · exact hs.gcPassSeq_lt
  copy := by
    simp only [FSM.written]
    split
    · rfl
    · exact hs.copy

theorem Fits.written (hf : f.Fits) : f.written.Fits where
  chains_lt := by rw [keyChains_written]; exact hf.chains_lt
  key_lt := by rw [keyChains_written]; exact hf.key_lt
  versions_lt := by rw [keyChains_written]; exact hf.versions_lt
  value_lt := by rw [keyChains_written]; exact hf.value_lt
  outcomes_lt := hf.outcomes_lt
  requestID_lt := hf.requestID_lt
  conflictKey_lt := hf.conflictKey_lt
  controlOutcomes_lt := by
    simp only [FSM.written]
    split
    · decide
    · exact hf.controlOutcomes_lt
  controlID_lt := by
    simp only [FSM.written]
    split
    · exact fun e he => absurd he not_mem_nil
    · exact hf.controlID_lt
  membershipOutcomes_lt := by
    simp only [FSM.written]
    split
    · decide
    · exact hf.membershipOutcomes_lt
  membershipID_lt := by
    simp only [FSM.written]
    split
    · exact fun e he => absurd he not_mem_nil
    · exact hf.membershipID_lt
  gcCursor_lt := by
    simp only [FSM.written]
    split
    · decide
    · exact hf.gcCursor_lt

theorem decodeState_encodeState {g : FSM} {seq : Nat} (hs : f.Sound n) (hn : n ≤ 2 ^ 64)
    (hf : f.Fits) (h : decodeState f.encodeState = .ok (g, seq)) : g = f.written := by
  have hreads := getState_reads hs.written hn (gated_written f) hf.written
  rw [encodeState_written] at hreads
  rw [decodeState] at h
  by_cases hcounts : f.written.CountsPass
  · rw [hreads.1 hcounts] at h
    exact (congrArg Prod.fst (Except.ok.inj h)).symm
  · obtain ⟨e, he⟩ := hreads.2 hcounts
    rw [he] at h
    cases h

end FSM

end ChronicleDB.Fsm
