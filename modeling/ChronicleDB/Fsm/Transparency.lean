import ChronicleDB.Fsm.History

/-!
# Snapshots in the middle of a history

A snapshot goes unnoticed by the commands and queries after it exactly when it
can be read back, which the 32-bit bounds on its counts can prevent.
-/

namespace ChronicleDB.Fsm

open Foundation Foundation.Decoder Mvcc Snapshots List SortedMap FSM Store

/-! ## Snapshots -/

def fsmFormat : FSMFormat FSM := ⟨FSM.encodeState, fun data => (decodeState data).toOption⟩

/-- `g` answers the commands `h`, and after them every query, as `f` does. -/
structure SameFrom (g f : FSM) (h : List (Nat × Command)) : Prop where
  results : g.results h = f.results h
  visible : ∀ key startSeq,
    (g.run h).store.visible key startSeq = (f.run h).store.visible key startSeq
  scan : ∀ stem startSeq,
    (g.run h).store.scanVisible stem startSeq = (f.run h).store.scanVisible stem startSeq
  outcome : ∀ id, (g.run h).getOutcome id = (f.run h).getOutcome id
  membership : ∀ id kind nodeID address,
    (g.run h).getMembershipOutcome id kind nodeID address =
      (f.run h).getMembershipOutcome id kind nodeID address
  encodeState : (g.run h).encodeState = (f.run h).encodeState

theorem SameFrom.refl (f : FSM) (h : List (Nat × Command)) : SameFrom f f h :=
  ⟨rfl, fun _ _ => rfl, fun _ _ => rfl, fun _ => rfl, fun _ _ _ _ => rfl, rfl⟩

/-- Boundary metadata at index `n`, every length and count of it within its width. -/
structure BoundaryAt (n : Nat) (info : Meta) : Prop where
  index_eq : info.lastIncludedIndex = n
  term_lt : info.lastIncludedTerm < 2 ^ 64
  configuration : ConfigurationSized info.configuration

theorem configuration_read {info : Meta} (v : UInt8) (h : ConfigurationSized info.configuration) :
    ((v ≥ 2 ∧ info.hasConfiguration = true → ConfigurationCounts info.configuration) →
      ∃ c, (if v ≥ 2 ∧ info.hasConfiguration then
        (decodeConfiguration (encodeConfiguration info.configuration)).map some
        else .ok none) = .ok c) ∧
    (¬(v ≥ 2 ∧ info.hasConfiguration = true → ConfigurationCounts info.configuration) →
      ∃ e, (if v ≥ 2 ∧ info.hasConfiguration then
        (decodeConfiguration (encodeConfiguration info.configuration)).map some
        else .ok none) = .error e) := by
  by_cases hwritten : v ≥ 2 ∧ info.hasConfiguration = true
  · simp only [hwritten, and_self, if_true, forall_const]
    refine ⟨fun hcounts => ?_, fun hcounts => ?_⟩
    · rw [decodeConfiguration_encode ⟨h, hcounts⟩]
      exact ⟨_, rfl⟩
    · obtain ⟨e, he⟩ := decodeConfiguration_error h hcounts
      rw [he]
      exact ⟨e, rfl⟩
  · rw [if_neg hwritten]
    exact ⟨fun _ => ⟨_, rfl⟩, fun hnot => absurd (fun h => absurd h hwritten) hnot⟩

def SnapshotPasses (f : FSM) (info : Meta) (v : UInt8) : Prop :=
  f.CountsPass ∧ (v ≥ 2 ∧ info.hasConfiguration = true → ConfigurationCounts info.configuration)

theorem decode_snapshot {f : FSM} {n : Nat} {info : Meta} {v : UInt8} (hs : f.Sound n)
    (hn : n ≤ 2 ^ 64) (hg : f.Gated) (hfits : f.Fits) (hsize : f.encodeState.length < 2 ^ 64)
    (hv : v = 1 ∨ v = 2) (hinfo : BoundaryAt (n - 1) info) :
    ∃ data, encode fsmFormat info f v = some data ∧
      (SnapshotPasses f info v → ∃ info', decode fsmFormat data = .ok ⟨info', f⟩) ∧
      (¬SnapshotPasses f info v → ∃ e, decode fsmFormat data = .error e) := by
  have hreads := getState_reads hs hn hg hfits
  have hindex := hinfo.index_eq
  have hlt : info.lastIncludedIndex < 2 ^ 64 := by omega
  obtain ⟨hcfg_ok, hcfg_error⟩ := configuration_read v hinfo.configuration
  refine ⟨frameBody info f.encodeState v ++
    putUint checksumSize (checksumIEEE (frameBody info f.encodeState v)),
    encode_eq fsmFormat info f hv, ?_, ?_⟩
  · rintro ⟨hcounts, hcfg⟩
    obtain ⟨c, hc⟩ := hcfg_ok hcfg
    have hsome : fsmFormat.decodeState f.encodeState = some (f, f.maxSeq) := by
      simp only [fsmFormat, decodeState, hreads.1 hcounts]
      rfl
    have hseq : ¬f.maxSeq > info.lastIncludedIndex := by
      rw [hindex]
      exact Nat.not_lt.mpr (maxSeq_le hs)
    rw [decode_frame fsmFormat hv hlt hinfo.term_lt hinfo.configuration hsize hc]
    simp only [hsome, if_neg hseq]
    exact ⟨_, rfl⟩
  · intro hnot
    by_cases hcfg : v ≥ 2 ∧ info.hasConfiguration = true →
        ConfigurationCounts info.configuration
    · obtain ⟨c, hc⟩ := hcfg_ok hcfg
      obtain ⟨e, he⟩ := hreads.2 fun hcounts => hnot ⟨hcounts, hcfg⟩
      have hnone : fsmFormat.decodeState f.encodeState = none := by
        simp only [fsmFormat, decodeState, he]
        rfl
      rw [decode_frame fsmFormat hv hlt hinfo.term_lt hinfo.configuration hsize hc]
      simp only [hnone]
      exact ⟨_, rfl⟩
    · obtain ⟨e, he⟩ := hcfg_error hcfg
      rw [decode_frame fsmFormat hv hlt hinfo.term_lt hinfo.configuration hsize he]
      exact ⟨e, rfl⟩

theorem decode_snapshot_run {h : List (Nat × Command)} {f : FSM} {info : Meta} {v : UInt8}
    (hhistory : History (.new .new) 0 h) (hf : run (.new .new) h = f) (hfits : f.Fits)
    (hsize : f.encodeState.length < 2 ^ 64) (hv : v = 1 ∨ v = 2)
    (hinfo : BoundaryAt (nextIndex 0 h - 1) info) :
    ∃ data, encode fsmFormat info f v = some data ∧
      (SnapshotPasses f info v → ∃ info', decode fsmFormat data = .ok ⟨info', f⟩) ∧
      (¬SnapshotPasses f info v → ∃ e, decode fsmFormat data = .error e) := by
  obtain ⟨hs, hc, hn⟩ := run_invariant hhistory sound_new counted_new
    (Nat.zero_le _)
  rw [hf] at hs hc
  exact decode_snapshot hs hn (hc.gated hfits.controlOutcomes_lt) hfits hsize hv hinfo

/-- A snapshot taken after `h1` is read back, and goes unnoticed, exactly when every
count in it passes. -/
theorem snapshot_transparent_iff {h1 h2 : List (Nat × Command)} {info : Meta} {v : UInt8}
    (hhistory : History (.new .new) 0 (h1 ++ h2)) (hfits : (FSM.run (.new .new) h1).Fits)
    (hsize : (FSM.run (.new .new) h1).encodeState.length < 2 ^ 64) (hv : v = 1 ∨ v = 2)
    (hinfo : BoundaryAt (nextIndex 0 h1 - 1) info) :
    (∃ data s, encode fsmFormat info (FSM.run (.new .new) h1) v = some data ∧
      decode fsmFormat data = .ok s ∧ SameFrom s.fsm (FSM.run (.new .new) h1) h2 ∧
      FSM.results (.new .new) (h1 ++ h2) =
        FSM.results (.new .new) h1 ++ s.fsm.results h2 ∧
      s.fsm.run h2 = FSM.run (.new .new) (h1 ++ h2)) ↔
    SnapshotPasses (FSM.run (.new .new) h1) info v := by
  obtain ⟨data, hencode, hok, herror⟩ :=
    decode_snapshot_run hhistory.left rfl hfits hsize hv hinfo
  constructor
  · rintro ⟨data', s, hencode', hdecode, -⟩
    rw [hencode] at hencode'
    obtain rfl := Option.some.inj hencode'
    by_contra hnot
    obtain ⟨e, he⟩ := herror hnot
    rw [he] at hdecode
    cases hdecode
  · intro hpass
    obtain ⟨info', hdecode⟩ := hok hpass
    refine ⟨data, _, hencode, hdecode, .refl _ h2, ?_, ?_⟩
    · rw [FSM.results_append]
    · rw [FSM.run_append]

/-! ## States below 32 GiB -/

theorem nine_le_length_putVersion (v : Version) : 9 ≤ (putVersion v).length := by
  obtain ⟨seq, value⟩ := v
  cases value with
  | none => simp [putVersion, putValue]
  | some x => simp [putVersion, putValue]; omega

theorem countPasses_of_size {α : Type} {put : α → Bytes} {size after : Nat} {xs : List α}
    (hsize : 0 < size) (hitem : ∀ x ∈ xs, size ≤ (put x).length)
    (hlt : (xs.flatMap put).length + after < size * 2 ^ 32) : CountPasses put size xs after := by
  have hlen := length_flatMap_ge hitem
  exact count_le_of_fits hsize (by omega) hlt

theorem FSM.length_encodeState (f : FSM) :
    f.encodeState.length =
      5 + (f.store.keyChains.flatMap putChain).length + f.outcomeBlock.length := by
  simp [encodeState, putCounted, outcomeBlock]
  omega

theorem FSM.countsPass_of_size {f : FSM} {n : Nat} (hs : f.Sound n)
    (hsize : f.encodeState.length < 2 ^ 35) : f.CountsPass := by
  have hstate := f.length_encodeState
  have houtcomes : f.outcomeBlock.length = 4 + (f.outcomes.entries.flatMap putOutcome).length +
      f.trailingBlock.length := by
    simp [outcomeBlock, putCounted]
    omega
  have htrailer : f.clusterGeneration > 0 → f.trailingBlock.length =
      8 + (f.controlOutcomes.entries.flatMap putControlOutcome).length +
        (f.membershipBlock ++ f.gcBlock).length := fun hgen => by
    simp [trailingBlock, if_pos hgen, putCounted]
    omega
  have hmembership : f.clusterGeneration ≥ 2 → (f.membershipBlock ++ f.gcBlock).length =
      4 + (f.membershipOutcomes.entries.flatMap putMembershipOutcome).length +
        f.gcBlock.length := fun hgen => by
    simp [membershipBlock, if_pos hgen, putCounted]
    omega
  refine ⟨countPasses_of_size (by decide) (fun c _ => ?_) (by omega),
    allPass_of_forall fun c _ m hm => ?_, countPasses_of_size (by decide) (fun e he => ?_)
      (by omega),
    fun hgen => countPasses_of_size (by decide) (fun e _ => ?_) (by have := htrailer hgen; omega),
    fun hgen => countPasses_of_size (by decide) (fun e he => ?_)
      (by have := htrailer (by omega); have := hmembership hgen; omega)⟩
  · simp [putChain, length_putString]
    omega
  · refine countPasses_of_size (by decide) (fun v _ => nine_le_length_putVersion v) ?_
    have hchain : (c.2.flatMap putVersion).length ≤ (putChain c).length := by
      simp [putChain]
      omega
    omega
  · have := (hs.outcome.of_mem he).2
    simp [putOutcome, length_putString, this, fingerprintSize]
    omega
  · simp [putControlOutcome, length_putString]
  · have := (hs.membershipOutcome.of_mem he).2
    simp [putMembershipOutcome, length_putString, this, fingerprintSize]

/-! ## A state of 32 GiB

Transaction `k` writes a value of a little under 32 MiB under a key of `k` bytes,
so 1024 of them fill 32 GiB. -/

def largeKey (k : Nat) : Bytes := List.replicate k 0

def largeValue (k : Nat) : Bytes := List.replicate (2 ^ 25 - 78 - 2 * k) 0

def largeCommand (k : Nat) : CommitTxnCommand :=
  ⟨largeKey k, k, 0, [⟨largeKey k, some (largeValue k)⟩]⟩

def largeHistory (from_ count : Nat) : List (Nat × Command) :=
  (List.range' from_ count).map fun k => (k + 1, .commit (largeCommand k))

theorem history_largeHistory (f : FSM) {n a count : Nat} (hn : n ≤ a + 1)
    (h : a + count < 2 ^ 64) : History f n (largeHistory a count) := by
  induction count generalizing f n a with
  | zero => exact .nil f n
  | succ count ih => exact .cons hn (by omega) trivial trivial (ih _ (Nat.le_refl _) (by omega))

theorem largeKey_lt {i j : Nat} (h : i < j) : largeKey i < largeKey j := by
  induction i generalizing j with
  | zero =>
    obtain ⟨j, rfl⟩ := Nat.exists_eq_add_of_lt h
    exact nil_lt_cons _ _
  | succ i ih =>
    obtain ⟨j, rfl⟩ := Nat.exists_eq_add_of_lt h
    exact cons_lt_cons_self.mpr (ih (by omega))

def largeChain (k : Nat) : Bytes × List Version := (largeKey k, [⟨k + 1, some (largeValue k)⟩])

def largeOutcome (k : Nat) : RequestID × OutcomeEntry :=
  (largeKey k, ⟨.committed (largeKey k) (k + 1), fingerprintOf (largeCommand k)⟩)

theorem run_largeHistory (count : Nat) :
    (run (.new .new) (largeHistory 0 count)).store.chains.entries =
      (range' 0 count).map largeChain ∧
    (run (.new .new) (largeHistory 0 count)).outcomes.entries =
      (range' 0 count).map largeOutcome ∧
    ∃ store outcomes, run (.new .new) (largeHistory 0 count) =
      { new .new with store := store, outcomes := outcomes } := by
  induction count with
  | zero => exact ⟨rfl, rfl, .new, .empty, rfl⟩
  | succ count ih =>
    obtain ⟨hchains, houtcomes, store, outcomes, hrun⟩ := ih
    have hhistory : largeHistory 0 (count + 1) =
        largeHistory 0 count ++ [(count + 1, .commit (largeCommand count))] := by
      rw [largeHistory, range'_1_concat, map_append, Nat.zero_add]
      rfl
    rw [hhistory, run_append, hrun]
    rw [hrun] at hchains houtcomes
    set f : FSM := { new .new with store := store, outcomes := outcomes } with hf
    have hkeys : ∀ e ∈ f.store.chains.entries, e.1 < largeKey count := by
      rw [hchains]
      intro e he
      obtain ⟨k, hk, rfl⟩ := mem_map.mp he
      exact largeKey_lt (by simpa using hk)
    have hids : ∀ e ∈ f.outcomes.entries, e.1 < largeKey count := by
      rw [houtcomes]
      intro e he
      obtain ⟨k, hk, rfl⟩ := mem_map.mp he
      exact largeKey_lt (by simpa using hk)
    have hchain : f.store.chain (largeKey count) = [] := by
      rw [chain, get_eq_none_of_forall_lt hkeys]
      rfl
    have hlatest : f.store.latestCommitSeq (largeKey count) = none := by
      rw [latestCommitSeq, hchain]
      rfl
    have hmark : f.gcWatermark = 0 := rfl
    have hdecision : f.decision (count + 1) (largeCommand count) = .ok
        (push (count + 1) f.store ⟨largeKey count, some (largeValue count)⟩,
          .committed (largeKey count) (count + 1)) := by
      simp only [decision, largeCommand, hmark, Nat.lt_irrefl, if_false,
        checkConflicts, hlatest, applyCommit, checkMonotonic]
      rfl
    have hnext : f.run [(count + 1, .commit (largeCommand count))] =
        f.record (largeCommand count)
          (push (count + 1) f.store ⟨largeKey count, some (largeValue count)⟩)
          (.committed (largeKey count) (count + 1)) := by
      have hunknown : f.outcomes.get (largeCommand count).requestID = none :=
        get_eq_none_of_forall_lt hids
      simp only [run, foldl_cons, foldl_nil, FSM.next, applyCommand,
        apply_of_unknown _ hunknown, hdecision]
      rfl
    rw [hnext, range'_1_concat, map_append, map_append, Nat.zero_add]
    refine ⟨?_, ?_, _, _, rfl⟩
    · change insertEntry _ _ f.store.chains.entries = _
      rw [insertEntry_of_forall_lt hkeys, hchains, hchain]
      rfl
    · change insertEntry (largeKey count) _ f.outcomes.entries = _
      rw [insertEntry_of_forall_lt hids, houtcomes]
      rfl

theorem length_putChain_largeChain (k : Nat) :
    (putChain (largeChain k)).length = 21 + k + (2 ^ 25 - 78 - 2 * k) := by
  simp only [putChain, largeChain, flatMap_cons, flatMap_nil, append_nil,
    putVersion, putValue, length_append, length_cons, length_putString, length_putUint,
    largeKey, largeValue, length_replicate]
  omega

theorem length_putOutcome_largeOutcome (k : Nat) :
    (putOutcome (largeOutcome k)).length = 57 + k := by
  simp only [putOutcome, largeOutcome, Outcome.committed, fingerprintOf, length_sum256,
    length_append, length_cons, length_nil, length_putString, length_putUint,
    largeKey, length_replicate]
  omega

theorem length_largeState {count : Nat} (h : count ≤ 1024) :
    (((range' 0 count).map largeChain).flatMap putChain).length +
      (((range' 0 count).map largeOutcome).flatMap putOutcome).length = count * 2 ^ 25 := by
  induction count with
  | zero => rfl
  | succ count ih =>
    have hind := ih (by omega)
    rw [range'_1_concat, map_append, map_append, flatMap_append,
      flatMap_append, length_append, length_append, Nat.zero_add]
    simp only [map_cons, map_nil, flatMap_cons, flatMap_nil,
      append_nil, length_putChain_largeChain, length_putOutcome_largeOutcome]
    omega

def largeFSM : FSM := FSM.run (.new .new) (largeHistory 0 1024)

def largeMeta : Meta := ⟨1024, 1, false, .zero⟩

theorem nextIndex_largeHistory (count : Nat) :
    nextIndex 0 (largeHistory 0 (count + 1)) = count + 2 := by
  rw [largeHistory, range'_1_concat, map_append, nextIndex, foldl_append, Nat.zero_add]
  rfl

theorem length_outcomeBlock_largeFSM :
    largeFSM.outcomeBlock.length =
      4 + (((range' 0 1024).map largeOutcome).flatMap putOutcome).length := by
  obtain ⟨_, houtcomes, store, outcomes, hrun⟩ := run_largeHistory 1024
  have htrailing : largeFSM.trailingBlock = [] := by
    rw [largeFSM, hrun]
    rfl
  rw [outcomeBlock, htrailing, append_nil, putCounted, length_append,
    length_putUint, largeFSM, houtcomes]

theorem fits_largeFSM : largeFSM.Fits := by
  obtain ⟨hchains, houtcomes, store, outcomes, hrun⟩ := run_largeHistory 1024
  have hcontrol : largeFSM.controlOutcomes = .empty := by rw [largeFSM, hrun]; rfl
  have hmembership : largeFSM.membershipOutcomes = .empty := by rw [largeFSM, hrun]; rfl
  have hcursor : largeFSM.gcCursor = [] := by rw [largeFSM, hrun]; rfl
  have hmem : ∀ c ∈ largeFSM.store.keyChains, ∃ k < 1024, largeChain k = c := by
    intro c hc
    rw [largeFSM, keyChains, hchains, mem_map] at hc
    simpa using hc
  have hmem' : ∀ e ∈ largeFSM.outcomes.entries, ∃ k < 1024, largeOutcome k = e := by
    intro e he
    rw [largeFSM, houtcomes, mem_map] at he
    simpa using he
  have hkey : ∀ k < 1024, (largeKey k).length < 2 ^ 32 := fun k hk => by
    rw [largeKey, length_replicate]
    omega
  exact {
    chains_lt := by
      rw [largeFSM, keyChains, hchains, length_map, length_range']
      decide
    key_lt := fun c hc => by
      obtain ⟨k, hk, rfl⟩ := hmem c hc
      exact hkey k hk
    versions_lt := fun c hc => by
      obtain ⟨k, hk, rfl⟩ := hmem c hc
      exact Nat.one_lt_two_pow (by decide)
    value_lt := fun c hc v hv x hx => by
      obtain ⟨k, hk, rfl⟩ := hmem c hc
      obtain rfl := mem_singleton.mp hv
      obtain rfl := Option.some.inj hx
      rw [largeValue, length_replicate]
      omega
    outcomes_lt := by
      rw [largeFSM, houtcomes, length_map, length_range']
      decide
    requestID_lt := fun e he => by
      obtain ⟨k, hk, rfl⟩ := hmem' e he
      exact hkey k hk
    conflictKey_lt := fun e he => by
      obtain ⟨k, hk, rfl⟩ := hmem' e he
      exact Nat.two_pow_pos 32
    controlOutcomes_lt := by rw [hcontrol]; decide
    controlID_lt := fun e he => by rw [hcontrol] at he; cases he
    membershipOutcomes_lt := by rw [hmembership]; decide
    membershipID_lt := fun e he => by rw [hmembership] at he; cases he
    gcCursor_lt := by rw [hcursor]; decide }

theorem not_countsPass_largeFSM : ¬largeFSM.CountsPass := by
  intro h
  have hchains := (run_largeHistory 1024).1
  have hcount := h.chains
  have htotal := length_largeState (Nat.le_refl 1024)
  rw [CountPasses, length_outcomeBlock_largeFSM, largeFSM, keyChains, hchains,
    length_map, length_range'] at hcount
  omega

theorem history_largeFSM : History (.new .new) 0 (largeHistory 0 1024) :=
  history_largeHistory _ (Nat.zero_le _) (by decide)

theorem size_largeFSM : largeFSM.encodeState.length < 2 ^ 64 := by
  have hchains := (run_largeHistory 1024).1
  have htotal := length_largeState (Nat.le_refl 1024)
  rw [length_encodeState, length_outcomeBlock_largeFSM, largeFSM, keyChains, hchains]
  -- closed terms of this size must not be evaluated
  generalize (((range' 0 1024).map largeChain).flatMap putChain).length = a at htotal ⊢
  generalize (((range' 0 1024).map largeOutcome).flatMap putOutcome).length = b at htotal ⊢
  omega

theorem lastIndex_largeFSM : nextIndex 0 (largeHistory 0 1024) - 1 = 1024 := by
  rw [nextIndex_largeHistory 1023]

theorem boundaryAt_largeMeta : BoundaryAt 1024 largeMeta :=
  ⟨rfl, by decide, configurationFits_zero.toConfigurationSized⟩

theorem largeState_unreadable :
    History (.new .new) 0 (largeHistory 0 1024) ∧ largeFSM.Fits ∧
    largeFSM.encodeState.length < 2 ^ 64 ∧
    nextIndex 0 (largeHistory 0 1024) - 1 = 1024 ∧ BoundaryAt 1024 largeMeta ∧
    ¬∃ data s, encode fsmFormat largeMeta largeFSM 1 = some data ∧
      decode fsmFormat data = .ok s := by
  refine ⟨history_largeFSM, fits_largeFSM, size_largeFSM, lastIndex_largeFSM,
    boundaryAt_largeMeta, ?_⟩
  have hrun : FSM.run (.new .new) (largeHistory 0 1024) = largeFSM := rfl
  obtain ⟨data, hencode, -, herror⟩ := decode_snapshot_run history_largeFSM hrun fits_largeFSM
    size_largeFSM (.inl rfl) (lastIndex_largeFSM.symm ▸ boundaryAt_largeMeta)
  obtain ⟨e, he⟩ := herror fun hpass => not_countsPass_largeFSM hpass.1
  rintro ⟨data', s, hencode', hdecode⟩
  rw [hencode] at hencode'
  obtain rfl := Option.some.inj hencode'
  rw [he] at hdecode
  cases hdecode

/-! ## A small history -/

def smallHistory : List (Nat × Command) :=
  [(1, .setClusterVersion ⟨[1], 1⟩), (2, .setClusterVersion ⟨[2], 2⟩),
    (3, .setClusterVersion ⟨[3], 3⟩), (4, .commit ⟨[4], 4, 3, [⟨[7], some [70]⟩, ⟨[8], none⟩]⟩),
    (5, .membership [5] .addLearner [9] [90]), (6, .commit ⟨[6], 6, 3, [⟨[7], some [71]⟩]⟩),
    (7, .advanceGCWatermark ⟨[7], 6, 5, 5⟩)]

theorem history_smallHistory :
    History (.new .new) 0 (smallHistory ++ [(8, .commit ⟨[8], 8, 6, [⟨[7], none⟩]⟩)]) := by
  refine .cons (by decide) (by decide) trivial (fun _ => by decide +kernel) ?_
  refine .cons (by decide) (by decide) trivial (fun _ => by decide +kernel) ?_
  refine .cons (by decide) (by decide) trivial (fun _ => by decide +kernel) ?_
  refine .cons (by decide) (by decide) trivial trivial ?_
  refine .cons (by decide) (by decide) trivial
    (show (_ : Nat) ≥ 2 by decide +kernel) ?_
  refine .cons (by decide) (by decide) trivial trivial ?_
  refine .cons (by decide) (by decide) (show (6 : Nat) < 2 ^ 64 by decide)
    (show (_ : Nat) ≥ 3 by decide +kernel) ?_
  exact .cons (by decide) (by decide) trivial trivial (.nil _ _)

theorem fits_smallHistory : (run (.new .new) smallHistory).Fits where
  chains_lt := by decide +kernel
  key_lt := by decide +kernel
  versions_lt := by decide +kernel
  value_lt c hc v hv x hx := by
    have hall : ∀ c ∈ (run (.new .new) smallHistory).store.keyChains, ∀ v ∈ c.2,
        (v.value.getD []).length < 2 ^ 32 := by decide +kernel
    simpa [hx] using hall c hc v hv
  outcomes_lt := by decide +kernel
  requestID_lt := by decide +kernel
  conflictKey_lt := by decide +kernel
  controlOutcomes_lt := by decide +kernel
  controlID_lt := by decide +kernel
  membershipOutcomes_lt := by decide +kernel
  membershipID_lt := by decide +kernel
  gcCursor_lt := by decide +kernel

theorem smallHistory_transparent :
    ∃ data s, encode fsmFormat ⟨7, 2, false, .zero⟩ (FSM.run (.new .new) smallHistory) 2 =
        some data ∧
      decode fsmFormat data = .ok s ∧
      s.fsm.run [(8, .commit ⟨[8], 8, 6, [⟨[7], none⟩]⟩)] =
        FSM.run (.new .new) (smallHistory ++ [(8, .commit ⟨[8], 8, 6, [⟨[7], none⟩]⟩)]) := by
  have hsize : (FSM.run (.new .new) smallHistory).encodeState.length < 2 ^ 35 := by
    decide +kernel
  have hinfo : BoundaryAt (nextIndex 0 smallHistory - 1) ⟨7, 2, false, .zero⟩ :=
    ⟨rfl, by decide, configurationFits_zero.toConfigurationSized⟩
  have hsound := (FSM.run_invariant history_smallHistory.left FSM.sound_new FSM.counted_new
    (Nat.zero_le _)).1
  obtain ⟨data, s, hencode, hdecode, -, -, hrun⟩ := (snapshot_transparent_iff
    history_smallHistory fits_smallHistory (Nat.lt_trans hsize (by decide)) (.inr rfl)
    hinfo).mpr ⟨FSM.countsPass_of_size hsound hsize, fun h => nomatch h.2⟩
  exact ⟨data, s, hencode, hdecode, hrun⟩

end ChronicleDB.Fsm
