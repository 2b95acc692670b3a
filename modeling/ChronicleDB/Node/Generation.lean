import ChronicleDB.Node.Propose

/-!
# The cached generation

A node keeps a copy of the cluster generation of its state machine, and asks it
before it proposes, and before it applies, what a generation allows.  Here replicas
of one log raise the generation with `FinalizeUpgrade`, change the membership and
collect garbage, restart from their snapshots and install each other's.  As in the
proposals of clients, the log is agreed on up to what is committed, and a call may
wait between its check and its proposal.
-/

namespace ChronicleDB.Node

open Foundation Fsm List Option SortedMap Applier
open Raft (Entry EntryType NodeID)

variable {e : Entry} {log log' : List Entry} {committed target : Nat} {f : FSM} {a : Applier}

/-! ## RequestIDs of the cluster -/

def literal (s : String) : Bytes := s.toList.map fun c => UInt8.ofNat c.toNat

def finalizeRequestID (target : Nat) : RequestID :=
  0 :: literal "chronicledb-finalize" ++ 0 :: literal "target=" ++ decimal target

def gcRequestID (watermark pass : Nat) : RequestID :=
  0 :: literal "chronicledb-gc" ++ 0 :: literal "w=" ++ decimal watermark ++
    0 :: literal "p=" ++ decimal pass

/-! ## Replicas of a log -/

structure Replica where
  applier : Applier
  failure : Option ApplyFailure
  /-- The latest snapshot: the state machine and its last index. -/
  snapshot : Option (FSM × Nat)

variable {r : Replica}

def reopened : Option (FSM × Nat) → Applier
  | none => .fresh
  | some (fsm, index) => ⟨fsm, index, fsm.clusterGeneration⟩

structure Fleet where
  log : List Entry
  committed : Nat
  replicas : NodeID → Replica
  /-- The calls of `FinalizeUpgrade` that have passed their check, with their targets. -/
  calls : List (NodeID × Nat)

variable {g g' : Fleet}

inductive FleetAct where
  | precheck (n : NodeID)
  | finalize (n : NodeID) (term target : Nat)
  | membership (n : NodeID) (term : Nat) (data : Bytes)
  | collect (n : NodeID) (term watermark maxVersions maxKeys : Nat)
  | other (term : Nat) (data : Bytes)
  | commit (count : Nat)
  | lose (count : Nat)
  | apply (n : NodeID)
  | snapshot (n : NodeID)
  | restart (n : NodeID)
  | install (n source : NodeID)

namespace Fleet

def fresh : Fleet := ⟨[], 0, fun _ => ⟨.fresh, none, none⟩, []⟩

def append (g : Fleet) (term : Nat) (type : EntryType) (data : Bytes) : Fleet :=
  { g with log := g.log ++ [⟨g.log.length + 1, term, type, data⟩] }

def set (g : Fleet) (n : NodeID) (r : Replica) : Fleet :=
  { g with replicas := Function.update g.replicas n r }

def applyNext (r : Replica) (e : Entry) : Replica :=
  match r.applier.applyEntry e with
  | .error f => { r with failure := some f }
  | .ok (a, _) => { r with applier := a }

def step (g : Fleet) : FleetAct → Option Fleet
  | .precheck n =>
    let r := g.replicas n
    if r.failure.isNone ∧ r.applier.clusterGeneration < Wal.maxSupportedGeneration then
      some { g with calls := (n, r.applier.clusterGeneration + 1) :: g.calls }
    else none
  | .finalize n term target =>
    if (g.replicas n).failure.isNone ∧ (n, target) ∈ g.calls then
      some { g.append term .normal
        (encodeSetClusterVersion ⟨finalizeRequestID target, target⟩) with
          calls := g.calls.erase (n, target) }
    else none
  | .membership n term data =>
    let r := g.replicas n
    if r.failure.isNone ∧ 2 ≤ r.applier.clusterGeneration then some (g.append term .config data)
    else none
  | .collect n term watermark maxVersions maxKeys =>
    let r := g.replicas n
    -- the numbers are machine integers
    if r.failure.isNone ∧ 3 ≤ r.applier.clusterGeneration ∧ watermark < 2 ^ 64 ∧
        r.applier.fsm.gcPassSeq < 2 ^ 64 ∧ maxVersions < 2 ^ 32 ∧ maxKeys < 2 ^ 32 then
      some (g.append term .normal (encodeAdvanceGCWatermark
        ⟨gcRequestID watermark r.applier.fsm.gcPassSeq, watermark, maxVersions, maxKeys⟩))
    else none
  | .other term data =>
    if isControlCommand data then none else some (g.append term .normal data)
  | .commit count =>
    if g.committed ≤ count ∧ count ≤ g.log.length then some { g with committed := count }
    else none
  | .lose count =>
    if g.committed ≤ count then some { g with log := g.log.take count } else none
  | .apply n =>
    let r := g.replicas n
    if r.failure.isSome ∨ g.committed ≤ r.applier.appliedIndex then none
    else (g.log[r.applier.appliedIndex]?).map fun e => g.set n (applyNext r e)
  | .snapshot n =>
    let r := g.replicas n
    if r.failure.isSome then none
    else some (g.set n { r with snapshot := some (r.applier.fsm, r.applier.appliedIndex) })
  | .restart n =>
    let r := g.replicas n
    some (g.set n ⟨reopened r.snapshot, none, r.snapshot⟩)
  | .install n source =>
    match (g.replicas source).snapshot with
    | none => none
    | some (fsm, index) =>
      if (g.replicas n).failure.isNone ∧ (g.replicas n).applier.appliedIndex < index then
        some (g.set n ⟨reopened (some (fsm, index)), none, some (fsm, index)⟩)
      else none

end Fleet

/-- The generation that an entry raises the cluster to, if it is such an entry. -/
def raisesTo (e : Entry) : Option Nat :=
  match e.type with
  | .config => none
  | .normal =>
    if controlKind e.data = some controlKindSetClusterVersion then
      (decodeSetClusterVersion e.data).toOption.map (·.targetGeneration)
    else none

/-- A replica that applies an entry that raises the generation is not past that already. -/
def Fleet.Current (g : Fleet) : FleetAct → Prop
  | .apply n => ∀ e ∈ g.log[(g.replicas n).applier.appliedIndex]?, ∀ target ∈ raisesTo e,
      (g.replicas n).applier.fsm.clusterGeneration ≤ target
  | _ => True

instance (g : Fleet) (a : FleetAct) : Decidable (g.Current a) :=
  match a with
  | .apply n => inferInstanceAs (Decidable
      (∀ e ∈ g.log[(g.replicas n).applier.appliedIndex]?, ∀ target ∈ raisesTo e,
        (g.replicas n).applier.fsm.clusterGeneration ≤ target))
  | .precheck _ | .finalize _ _ _ | .membership _ _ _ | .collect _ _ _ _ _ | .other _ _
  | .commit _ | .lose _ | .snapshot _ | .restart _ | .install _ _ => .isTrue trivial

def Fleet.Reachable (g : Fleet) : Prop :=
  Relation.ReflTransGen (fun g g' => ∃ a, g.step a = some g') .fresh g

def Fleet.CurrentlyReachable (g : Fleet) : Prop :=
  Relation.ReflTransGen (fun g g' => ∃ a, g.step a = some g' ∧ g.Current a) .fresh g

def Replica.Agrees (r : Replica) : Prop :=
  r.applier.clusterGeneration = r.applier.fsm.clusterGeneration

/-! ## What an entry does to the generation -/

theorem collect_control (f : FSM) (w maxVersions maxKeys : Nat) :
    (f.collect w maxVersions maxKeys).clusterGeneration = f.clusterGeneration ∧
      (f.collect w maxVersions maxKeys).controlOutcomes = f.controlOutcomes := by
  rw [FSM.collect]
  split
  · dsimp only
    split
    · exact ⟨rfl, rfl⟩
    · split <;> exact ⟨rfl, rfl⟩
  · exact ⟨rfl, rfl⟩

theorem applyAdvanceGCWatermark_control (f : FSM) (index : Nat) (cmd : AdvanceGCWatermarkCommand) :
    (f.applyAdvanceGCWatermark index cmd).1.clusterGeneration = f.clusterGeneration ∧
      ((f.applyAdvanceGCWatermark index cmd).1.controlOutcomes = f.controlOutcomes ∨
        ∃ o, (f.applyAdvanceGCWatermark index cmd).1.controlOutcomes =
          f.controlOutcomes.insert cmd.requestID o) := by
  rw [FSM.applyAdvanceGCWatermark]
  split
  · exact ⟨rfl, .inl rfl⟩
  · obtain ⟨hgeneration, houtcomes⟩ := collect_control
      { f with gcWatermark := if cmd.watermark > f.gcWatermark then cmd.watermark else f.gcWatermark }
      (if cmd.watermark > f.gcWatermark then cmd.watermark else f.gcWatermark)
      cmd.maxVersions cmd.maxKeys
    refine ⟨hgeneration, .inr ⟨.committed cmd.requestID index, ?_⟩⟩
    exact congrArg (insert · cmd.requestID (.committed cmd.requestID index)) houtcomes

theorem recordMembershipOutcome_control {f' : FSM} {id : RequestID} {kind : MembershipKind}
    {nodeID address : Bytes} {o o' : Outcome}
    (h : f.recordMembershipOutcome id kind nodeID address o = .ok (f', o')) :
    f'.clusterGeneration = f.clusterGeneration ∧ f'.controlOutcomes = f.controlOutcomes := by
  rw [FSM.recordMembershipOutcome] at h
  split at h
  · split at h <;> cases h
    exact ⟨rfl, rfl⟩
  · cases h
    exact ⟨rfl, rfl⟩

theorem apply_control {f' : FSM} {index : Nat} {cmd : CommitTxnCommand} {o : Outcome}
    (h : f.apply index cmd = .ok (f', o)) :
    f'.clusterGeneration = f.clusterGeneration ∧ f'.controlOutcomes = f.controlOutcomes := by
  rw [FSM.apply] at h
  split at h
  · cases h
    exact ⟨rfl, rfl⟩
  · split at h <;> cases h
    exact ⟨rfl, rfl⟩
  · cases h

structure Raises (e : Entry) (cmd : SetClusterVersionCommand) : Prop where
  type : e.type = .normal
  kind : controlKind e.data = some controlKindSetClusterVersion
  decode : decodeSetClusterVersion e.data = .ok cmd

theorem Raises.raisesTo {cmd : SetClusterVersionCommand} (h : Raises e cmd) :
    raisesTo e = some cmd.targetGeneration := by
  rw [Node.raisesTo, h.type]
  simp [h.kind, h.decode, Except.toOption]

structure Collects (e : Entry) (cmd : AdvanceGCWatermarkCommand) : Prop where
  type : e.type = .normal
  kind : controlKind e.data = some controlKindAdvanceGCWatermark
  decode : decodeAdvanceGCWatermark e.data = .ok cmd

inductive Moved (a : Applier) (e : Entry) (a' : Applier) : Prop
  | plain (hraises : raisesTo e = none) (hcached : a'.clusterGeneration = a.clusterGeneration)
      (hgeneration : a'.fsm.clusterGeneration = a.fsm.clusterGeneration)
      (houtcomes : a'.fsm.controlOutcomes = a.fsm.controlOutcomes ∨ ∃ cmd o, Collects e cmd ∧
        a'.fsm.controlOutcomes = a.fsm.controlOutcomes.insert cmd.requestID o)
  | raised {cmd : SetClusterVersionCommand} (hcmd : Raises e cmd)
      (hfsm : a'.fsm = (a.fsm.applySetClusterVersion e.index cmd).1)
      (hcached : a'.clusterGeneration =
        if (a.fsm.applySetClusterVersion e.index cmd).2.status = .committed then
          cmd.targetGeneration
        else a.clusterGeneration)

theorem isControlCommand_of_controlKind {data : Bytes} {kind : UInt8}
    (h : controlKind data = some kind) : isControlCommand data = true := by
  rw [controlKind] at h
  split at h
  · assumption
  · cases h

theorem raisesTo_config (h : e.type = .config) : raisesTo e = none := by
  rw [raisesTo, h]

theorem raisesTo_of_kind
    (h : controlKind e.data ≠ some controlKindSetClusterVersion) : raisesTo e = none := by
  rw [raisesTo]
  split
  · rfl
  · rw [if_neg h]

theorem moved_of_applyEntry {a' : Applier} {r : Option (RequestID × Outcome)}
    (hindex : a.appliedIndex < e.index) (h : a.applyEntry e = .ok (a', r)) :
    a'.appliedIndex = e.index ∧ Moved a e a' := by
  rw [applyEntry, if_neg (Nat.not_le.mpr hindex)] at h
  cases htype : e.type with
  | config =>
    rw [htype] at h
    have hraises := raisesTo_config htype
    simp only [applyConfigEntry] at h
    split at h
    · cases h
    split at h
    · cases h
      exact ⟨rfl, .plain hraises rfl rfl (.inl rfl)⟩
    split at h
    · cases h
    split at h
    · cases h
    rename_i fsm outcome hrecord
    cases h
    obtain ⟨hgeneration, houtcomes⟩ := recordMembershipOutcome_control hrecord
    exact ⟨rfl, .plain hraises rfl hgeneration (.inl houtcomes)⟩
  | normal =>
    rw [htype] at h
    dsimp only at h
    split at h
    case isTrue hcontrol =>
      rw [applyControlEntry] at h
      split at h
      · cases h
      rename_i kind hkind
      split at h
      · rename_i hset
        subst hset
        rw [applySetClusterVersionEntry] at h
        split at h
        · cases h
        rename_i cmd hdecode
        split at h
        · cases h
        cases h
        exact ⟨rfl, .raised ⟨htype, hkind, hdecode⟩ rfl rfl⟩
      split at h
      · rename_i hne hgc
        subst hgc
        rw [applyAdvanceGCWatermarkEntry] at h
        split at h
        · cases h
        split at h
        · cases h
        rename_i cmd hdecode
        cases h
        obtain ⟨hgeneration, houtcomes⟩ := applyAdvanceGCWatermark_control a.fsm e.index cmd
        refine ⟨rfl, .plain (raisesTo_of_kind (by rw [hkind]; simpa using hne)) rfl hgeneration
          (houtcomes.imp_right ?_)⟩
        rintro ⟨o, ho⟩
        exact ⟨cmd, o, ⟨htype, hkind, hdecode⟩, ho⟩
      · cases h
    case isFalse hcontrol =>
      have hraises : raisesTo e = none := raisesTo_of_kind fun hkind =>
        hcontrol (isControlCommand_of_controlKind hkind)
      rw [applyCommitEntry] at h
      split at h
      · cases h
      split at h
      · cases h
      rename_i fsm outcome happly
      cases h
      obtain ⟨hgeneration, houtcomes⟩ := apply_control happly
      exact ⟨rfl, .plain hraises rfl hgeneration (.inl houtcomes)⟩

def ApplyFailure.IsGate : ApplyFailure → Prop
  | .configGeneration _ _ | .gcGeneration _ _ => True
  | _ => False

theorem gate_of_applyEntry {f : ApplyFailure} (hgate : f.IsGate) (h : a.applyEntry e = .error f) :
    (e.type = .config ∧ a.clusterGeneration < 2) ∨
      (e.type = .normal ∧ controlKind e.data = some controlKindAdvanceGCWatermark ∧
        a.clusterGeneration < 3) := by
  rw [applyEntry] at h
  split at h
  · cases h
  cases htype : e.type with
  | config =>
    rw [htype] at h
    simp only [applyConfigEntry] at h
    split at h
    · cases h
      exact hgate.elim
    split at h
    · cases h
    split at h
    · rename_i hlow
      exact .inl ⟨rfl, hlow⟩
    split at h <;> cases h
    exact hgate.elim
  | normal =>
    rw [htype] at h
    dsimp only at h
    split at h
    · rw [applyControlEntry] at h
      split at h
      · cases h
        exact hgate.elim
      rename_i kind hkind
      split at h
      · rw [applySetClusterVersionEntry] at h
        split at h
        · cases h
          exact hgate.elim
        split at h <;> cases h
        exact hgate.elim
      split at h
      · rename_i hgc
        subst hgc
        rw [applyAdvanceGCWatermarkEntry] at h
        split at h
        · rename_i hlow
          exact .inr ⟨rfl, hkind, hlow⟩
        split at h <;> cases h
        exact hgate.elim
      · cases h
        exact hgate.elim
    · rw [applyCommitEntry] at h
      split at h
      · cases h
        exact hgate.elim
      split at h <;> cases h
      exact hgate.elim

/-! ## Entries that can follow a state -/

theorem length_decimal {n : Nat} (h : n < 2 ^ 64) : (decimal n).length ≤ 20 := by
  rw [decimal, length_map, Nat.length_toDigits_le_iff (by decide) (by decide)]
  exact lt_trans h (by decide)

theorem length_finalizeRequestID (h : target ≤ 3) :
    (finalizeRequestID target).length < 2 ^ 32 := by
  have := @length_decimal target (by omega)
  simp [finalizeRequestID, literal]
  omega

theorem length_gcRequestID {watermark pass : Nat} (hw : watermark < 2 ^ 64) (hp : pass < 2 ^ 64) :
    (gcRequestID watermark pass).length < 2 ^ 32 := by
  have := length_decimal hw
  have := length_decimal hp
  simp [gcRequestID, literal]
  omega

theorem finalizeRequestID_inj : ∀ target ≤ 3, ∀ target' ≤ 3,
    finalizeRequestID target = finalizeRequestID target' → target = target' := by
  decide +kernel

theorem finalizeRequestID_ne_gc (target watermark pass : Nat) :
    finalizeRequestID target ≠ gcRequestID watermark pass := by
  intro h
  have hletter : some (102 : UInt8) = some 103 := congrArg (·[13]?) h
  revert hletter
  decide

/-- The finalizations up to the generation of `f` are recorded, and no other. -/
structure Decided (f : FSM) : Prop where
  bound : f.clusterGeneration ≤ 3
  reached : ∀ target, 1 ≤ target → target ≤ f.clusterGeneration →
    ∃ o, f.controlOutcomes.get (finalizeRequestID target) = some o ∧ o.status = .committed
  ahead : ∀ target, f.clusterGeneration < target → target ≤ 3 →
    f.controlOutcomes.get (finalizeRequestID target) = none

theorem decided_new : Decided (.new .new) where
  bound := Nat.zero_le _
  reached target hone hle := absurd hle (by simp [FSM.new]; omega)
  ahead _ _ _ := rfl

/-- Where an entry of the log comes from: what was known of the generation then still
holds of the state `f` before it. -/
inductive Fits (f : FSM) (e : Entry) : Prop
  | finalize {target : Nat} (hone : 1 ≤ target) (hbound : target ≤ 3)
      (hnext : target ≤ f.clusterGeneration + 1) (htype : e.type = .normal)
      (hdata : e.data = encodeSetClusterVersion ⟨finalizeRequestID target, target⟩)
  | collect {watermark pass maxVersions maxKeys : Nat} (hgeneration : 3 ≤ f.clusterGeneration)
      (hw : watermark < 2 ^ 64) (hp : pass < 2 ^ 64) (hv : maxVersions < 2 ^ 32)
      (hk : maxKeys < 2 ^ 32) (htype : e.type = .normal)
      (hdata : e.data =
        encodeAdvanceGCWatermark ⟨gcRequestID watermark pass, watermark, maxVersions, maxKeys⟩)
  | membership (hgeneration : 2 ≤ f.clusterGeneration) (htype : e.type = .config)
  | other (htype : e.type = .normal) (hdata : isControlCommand e.data = false)

theorem Decided.applySetClusterVersion (h : Decided f) (hone : 1 ≤ target)
    (hbound : target ≤ 3) (hnext : target ≤ f.clusterGeneration + 1) (index : Nat) :
    (f.applySetClusterVersion index ⟨finalizeRequestID target, target⟩).2.status = .committed ∧
      Decided (f.applySetClusterVersion index ⟨finalizeRequestID target, target⟩).1 ∧
      (f.applySetClusterVersion index ⟨finalizeRequestID target, target⟩).1.clusterGeneration =
        max f.clusterGeneration target := by
  rcases Nat.lt_or_ge f.clusterGeneration target with hlt | hge
  · obtain rfl : target = f.clusterGeneration + 1 := by omega
    have hnone := h.ahead _ hlt hbound
    have hmod : (f.clusterGeneration + 1) % 2 ^ 32 = f.clusterGeneration + 1 :=
      Nat.mod_eq_of_lt (by omega)
    rw [FSM.applySetClusterVersion, hnone]
    simp only [hmod, ne_eq, not_true, if_false]
    refine ⟨rfl, ⟨hbound, fun t ht hle => ?_, fun t hlt' ht => ?_⟩, by simp⟩
    · rw [get_insert]
      split
      · exact ⟨_, rfl, rfl⟩
      · rename_i hid
        refine h.reached t ht (Nat.le_of_lt_succ (lt_of_le_of_ne hle ?_))
        rintro rfl
        exact hid rfl
    · rw [get_insert, if_neg]
      · exact h.ahead t (by dsimp only at hlt'; omega) ht
      · intro hid
        have := finalizeRequestID_inj t ht _ hbound hid
        dsimp only at hlt'
        omega
  · obtain ⟨o, ho, hstatus⟩ := h.reached target hone hge
    rw [FSM.applySetClusterVersion, ho]
    exact ⟨hstatus, h, (Nat.max_eq_left hge).symm⟩

theorem raises_finalize (hbound : target ≤ 3) (htype : e.type = .normal)
    (hdata : e.data = encodeSetClusterVersion ⟨finalizeRequestID target, target⟩) :
    Raises e ⟨finalizeRequestID target, target⟩ := by
  refine ⟨htype, by rw [hdata]; rfl, ?_⟩
  rw [hdata]
  exact decodeSetClusterVersion_encode (length_finalizeRequestID hbound)
    (show target < 2 ^ 32 by omega)

theorem Fits.raisesTo (h : Fits f e) :
    raisesTo e = none ∨ ∃ target ≤ 3, Raises e ⟨finalizeRequestID target, target⟩ := by
  cases h with
  | finalize hone hbound hnext htype hdata =>
    exact .inr ⟨_, hbound, raises_finalize hbound htype hdata⟩
  | collect hgeneration hw hp hv hk htype hdata =>
    refine .inl (raisesTo_of_kind fun hkind => ?_)
    rw [hdata] at hkind
    exact absurd hkind (by simp [controlKind, isControlCommand, encodeAdvanceGCWatermark,
      controlKindSetClusterVersion, controlKindAdvanceGCWatermark])
  | membership _ htype => exact .inl (raisesTo_config htype)
  | other htype hdata =>
    refine .inl (raisesTo_of_kind fun hkind => ?_)
    rw [isControlCommand_of_controlKind hkind] at hdata
    cases hdata

/-- An entry that raises the generation to one that the node knows is always applied. -/
theorem Raises.applyEntry {cmd : SetClusterVersionCommand} (h : Raises e cmd)
    (hbound : cmd.targetGeneration ≤ Wal.maxSupportedGeneration) (a : Applier) (g : ApplyFailure) :
    a.applyEntry e ≠ .error g := by
  intro herror
  rw [Applier.applyEntry, h.type] at herror
  split at herror
  · cases herror
  · dsimp only at herror
    rw [if_pos (isControlCommand_of_controlKind h.kind), Applier.applyControlEntry, h.kind] at herror
    dsimp only at herror
    rw [if_pos rfl, Applier.applySetClusterVersionEntry, h.decode] at herror
    dsimp only at herror
    rw [if_neg (by omega)] at herror
    cases herror

/-- An entry in its place, on a node whose copy is right: its gates are open, it leads to a
state of the same kind, and the copy is right again exactly if the entry is current. -/
theorem Decided.applyEntry (h : Decided a.fsm) (hfits : Fits a.fsm e)
    (hcached : a.clusterGeneration = a.fsm.clusterGeneration) (hindex : a.appliedIndex < e.index) :
    (∀ g, a.applyEntry e = .error g → ¬g.IsGate ∧ raisesTo e = none) ∧
      ∀ a' r, a.applyEntry e = .ok (a', r) → Decided a'.fsm ∧ a'.appliedIndex = e.index ∧
        a.fsm.clusterGeneration ≤ a'.fsm.clusterGeneration ∧
        (a'.clusterGeneration = a'.fsm.clusterGeneration ↔
          ∀ target ∈ raisesTo e, a.fsm.clusterGeneration ≤ target) := by
  refine ⟨fun g herror => ⟨fun hgate => ?_, ?_⟩, fun a' r hok => ?_⟩
  · rcases gate_of_applyEntry hgate herror with ⟨htype, hlow⟩ | ⟨htype, hkind, hlow⟩
    · cases hfits with
      | membership hgeneration => omega
      | finalize _ _ _ htype' | collect _ _ _ _ _ htype' | other htype' =>
        rw [htype] at htype'
        cases htype'
    · cases hfits with
      | collect hgeneration => omega
      | membership _ htype' =>
        rw [htype] at htype'
        cases htype'
      | finalize _ hbound _ htype' hdata =>
        rw [(raises_finalize hbound htype' hdata).kind] at hkind
        exact absurd hkind (by decide)
      | other _ hdata =>
        rw [isControlCommand_of_controlKind hkind] at hdata
        cases hdata
  · refine hfits.raisesTo.resolve_right ?_
    rintro ⟨target, hbound, hraises⟩
    exact hraises.applyEntry hbound a g herror
  · obtain ⟨happlied, hmoved⟩ := moved_of_applyEntry hindex hok
    cases hmoved with
    | plain hraises hsame hgeneration houtcomes =>
      have hget : ∀ target, a'.fsm.controlOutcomes.get (finalizeRequestID target) =
          a.fsm.controlOutcomes.get (finalizeRequestID target) := by
        intro target
        rcases houtcomes with hout | ⟨cmd, o, hcollects, hout⟩
        · rw [hout]
        · rw [hout, get_insert, if_neg]
          -- The entry was made by the collector, so its RequestID is of the other kind.
          intro hid
          cases hfits with
          | collect _ hw hp hv hk _ hdata =>
            have hdecode := hcollects.decode
            rw [hdata, decodeAdvanceGCWatermark_encode (length_gcRequestID hw hp) hw hv hk] at hdecode
            obtain rfl := Except.ok.inj hdecode
            exact finalizeRequestID_ne_gc _ _ _ hid
          | finalize _ hbound _ htype hdata =>
            have hkind := hcollects.kind
            rw [(raises_finalize hbound htype hdata).kind] at hkind
            exact absurd hkind (by decide)
          | membership _ htype =>
            rw [hcollects.type] at htype
            cases htype
          | other _ hdata =>
            rw [isControlCommand_of_controlKind hcollects.kind] at hdata
            cases hdata
      refine ⟨⟨hgeneration ▸ h.bound, fun target hone hle => ?_, fun target hlt hle => ?_⟩,
        happlied, hgeneration.ge, ?_⟩
      · rw [hget]
        exact h.reached target hone (hgeneration ▸ hle)
      · rw [hget]
        exact h.ahead target (hgeneration ▸ hlt) hle
      · simp [hraises, hsame, hgeneration, hcached]
    | @raised cmd hcmd hfsm hset =>
      cases hfits with
      | @finalize target hone hbound hnext htype hdata =>
        obtain rfl : cmd = ⟨finalizeRequestID target, target⟩ :=
          Except.ok.inj (hcmd.decode.symm.trans (raises_finalize hbound htype hdata).decode)
        obtain ⟨hstatus, hdecided, hgeneration⟩ :=
          h.applySetClusterVersion hone hbound hnext e.index
        rw [if_pos hstatus] at hset
        rw [← hfsm] at hdecided hgeneration
        refine ⟨hdecided, happlied, by omega, ?_⟩
        rw [hset, hgeneration, hcmd.raisesTo]
        simp only [mem_some_iff, forall_eq']
        omega
      | collect hgeneration hw hp hv hk htype hdata =>
        have hkind := hcmd.kind
        rw [hdata] at hkind
        exact absurd hkind (by simp [controlKind, isControlCommand, encodeAdvanceGCWatermark,
          controlKindSetClusterVersion, controlKindAdvanceGCWatermark])
      | membership _ htype =>
        rw [hcmd.type] at htype
        cases htype
      | other _ hdata =>
        rw [isControlCommand_of_controlKind hcmd.kind] at hdata
        cases hdata

/-! ## Replays of the log -/

def replayNext (f : FSM) (e : Entry) : Option FSM :=
  match Applier.applyEntry ⟨f, e.index - 1, f.clusterGeneration⟩ e with
  | .error _ => none
  | .ok (a, _) => some a.fsm

def replayed (es : List Entry) : Option FSM := es.foldlM replayNext (.new .new)

theorem replayed_concat (es : List Entry) (e : Entry) :
    replayed (es ++ [e]) = (replayed es).bind (replayNext · e) := by
  rw [replayed, foldlM_append]
  cases h : es.foldlM replayNext (.new .new) with
  | none => simp [replayed, h]
  | some f => simp [replayed, h]

theorem replayNext_of_applyEntry {a' : Applier} {r : Option (RequestID × Outcome)}
    (hcached : a.clusterGeneration = a.fsm.clusterGeneration) (hindex : e.index = a.appliedIndex + 1)
    (h : a.applyEntry e = .ok (a', r)) : replayNext a.fsm e = some a'.fsm := by
  have ha : (⟨a.fsm, e.index - 1, a.fsm.clusterGeneration⟩ : Applier) = a := by
    rw [hindex, ← hcached]
    rfl
  rw [replayNext, ha, h]

/-- The generation `n` was reached by the first `bound` entries. -/
def Established (log : List Entry) (bound n : Nat) : Prop :=
  ∃ j ≤ bound, ∃ f, replayed (log.take j) = some f ∧ n ≤ f.clusterGeneration

theorem Established.mono {bound bound' n : Nat} (h : Established log bound n)
    (hbound : bound ≤ bound') (hlog : log'.take bound = log.take bound) :
    Established log' bound' n := by
  obtain ⟨j, hj, f, hf, hn⟩ := h
  refine ⟨j, hj.trans hbound, f, ?_, hn⟩
  rw [← hf, ← Nat.min_eq_left hj, ← take_take, ← take_take, hlog]

/-- Where the entry after the first `i` comes from; what the node that has proposed it had
applied is committed. -/
inductive Origin (log : List Entry) (committed i : Nat) (e : Entry) : Prop
  | finalize {target : Nat} (hone : 1 ≤ target) (hbound : target ≤ 3)
      (hreached : Established log (min i committed) (target - 1)) (htype : e.type = .normal)
      (hdata : e.data = encodeSetClusterVersion ⟨finalizeRequestID target, target⟩)
  | collect {watermark pass maxVersions maxKeys : Nat}
      (hreached : Established log (min i committed) 3)
      (hw : watermark < 2 ^ 64) (hp : pass < 2 ^ 64) (hv : maxVersions < 2 ^ 32)
      (hk : maxKeys < 2 ^ 32) (htype : e.type = .normal)
      (hdata : e.data =
        encodeAdvanceGCWatermark ⟨gcRequestID watermark pass, watermark, maxVersions, maxKeys⟩)
  | membership (hreached : Established log (min i committed) 2) (htype : e.type = .config)
  | other (htype : e.type = .normal) (hdata : isControlCommand e.data = false)

theorem Origin.mono {committed' i : Nat}
    (h : Origin log committed i e) (hcommitted : committed ≤ committed')
    (hlog : log'.take committed = log.take committed) : Origin log' committed' i e := by
  have hreached : ∀ {n}, Established log (min i committed) n → Established log' (min i committed') n := by
    intro n hn
    refine hn.mono (by omega) ?_
    rw [← take_take, ← take_take, hlog]
  cases h with
  | finalize hone hbound hr htype hdata => exact .finalize hone hbound (hreached hr) htype hdata
  | collect hr hw hp hv hk htype hdata => exact .collect (hreached hr) hw hp hv hk htype hdata
  | membership hr htype => exact .membership (hreached hr) htype
  | other htype hdata => exact .other htype hdata

structure LogSound (log : List Entry) (committed : Nat) : Prop where
  index : ∀ i e, log[i]? = some e → e.index = i + 1
  origin : ∀ i e, log[i]? = some e → Origin log committed i e

theorem Origin.fits {i : Nat} (h : Origin log committed i e)
    (hmono : ∀ j ≤ i, ∀ f', replayed (log.take j) = some f' →
      f'.clusterGeneration ≤ f.clusterGeneration) : Fits f e := by
  have hreached : ∀ {n}, Established log (min i committed) n → n ≤ f.clusterGeneration := by
    rintro n ⟨j, hj, f', hf', hn⟩
    exact hn.trans (hmono j (by omega) f' hf')
  cases h with
  | finalize hone hbound hr htype hdata =>
    exact .finalize hone hbound (by have := hreached hr; omega) htype hdata
  | collect hr hw hp hv hk htype hdata => exact .collect (hreached hr) hw hp hv hk htype hdata
  | membership hr htype => exact .membership (hreached hr) htype
  | other htype hdata => exact .other htype hdata

theorem LogSound.replayed (h : LogSound log committed)
    (k : Nat) : ∀ f, replayed (log.take k) = some f → Decided f ∧
      ∀ j ≤ k, ∀ f', Node.replayed (log.take j) = some f' →
        f'.clusterGeneration ≤ f.clusterGeneration := by
  -- The entry before comes from a state below, and its own replay raises the generation.
  induction k with
  | zero =>
    intro f hf
    refine ⟨?_, fun j hj f' hf' => ?_⟩
    · cases hf
      exact decided_new
    · obtain rfl : j = 0 := by omega
      cases hf.symm.trans hf'
      exact le_rfl
  | succ k ih =>
    intro f hf
    rcases Nat.lt_or_ge k log.length with hk | hk
    · have he : log[k]? = some log[k] := getElem?_eq_getElem hk
      have htake : log.take (k + 1) = log.take k ++ [log[k]] := by
        rw [take_add_one, he]
        rfl
      have hf₀ := hf
      rw [htake, replayed_concat] at hf₀
      obtain ⟨f₀, hreplayed, hnext⟩ := bind_eq_some_iff.mp hf₀
      obtain ⟨hdecided, hmono⟩ := ih f₀ hreplayed
      have hfits := (h.origin k _ he).fits hmono
      rw [replayNext] at hnext
      split at hnext
      · cases hnext
      rename_i a r happly
      cases hnext
      have hindex : log[k].index - 1 < log[k].index := by
        rw [h.index k _ he]
        omega
      obtain ⟨hdecided', -, hle, -⟩ :=
        (Decided.applyEntry (a := ⟨f₀, _, _⟩) hdecided hfits rfl hindex).2 a r happly
      refine ⟨hdecided', fun j hj f' hf' => ?_⟩
      rcases Nat.lt_or_ge k j with hlt | hge
      · obtain rfl : j = k + 1 := by omega
        cases hf.symm.trans hf'
        exact le_rfl
      · exact (hmono j hge f' hf').trans hle
    · have hsame : log.take (k + 1) = log.take k := by
        rw [take_of_length_le hk, take_of_length_le (by omega)]
      rw [hsame] at hf
      obtain ⟨hdecided, hmono⟩ := ih f hf
      refine ⟨hdecided, fun j hj f' hf' => ?_⟩
      rcases Nat.lt_or_ge k j with hlt | hge
      · obtain rfl : j = k + 1 := by omega
        rw [hsame] at hf'
        cases hf.symm.trans hf'
        exact le_rfl
      · exact hmono j hge f' hf'

/-! ## Replicas that agree -/

/-- The replica has the state of the entries that it has applied, and the right copy. -/
structure Replica.Follows (r : Replica) (log : List Entry) (committed : Nat) : Prop where
  applied_le : r.applier.appliedIndex ≤ committed
  replayed : Node.replayed (log.take r.applier.appliedIndex) = some r.applier.fsm
  agrees : r.Agrees
  snapshot : ∀ f i, r.snapshot = some (f, i) → i ≤ committed ∧ Node.replayed (log.take i) = some f
  failure : ∀ g, r.failure = some g → ¬g.IsGate

theorem Replica.Follows.mono {committed' : Nat}
    (h : r.Follows log committed) (hcommitted : committed ≤ committed')
    (hlog : log'.take committed = log.take committed) : r.Follows log' committed' := by
  have htake : ∀ i ≤ committed, log'.take i = log.take i := by
    intro i hi
    rw [← Nat.min_eq_left hi, ← take_take, ← take_take, hlog]
  refine ⟨h.applied_le.trans hcommitted, ?_, h.agrees, fun f i hs => ?_, h.failure⟩
  · rw [htake _ h.applied_le]
    exact h.replayed
  · obtain ⟨hi, hf⟩ := h.snapshot f i hs
    exact ⟨hi.trans hcommitted, by rw [htake _ hi, hf]⟩

theorem Replica.Follows.reached
    (h : r.Follows log committed) : Established log committed r.applier.clusterGeneration :=
  ⟨_, h.applied_le, _, h.replayed, h.agrees.le⟩

theorem follows_reopened {s : Option (FSM × Nat)}
    (h : ∀ f i, s = some (f, i) → i ≤ committed ∧ replayed (log.take i) = some f) :
    Replica.Follows ⟨reopened s, none, s⟩ log committed := by
  cases s with
  | none => exact ⟨Nat.zero_le _, rfl, rfl, nofun, nofun⟩
  | some s =>
    obtain ⟨f, i⟩ := s
    obtain ⟨hi, hf⟩ := h f i rfl
    exact ⟨hi, hf, rfl, h, nofun⟩

namespace Fleet

structure Sound (g : Fleet) : Prop where
  committed_le : g.committed ≤ g.log.length
  log : LogSound g.log g.committed
  calls : ∀ n target, (n, target) ∈ g.calls →
    1 ≤ target ∧ target ≤ 3 ∧ Established g.log g.committed (target - 1)
  replicas : ∀ n, (g.replicas n).Follows g.log g.committed

theorem sound_fresh : Sound fresh where
  committed_le := le_rfl
  log := ⟨by simp [fresh], by simp [fresh]⟩
  calls := by simp [fresh]
  replicas _ := @follows_reopened [] 0 none nofun

theorem Sound.append (h : g.Sound) {term : Nat} {type : EntryType} {data : Bytes}
    (horigin : Origin g.log g.committed g.log.length ⟨g.log.length + 1, term, type, data⟩) :
    (g.append term type data).Sound := by
  have hlog : (g.append term type data).log.take g.committed = g.log.take g.committed :=
    take_append_of_le_length h.committed_le
  have hentry : ∀ i e, (g.append term type data).log[i]? = some e → g.log[i]? = some e ∨
      (i = g.log.length ∧ e = ⟨g.log.length + 1, term, type, data⟩) := by
    intro i e he
    rw [Fleet.append, getElem?_append] at he
    split at he
    · exact .inl he
    · rename_i hi
      rw [getElem?_singleton] at he
      split at he <;> cases he
      exact .inr ⟨by omega, rfl⟩
  refine ⟨?_, ⟨fun i e he => ?_, fun i e he => ?_⟩, fun n target hmem => ?_, fun n => ?_⟩
  · exact h.committed_le.trans (by simp [Fleet.append])
  · rcases hentry i e he with he | ⟨rfl, rfl⟩
    · exact h.log.index i e he
    · rfl
  · rcases hentry i e he with he | ⟨rfl, rfl⟩
    · exact (h.log.origin i e he).mono le_rfl hlog
    · exact horigin.mono le_rfl hlog
  · obtain ⟨hone, hbound, hreached⟩ := h.calls n target hmem
    exact ⟨hone, hbound, hreached.mono le_rfl hlog⟩
  · exact (h.replicas n).mono le_rfl hlog

theorem Sound.set (h : g.Sound) {n : NodeID} (hr : r.Follows g.log g.committed) :
    (g.set n r).Sound := by
  refine ⟨h.committed_le, h.log, h.calls, fun m => ?_⟩
  by_cases hm : m = n
  · subst hm
    simpa [Fleet.set] using hr
  · simpa [Fleet.set, Function.update_of_ne hm] using h.replicas m

theorem Sound.applyNext (h : g.Sound) {n : NodeID}
    (he : g.log[(g.replicas n).applier.appliedIndex]? = some e)
    (hlt : (g.replicas n).applier.appliedIndex < g.committed) :
    ((applyNext (g.replicas n) e).Agrees ↔ g.Current (.apply n)) ∧
      (g.Current (.apply n) → (applyNext (g.replicas n) e).Follows g.log g.committed) ∧
      (g.replicas n).applier.fsm.clusterGeneration ≤
        (applyNext (g.replicas n) e).applier.fsm.clusterGeneration := by
  have hr := h.replicas n
  obtain ⟨hdecided, hmono⟩ := h.log.replayed _ _ hr.replayed
  have hindex := h.log.index _ _ he
  have hfits := (h.log.origin _ _ he).fits hmono
  have hcurrent : g.Current (.apply n) ↔ ∀ target ∈ raisesTo e,
      (g.replicas n).applier.fsm.clusterGeneration ≤ target := by
    simp only [Current, he, mem_some_iff, forall_eq']
  obtain ⟨herror, hok⟩ := hdecided.applyEntry hfits hr.agrees (by omega)
  rw [hcurrent, Fleet.applyNext]
  cases happly : (g.replicas n).applier.applyEntry e with
  | error f =>
    obtain ⟨hgate, hraises⟩ := herror f happly
    refine ⟨iff_of_true hr.agrees (by simp [hraises]), fun _ => ?_, le_rfl⟩
    refine ⟨hr.applied_le, hr.replayed, hr.agrees, hr.snapshot, fun f' hf' => ?_⟩
    cases hf'
    exact hgate
  | ok p =>
    obtain ⟨a, r⟩ := p
    obtain ⟨-, happlied, hle, hiff⟩ := hok a r happly
    refine ⟨hiff, fun hcur => ?_, hle⟩
    refine ⟨by rw [happlied, hindex]; exact hlt, ?_, hiff.mpr hcur, hr.snapshot, hr.failure⟩
    have htake : g.log.take a.appliedIndex =
        g.log.take (g.replicas n).applier.appliedIndex ++ [e] := by
      rw [happlied, hindex, take_add_one, he]
      rfl
    change replayed (g.log.take a.appliedIndex) = some a.fsm
    rw [htake, replayed_concat, hr.replayed]
    exact replayNext_of_applyEntry hr.agrees hindex happly

theorem Sound.step (h : g.Sound) {a : FleetAct} (hstep : g.step a = some g')
    (hcurrent : g.Current a) : g'.Sound := by
  cases a with
  | precheck n =>
    simp only [Fleet.step] at hstep
    split at hstep
    · rename_i hguard
      cases hstep
      refine ⟨h.committed_le, h.log, fun m target hmem => ?_, h.replicas⟩
      rcases mem_cons.mp hmem with heq | hmem
      · cases heq
        exact ⟨by omega, hguard.2, (h.replicas n).reached⟩
      · exact h.calls m target hmem
    · cases hstep
  | finalize n term target =>
    simp only [Fleet.step] at hstep
    split at hstep
    · rename_i hguard
      cases hstep
      obtain ⟨hone, hbound, hreached⟩ := h.calls n target hguard.2
      have happend := @Sound.append g h term .normal _ (.finalize hone hbound
        (by rwa [Nat.min_eq_right h.committed_le]) rfl rfl)
      exact ⟨happend.committed_le, happend.log, fun m t hmem =>
        happend.calls m t (mem_of_mem_erase hmem), happend.replicas⟩
    · cases hstep
  | membership n term data =>
    simp only [Fleet.step] at hstep
    split at hstep
    · rename_i hguard
      cases hstep
      obtain ⟨j, hj, f, hf, hle⟩ := (h.replicas n).reached
      refine h.append (.membership ⟨j, ?_, f, hf, hguard.2.trans hle⟩ rfl)
      rwa [Nat.min_eq_right h.committed_le]
    · cases hstep
  | collect n term watermark maxVersions maxKeys =>
    simp only [Fleet.step] at hstep
    split at hstep
    · rename_i hguard
      cases hstep
      obtain ⟨-, hthree, hw, hp, hv, hk⟩ := hguard
      obtain ⟨j, hj, f, hf, hle⟩ := (h.replicas n).reached
      refine h.append (.collect ⟨j, ?_, f, hf, hthree.trans hle⟩ hw hp hv hk rfl rfl)
      rwa [Nat.min_eq_right h.committed_le]
    · cases hstep
  | other term data =>
    simp only [Fleet.step] at hstep
    split at hstep
    · cases hstep
    · rename_i hdata
      cases hstep
      exact h.append (.other rfl (by simpa using hdata))
  | commit count =>
    simp only [Fleet.step] at hstep
    split at hstep
    · rename_i hguard
      cases hstep
      refine ⟨hguard.2, ⟨h.log.index, fun i e he => (h.log.origin i e he).mono hguard.1 rfl⟩,
        fun n target hmem => ?_, fun n => (h.replicas n).mono hguard.1 rfl⟩
      obtain ⟨hone, hbound, hreached⟩ := h.calls n target hmem
      exact ⟨hone, hbound, hreached.mono hguard.1 rfl⟩
    · cases hstep
  | lose count =>
    simp only [Fleet.step] at hstep
    split at hstep
    · rename_i hguard
      cases hstep
      have hlog : (g.log.take count).take g.committed = g.log.take g.committed := by
        rw [take_take, Nat.min_eq_left hguard]
      have hentry : ∀ (i : Nat) (e : Entry), (g.log.take count)[i]? = some e →
          g.log[i]? = some e := by
        intro i e he
        rw [getElem?_take] at he
        split at he
        · exact he
        · cases he
      refine ⟨?_, ⟨fun i e he => h.log.index i e (hentry i e he),
        fun i e he => (h.log.origin i e (hentry i e he)).mono le_rfl hlog⟩,
        fun n target hmem => ?_, fun n => (h.replicas n).mono le_rfl hlog⟩
      · rw [length_take]
        exact le_min hguard h.committed_le
      · obtain ⟨hone, hbound, hreached⟩ := h.calls n target hmem
        exact ⟨hone, hbound, hreached.mono le_rfl hlog⟩
    · cases hstep
  | apply n =>
    simp only [Fleet.step] at hstep
    split at hstep
    · cases hstep
    · rename_i hguard
      obtain ⟨e, he, rfl⟩ := map_eq_some_iff.mp hstep
      exact h.set ((h.applyNext he (by omega)).2.1 hcurrent)
  | snapshot n =>
    simp only [Fleet.step] at hstep
    split at hstep
    · cases hstep
    · cases hstep
      have hr := h.replicas n
      refine h.set ⟨hr.applied_le, hr.replayed, hr.agrees, fun f i hs => ?_, hr.failure⟩
      cases hs
      exact ⟨hr.applied_le, hr.replayed⟩
  | restart n =>
    cases hstep
    exact h.set (follows_reopened (h.replicas n).snapshot)
  | install n source =>
    simp only [Fleet.step] at hstep
    split at hstep
    · cases hstep
    · rename_i f i hsnapshot
      split at hstep
      · cases hstep
        refine h.set (follows_reopened fun f' i' hs => ?_)
        cases hs
        exact (h.replicas source).snapshot f i hsnapshot
      · cases hstep

theorem CurrentlyReachable.sound (h : g.CurrentlyReachable) : g.Sound := by
  induction h with
  | refl => exact sound_fresh
  | tail _ hstep ih =>
    obtain ⟨a, hstep, hcurrent⟩ := hstep
    exact ih.step hstep hcurrent

theorem Sound.generation_le (h : g.Sound) {r' : Replica}
    (hr : r.Follows g.log g.committed) (hr' : r'.Follows g.log g.committed)
    (hle : r.applier.appliedIndex ≤ r'.applier.appliedIndex) :
    r.applier.clusterGeneration ≤ r'.applier.clusterGeneration := by
  rw [hr.agrees, hr'.agrees]
  exact (h.log.replayed _ _ hr'.replayed).2 _ hle _ hr.replayed

theorem step_applied {a : FleetAct} (hstep : g.step a = some g') (n : NodeID)
    (hrestart : a ≠ .restart n) :
    (g'.replicas n).applier = (g.replicas n).applier ∨
      (∃ e, a = .apply n ∧ g.log[(g.replicas n).applier.appliedIndex]? = some e ∧
        (g.replicas n).applier.appliedIndex < g.committed ∧
        g'.replicas n = applyNext (g.replicas n) e) ∨
      (g'.log = g.log ∧ g'.committed = g.committed ∧
        (g.replicas n).applier.appliedIndex < (g'.replicas n).applier.appliedIndex) := by
  have hset : ∀ {m : NodeID} {r : Replica}, (g.set m r).replicas n =
      if n = m then r else g.replicas n := by
    intro m r
    simp only [Fleet.set, Function.update_apply]
  cases a with
  | precheck | finalize | membership | collect | other | commit | lose =>
    simp only [Fleet.step] at hstep
    split at hstep <;> cases hstep
    exact .inl rfl
  | apply m =>
    simp only [Fleet.step] at hstep
    split at hstep
    · cases hstep
    rename_i hguard
    obtain ⟨e, he, rfl⟩ := map_eq_some_iff.mp hstep
    rw [hset]
    split
    · rename_i hnm
      subst hnm
      exact .inr (.inl ⟨e, rfl, he, by omega, rfl⟩)
    · exact .inl rfl
  | snapshot m =>
    simp only [Fleet.step] at hstep
    split at hstep
    · cases hstep
    cases hstep
    rw [hset]
    split
    · rename_i hnm
      subst hnm
      exact .inl rfl
    · exact .inl rfl
  | restart m =>
    cases hstep
    rw [hset, if_neg (fun hnm => hrestart (by rw [hnm]))]
    exact .inl rfl
  | install m source =>
    simp only [Fleet.step] at hstep
    split at hstep
    · cases hstep
    split at hstep
    · rename_i hguard
      cases hstep
      rw [hset]
      split
      · rename_i hnm
        subst hnm
        exact .inr (.inr ⟨rfl, rfl, hguard.2⟩)
      · exact .inl rfl
    · cases hstep

/-- A step keeps the copies right exactly if it is current. -/
theorem Sound.agrees_iff (h : g.Sound) {a : FleetAct} (hstep : g.step a = some g') :
    (∀ n, (g'.replicas n).Agrees) ↔ g.Current a := by
  refine ⟨fun hagrees => ?_, fun hcurrent n => ((h.step hstep hcurrent).replicas n).agrees⟩
  cases a with
  | apply n =>
    simp only [Fleet.step] at hstep
    split at hstep
    · cases hstep
    rename_i hguard
    obtain ⟨e, he, rfl⟩ := map_eq_some_iff.mp hstep
    refine (h.applyNext he (by omega)).1.mp ?_
    simpa [Fleet.set] using hagrees n
  | precheck | finalize | membership | collect | other | commit | lose | snapshot | restart
  | install => trivial

end Fleet

/-- As long as no replica applies a finalization to a generation that it is past already, the
cached generations are those of the state machines, no generation gate stops a replica, and
the generation grows with the applied entries, whichever replica has applied them. The first
step for which this fails makes a cached generation wrong. -/
theorem cached_generation_iff {g : Fleet} (h : g.CurrentlyReachable) :
    (∀ n, (g.replicas n).Agrees ∧ ∀ f, (g.replicas n).failure = some f → ¬f.IsGate) ∧
    (∀ n m, (g.replicas n).applier.appliedIndex ≤ (g.replicas m).applier.appliedIndex →
      (g.replicas n).applier.clusterGeneration ≤ (g.replicas m).applier.clusterGeneration) ∧
    ∀ a g', g.step a = some g' →
      ((∀ n, (g'.replicas n).Agrees) ↔ g.Current a) ∧
      (g.Current a → ∀ n, a ≠ .restart n →
        (g.replicas n).applier.clusterGeneration ≤ (g'.replicas n).applier.clusterGeneration) := by
  have hsound := h.sound
  refine ⟨fun n => ⟨(hsound.replicas n).agrees, (hsound.replicas n).failure⟩,
    fun n m => hsound.generation_le (hsound.replicas n) (hsound.replicas m),
    fun a g' hstep => ⟨hsound.agrees_iff hstep, fun hcurrent n hrestart => ?_⟩⟩
  have hsound' := hsound.step hstep hcurrent
  rcases Fleet.step_applied hstep n hrestart with hsame | ⟨e, rfl, he, hlt, hnext⟩ |
    ⟨hlog, hcommitted, hahead⟩
  · rw [hsame]
  · rw [(hsound.replicas n).agrees, (hsound'.replicas n).agrees, hnext]
    exact (hsound.applyNext he hlt).2.2
  · have hr := hsound'.replicas n
    rw [hlog, hcommitted] at hr
    exact hsound.generation_le (hsound.replicas n) hr hahead.le

/-! ## A finalization that comes late -/

namespace Fleet

def exec (g : Fleet) (acts : List FleetAct) : Option Fleet := acts.foldlM step g

def currentStep (g : Fleet) (a : FleetAct) : Option Fleet :=
  if g.Current a then g.step a else none

theorem reachable_of_exec {acts : List FleetAct} {test : Fleet → Bool}
    (h : (fresh.exec acts).any test = true) : ∃ g : Fleet, g.Reachable ∧ test g = true :=
  exists_of_foldlM_any (fun a _ _ _ hstep => ⟨a, hstep⟩) h

theorem currentlyReachable_of_exec {acts : List FleetAct} {test : Fleet → Bool}
    (h : (acts.foldlM currentStep fresh).any test = true) :
    ∃ g : Fleet, g.CurrentlyReachable ∧ test g = true := by
  refine exists_of_foldlM_any (fun a _ g g' hstep => ?_) h
  rw [currentStep] at hstep
  split at hstep
  · rename_i hcurrent
    exact ⟨a, hstep, hcurrent⟩
  · cases hstep

/-- The learner `c` is added to the voters `a` and `b`. -/
def addLearner : Bytes :=
  Raft.encodeConfigChange Raft.membershipKindAddLearner [9] [99] [49]
    ⟨[⟨[97], [50]⟩, ⟨[98], [51]⟩], [⟨[99], [49]⟩]⟩

/-- The nodes `a` and `b` check at generation 0; `b` then leads the cluster to generation 2. -/
def finalizedTwice : List FleetAct :=
  [.precheck [97], .precheck [98], .finalize [98] 1 1, .commit 1, .apply [98], .precheck [98],
    .finalize [98] 1 2, .commit 2, .apply [98], .apply [97], .apply [97]]

/-- The membership is changed by `a`, its next leader. -/
def learnerAdded : List FleetAct :=
  finalizedTwice ++ [.membership [97] 2 addLearner, .commit 3, .apply [97], .apply [98]]

/-- The call that `a` has checked at generation 0 reaches the event loop only when `a` leads. -/
def finalizedLate : List FleetAct :=
  finalizedTwice ++ [.finalize [97] 2 1, .membership [97] 2 addLearner, .commit 4, .apply [97]]

end Fleet

theorem learnerAdded_agrees : ∃ g : Fleet, g.CurrentlyReachable ∧
    (g.replicas [97]).applier.appliedIndex = 3 ∧ (g.replicas [97]).Agrees := by
  have hrun : (Fleet.learnerAdded.foldlM Fleet.currentStep .fresh).any
      (fun g => (g.replicas [97]).applier.appliedIndex = 3) = true := by
    decide +kernel
  obtain ⟨g, hreach, hthree⟩ := Fleet.currentlyReachable_of_exec hrun
  exact ⟨g, hreach, of_decide_eq_true hthree, ((cached_generation_iff hreach).1 [97]).1⟩

/-- The cached generation of `a` falls back to 1, and the change of the membership, which was
proposed at generation 2, stops it. -/
theorem finalizedLate_disagrees :
    (∃ g : Fleet, g.Reachable ∧ (g.replicas [97]).applier.clusterGeneration = 1 ∧
      (g.replicas [97]).applier.fsm.clusterGeneration = 2) ∧
    ∃ g : Fleet, g.Reachable ∧ (g.replicas [97]).failure = some (.configGeneration 4 1) := by
  constructor
  · have hrun : (Fleet.fresh.exec Fleet.finalizedLate).any (fun g =>
        (g.replicas [97]).applier.clusterGeneration = 1 ∧
          (g.replicas [97]).applier.fsm.clusterGeneration = 2) = true := by
      decide +kernel
    obtain ⟨g, hreach, hg⟩ := Fleet.reachable_of_exec hrun
    exact ⟨g, hreach, of_decide_eq_true hg⟩
  · have hrun : (Fleet.fresh.exec (Fleet.finalizedLate ++ [.apply [97]])).any (fun g =>
        (g.replicas [97]).failure = some (.configGeneration 4 1)) = true := by
      decide +kernel
    obtain ⟨g, hreach, hg⟩ := Fleet.reachable_of_exec hrun
    exact ⟨g, hreach, of_decide_eq_true hg⟩

end ChronicleDB.Node
