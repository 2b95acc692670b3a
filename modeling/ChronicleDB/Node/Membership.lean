import ChronicleDB.Foundation.Scripts
import ChronicleDB.Fsm.Restore
import ChronicleDB.Node.Apply
import ChronicleDB.Raft.Entries
import ChronicleDB.Raft.Transitions

/-!
# Membership requests

`handleMembership` of `internal/node/membership.go`, on the nodes of a cluster.  A
node applies the entries that its core commits, and its snapshots are installed by
others.  A request is checked against the outcomes of what the node has applied; the
checks of `ProposeConfigChange` are to ensure that no other configuration change is
on its way.
-/

namespace ChronicleDB.Node

open Foundation Fsm List Option Function FSM
open Raft (Act Cluster Configuration Core Entry EntryType Message
  MembershipChangeKind NodeID Output decodeConfigChange encodeConfigChange wireKindFor)

variable {c c' : Core} {n : NodeID} {index : Nat} {entries : List Entry} {state : FSM}

/-! ## Requests -/

structure MembershipReq where
  kind : MembershipChangeKind
  requestID : RequestID
  targetID : NodeID
  targetAddr : Bytes
  confirmVoterCount : Int
  deriving DecidableEq, Repr

inductive MembershipError where
  | requestIDConflict
  | nodeRemoved
  | notLeader (leader : NodeID)
  | membershipNotPermitted
  | confirmationRequired (resultingVoterCount : Nat)
  | learnerNotCaughtUp (lag : Nat)
  | peerGenerationTooOld
  | refused (e : Core.ConfigRefusal)
  deriving DecidableEq, Repr

def selfRemoved (c : Core) : Bool :=
  !c.activeConfig.isZero && !c.activeConfig.isMember c.cfg.id

def resultingVoterCount (cfg : Configuration) (kind : MembershipChangeKind)
    (targetID : NodeID) : Nat :=
  match kind with
  | .promoteToVoter => cfg.voters.length + 1
  | .removeServer =>
    if cfg.isVoter targetID then cfg.voters.length - 1 else cfg.voters.length
  | .addLearner => cfg.voters.length

/-- Whether a promotion has to wait until the generation of its target is known to suffice. -/
def generationTooOld (known : Option Nat) (generation : Nat) : Bool :=
  match known with
  | none => true
  | some g => g < generation

/-- The outcome that is on record, or the change as the core has proposed it.  `maxLag` is
`PromotionMaxLagEntries`, and `generations` what the node knows of its peers.  A proposal
always has one entry, so the check of its shape is left out. -/
def handleMembership (maxLag : Nat) (generations : NodeID → Option Nat) (a : Applier) (c : Core)
    (req : MembershipReq) : Except MembershipError (Outcome ⊕ (Core × Output)) :=
  match a.fsm.getMembershipOutcome req.requestID (fsmMembershipKind (wireKindFor req.kind))
      req.targetID req.targetAddr with
  | .ok outcome => .ok (.inl outcome)
  | .error (.requestIDConflict _) => .error .requestIDConflict
  | .error _ =>
    if selfRemoved c then .error .nodeRemoved
    else if c.role ≠ .leader then .error (.notLeader c.leaderID)
    else if a.clusterGeneration < 2 then .error .membershipNotPermitted
    else
      let resulting := resultingVoterCount c.activeConfig req.kind req.targetID
      let lag := c.lastIndex - c.matchIndex.get req.targetID
      let promotes := req.kind = .promoteToVoter ∧ c.activeConfig.isLearner req.targetID
      if req.kind ≠ .addLearner ∧ resulting < 3 ∧ (resulting : Int) ≠ req.confirmVoterCount then
        .error (.confirmationRequired resulting)
      else if promotes ∧ lag > maxLag then .error (.learnerNotCaughtUp lag)
      else if promotes ∧ generationTooOld (generations req.targetID) a.clusterGeneration then
        .error .peerGenerationTooOld
      else
        match c.proposeConfigChange req.kind req.requestID req.targetID req.targetAddr with
        | .error (.error .notLeader) => .error (.notLeader c.leaderID)
        | .error e => .error (.refused e)
        | .ok r => .ok (.inr r)

/-! ## Deployments -/

structure Server where
  applier : Applier
  failure : Option ApplyFailure
  /-- What the core has reported as committed and is not applied yet. -/
  delivered : List Entry

structure Deployment where
  cluster : Cluster
  servers : NodeID → Server
  snapshots : List (Nat × FSM)

variable {d' : Deployment}

inductive DeploymentAct where
  | event (a : Act)
  | start (n : NodeID) (state : FSM)
  | install (msg : Message) (state : FSM)
  | membership (n : NodeID) (maxLag : Nat) (generations : NodeID → Option Nat)
      (req : MembershipReq)
  | apply (n : NodeID)
  | snapshot (n : NodeID)

/-- The boundary of the snapshot that the driver installs before the core adopts it. -/
def adopted (c : Core) (msg : Message) : Option Nat :=
  match msg.body with
  | .installSnapshotRequest index _ _ _ =>
    if msg.term ≥ c.currentTerm ∧ index > c.snapshotIndex ∧ index > c.commitIndex then
      some index
    else none
  | _ => none

def plain (s : Cluster) : Act → Bool
  | .start _ | .apply _ _ | .proposeConfig _ _ _ _ _ => false
  | .deliver msg => ((s.idle msg.receiver).bind (adopted · msg)).isNone
  | _ => true

/-- A node that is opened at a boundary, with the state of the snapshot there. -/
def Server.opened (index : Nat) (state : FSM) : Server :=
  ⟨if index = 0 then .fresh else ⟨state.written, index, state.clusterGeneration⟩, none, []⟩

def Server.applyNext (sv : Server) (e : Entry) (rest : List Entry) : Server :=
  match sv.applier.applyEntry e with
  | .error f => { sv with failure := some f }
  | .ok (a, _) => { sv with applier := a, delivered := rest }

namespace Deployment

def fresh : Deployment := ⟨.fresh, fun _ => ⟨.fresh, none, []⟩, []⟩

/-- The cores have moved to `s`, and what they have reported is handed over. -/
def advance (d : Deployment) (s : Cluster) : Deployment :=
  { d with
    cluster := s
    servers := fun n => { d.servers n with delivered := (d.servers n).delivered ++
      ((s.reports.drop d.cluster.reports.length).filter (·.node = n)).map (·.entry) } }

def reset (d : Deployment) (n : NodeID) (sv : Server) (s : Cluster) : Deployment :=
  { d with cluster := s, servers := Function.update d.servers n sv }

/-- One step; `none` if `act` is not possible.  Snapshots are installed from generation 2 on. -/
def step (boot : NodeID → Configuration) (d : Deployment) : DeploymentAct → Option Deployment
  | .event a => if plain d.cluster a then (d.cluster.step boot a).map d.advance else none
  | .start n state =>
    let index := (d.cluster.replicas n).store.boundaryIndex
    if index = 0 ∨ (index, state) ∈ d.snapshots ∧ 2 ≤ state.clusterGeneration then
      (d.cluster.step boot (.start n)).map (d.reset n (.opened index state))
    else none
  | .install msg state =>
    match (d.cluster.idle msg.receiver).bind (adopted · msg) with
    | none => none
    | some index =>
      let sv := d.servers msg.receiver
      if sv.failure.isNone ∧ sv.delivered = [] ∧ (index, state) ∈ d.snapshots ∧
          2 ≤ state.clusterGeneration then
        (d.cluster.step boot (.deliver msg)).map
          (d.reset msg.receiver (.opened index state))
      else none
  | .membership n maxLag generations req =>
    match d.cluster.idle n with
    | none => none
    | some c =>
      -- the event loop has applied all it was handed before it takes a request
      if (d.servers n).failure.isSome ∨ (d.servers n).delivered ≠ [] then none
      else match handleMembership maxLag generations (d.servers n).applier c req with
        | .ok (.inr _) => (d.cluster.step boot (.proposeConfig n req.kind req.requestID
            req.targetID req.targetAddr)).map d.advance
        | _ => some d
  | .apply n =>
    match (d.servers n).failure, (d.servers n).delivered with
    | none, e :: rest => (d.cluster.step boot (.apply n e.index)).map
        (d.reset n ((d.servers n).applyNext e rest))
    | _, _ => none
  | .snapshot n =>
    let sv := d.servers n
    if (d.cluster.idle n).isNone ∨ sv.failure.isSome then none
    else some { d with
      snapshots := (sv.applier.appliedIndex, sv.applier.fsm) :: d.snapshots }

end Deployment

/-! ## One sequence of committed entries -/

/-- The cores commit the entries of `sequence`, and a leader with an entry of its own in it
has all of the sequence up to there in its log. -/
structure Agreed (sequence : List Entry) (s : Cluster) : Prop where
  commit_le : ∀ n c, (s.replicas n).core = some c → c.commitIndex ≤ sequence.length
  committed : ∀ n c, (s.replicas n).core = some c → ∀ i, c.snapshotIndex ≤ i →
    i < c.commitIndex → c.log[i - c.snapshotIndex]? = sequence[i]?
  leaders : ∀ n c, (s.replicas n).core = some c → c.role = .leader → ∀ k e,
    sequence[k]? = some e → e.term = c.currentTerm → k < c.lastIndex →
    ∀ i, c.snapshotIndex ≤ i → i ≤ k → c.log[i - c.snapshotIndex]? = sequence[i]?

/-- Runs whose cores agree on `sequence` throughout. -/
def Deployment.Run (boot : NodeID → Configuration) (sequence : List Entry) :
    Deployment → Deployment → Prop :=
  Relation.ReflTransGen fun d d' => Agreed sequence d'.cluster ∧ ∃ a, d.step boot a = some d'

/-! ## The RequestIDs of a sequence -/

def changeID (e : Entry) : Option RequestID :=
  match e.type with
  | .normal => none
  | .config =>
    match decodeConfigChange e.data with
    | .error _ => none
    | .ok change => if change.cfg.isSome then some change.requestID else none

def changeIDs (entries : List Entry) : List RequestID := entries.filterMap changeID

def FirstUse (sequence : List Entry) (e : Entry) : Prop :=
  ∀ k, sequence[k]? = some e → e.index = k + 1 → ∀ id, changeID e = some id →
    id ∉ changeIDs (sequence.take k)

/-- The outcomes in `f` are those of the first entries of the sequence. -/
def Recorded (sequence : List Entry) (f : FSM) (applied : Nat) : Prop :=
  ∀ id, (f.membershipOutcomes.get id).isSome = true ↔ id ∈ changeIDs (sequence.take applied)

theorem changeID_normal {e : Entry} (h : e.type = .normal) : changeID e = none := by
  rw [changeID, h]

theorem configuration?_of_changeID {e : Entry} {id : RequestID} (h : changeID e = some id) :
    ∃ cfg, e.configuration? = some cfg := by
  rw [changeID] at h
  rw [Entry.configuration?]
  cases htype : e.type with
  | normal =>
    rw [htype] at h
    cases h
  | config =>
    rw [htype] at h
    cases hdecode : decodeConfigChange e.data with
    | error =>
      simp only [hdecode] at h
      cases h
    | ok change =>
      simp only [hdecode] at h
      split at h
      case isTrue hcfg => exact isSome_iff_exists.mp hcfg
      case isFalse => cases h

theorem changeIDs_take_succ {k : Nat} {e : Entry} (h : entries[k]? = some e) :
    changeIDs (entries.take (k + 1)) = changeIDs (entries.take k) ++ (changeID e).toList := by
  rw [changeIDs, take_add_one, h, filterMap_append]
  cases hid : changeID e <;> simp [changeIDs, hid]

theorem mem_changeIDs_take {k : Nat} {id : RequestID} :
    id ∈ changeIDs (entries.take k) ↔ ∃ j < k, ∃ e, entries[j]? = some e ∧ changeID e = some id := by
  rw [changeIDs, mem_filterMap]
  simp only [mem_iff_getElem?, getElem?_take]
  constructor
  · rintro ⟨e, ⟨j, hj⟩, hid⟩
    split at hj
    case isTrue hlt => exact ⟨j, hlt, e, hj, hid⟩
    case isFalse => cases hj
  · rintro ⟨j, hlt, e, he, hid⟩
    exact ⟨e, ⟨j, by rw [if_pos hlt, he]⟩, hid⟩

/-! ## What an entry does to the outcomes -/

theorem collect_membershipOutcomes (f : FSM) (w maxVersions maxKeys : Nat) :
    (f.collect w maxVersions maxKeys).membershipOutcomes = f.membershipOutcomes := by
  rw [collect]
  split
  · dsimp only
    split
    · rfl
    · split <;> rfl
  · rfl

theorem applyAdvanceGCWatermark_membershipOutcomes (f : FSM) (index : Nat)
    (cmd : AdvanceGCWatermarkCommand) :
    (f.applyAdvanceGCWatermark index cmd).1.membershipOutcomes = f.membershipOutcomes := by
  rw [applyAdvanceGCWatermark]
  split
  · rfl
  · exact collect_membershipOutcomes _ _ _ _

theorem applySetClusterVersion_membershipOutcomes (f : FSM) (index : Nat)
    (cmd : SetClusterVersionCommand) :
    (f.applySetClusterVersion index cmd).1.membershipOutcomes = f.membershipOutcomes := by
  rw [applySetClusterVersion]
  split
  · rfl
  · dsimp only
    split <;> rfl

theorem apply_membershipOutcomes {f f' : FSM} {cmd : CommitTxnCommand} {o : Outcome}
    (h : f.apply index cmd = .ok (f', o)) : f'.membershipOutcomes = f.membershipOutcomes := by
  rw [apply] at h
  split at h
  · cases h
    rfl
  · split at h <;> cases h
    rfl
  · cases h

namespace Applier

variable {a a' : Applier} {e : Entry} {r : Option (RequestID × Outcome)}

theorem applyEntry_normal (htype : e.type = .normal) (hnew : a.appliedIndex < e.index) :
    (∀ i err, a.applyEntry e ≠ .error (.membershipOutcome i err)) ∧
      ∀ a' r, a.applyEntry e = .ok (a', r) → a'.appliedIndex = e.index ∧
        a'.fsm.membershipOutcomes = a.fsm.membershipOutcomes := by
  rw [applyEntry, if_neg (Nat.not_le.mpr hnew), htype]
  dsimp only
  split
  · rw [applyControlEntry]
    split
    · exact ⟨by simp, by simp⟩
    split
    · rw [applySetClusterVersionEntry]
      split
      · exact ⟨by simp, by simp⟩
      split
      · exact ⟨by simp, by simp⟩
      · refine ⟨by simp, fun a' r h => ?_⟩
        cases h
        exact ⟨rfl, applySetClusterVersion_membershipOutcomes _ _ _⟩
    split
    · rw [applyAdvanceGCWatermarkEntry]
      split
      · exact ⟨by simp, by simp⟩
      split
      · exact ⟨by simp, by simp⟩
      · refine ⟨by simp, fun a' r h => ?_⟩
        cases h
        exact ⟨rfl, applyAdvanceGCWatermark_membershipOutcomes _ _ _⟩
    · exact ⟨by simp, by simp⟩
  · rw [applyCommitEntry]
    split
    · exact ⟨by simp, by simp⟩
    split
    · exact ⟨by simp, by simp⟩
    case h_2 happly =>
      refine ⟨by simp, fun a' r h => ?_⟩
      cases h
      exact ⟨rfl, apply_membershipOutcomes happly⟩

theorem applyEntry_config {sequence : List Entry} (h : Recorded sequence a.fsm a.appliedIndex)
    (he : sequence[a.appliedIndex]? = some e) (hindex : e.index = a.appliedIndex + 1)
    (hfirst : FirstUse sequence e) (htype : e.type = .config) :
    (∀ i err, a.applyEntry e ≠ .error (.membershipOutcome i err)) ∧
      ∀ a' r, a.applyEntry e = .ok (a', r) → a'.appliedIndex = e.index ∧
        Recorded sequence a'.fsm a'.appliedIndex := by
  have hids := changeIDs_take_succ he
  have hunused := hfirst _ he hindex
  rw [changeID, htype] at hids hunused
  rw [applyEntry, if_neg (by omega), htype]
  dsimp only
  rw [applyConfigEntry]
  split
  · exact ⟨by simp, by simp⟩
  case h_2 change hdecode =>
  simp only [hdecode] at hids hunused
  dsimp only
  split
  case h_1 hcfg =>
    refine ⟨by simp, fun a' r hok => ?_⟩
    cases hok
    refine ⟨rfl, fun id => ?_⟩
    simpa [hindex, hids, hcfg] using h id
  case h_2 cfg hcfg =>
  split
  · exact ⟨by simp, by simp⟩
  have hnone : a.fsm.membershipOutcomes.get change.requestID = none := by
    have := hunused change.requestID (by simp [hcfg])
    rw [← h change.requestID] at this
    simpa using this
  rw [recordMembershipOutcome]
  simp only [hnone]
  refine ⟨by simp, fun a' r hok => ?_⟩
  cases hok
  refine ⟨rfl, fun id => ?_⟩
  dsimp only
  rw [SortedMap.get_insert, hindex, hids]
  simp only [hcfg, isSome_some, if_true, toList_some, mem_append, mem_singleton]
  split
  case isTrue hid => simp [hid]
  case isFalse hid => simpa [hid] using h id

theorem applyEntry_recorded {sequence : List Entry} (h : Recorded sequence a.fsm a.appliedIndex)
    (he : sequence[a.appliedIndex]? = some e) (hindex : e.index = a.appliedIndex + 1)
    (hfirst : FirstUse sequence e) :
    (∀ i err, a.applyEntry e ≠ .error (.membershipOutcome i err)) ∧
      ∀ a' r, a.applyEntry e = .ok (a', r) → a'.appliedIndex = e.index ∧
        Recorded sequence a'.fsm a'.appliedIndex := by
  cases htype : e.type with
  | config => exact applyEntry_config h he hindex hfirst htype
  | normal =>
    obtain ⟨herror, hok⟩ := applyEntry_normal (a := a) htype (by omega)
    refine ⟨herror, fun a' r happly => ?_⟩
    obtain ⟨happlied, hsame⟩ := hok a' r happly
    refine ⟨happlied, fun id => ?_⟩
    rw [hsame, happlied, hindex, changeIDs_take_succ he, changeID_normal htype]
    simpa using h id

end Applier

/-! ## Proposals -/

theorem handleMembership_proposes {maxLag : Nat} {generations : NodeID → Option Nat} {a : Applier}
    {req : MembershipReq} {r : Core × Output}
    (h : handleMembership maxLag generations a c req = .ok (.inr r)) :
    a.fsm.membershipOutcomes.get req.requestID = none ∧
      c.proposeConfigChange req.kind req.requestID req.targetID req.targetAddr = .ok r := by
  rw [handleMembership, getMembershipOutcome] at h
  cases hget : a.fsm.membershipOutcomes.get req.requestID with
  | some entry =>
    simp only [hget] at h
    by_cases hfp : entry.fingerprint = membershipFingerprintOf
        (fsmMembershipKind (wireKindFor req.kind)) req.targetID req.targetAddr
    · simp [hfp] at h
    · simp [hfp] at h
  | none =>
    refine ⟨rfl, ?_⟩
    simp only [hget] at h
    iterate 6
      split at h
      · cases h
    split at h
    · cases h
    · cases h
    · cases h
      assumption

theorem proposeConfigChange_serialized {kind : MembershipChangeKind} {requestID : Bytes}
    {targetID : NodeID} {targetAddr : Bytes} {r : Core × Output}
    (h : c.proposeConfigChange kind requestID targetID targetAddr = .ok r) :
    c.activeConfigIndex ≤ c.commitIndex := by
  unfold Core.proposeConfigChange at h
  iterate 3
    split at h
    · cases h
  split at h
  · cases h
  · omega

theorem changeID_proposed {kind : MembershipChangeKind} {requestID targetID targetAddr : Bytes}
    {cfg : Configuration} {e : Entry} (hvoters : cfg.voters ≠ []) (htype : e.type = .config)
    (hdata : e.data = encodeConfigChange (wireKindFor kind) requestID targetID targetAddr cfg)
    (hfits : Cluster.fits e.data = true) : changeID e = some requestID := by
  have hlength := Cluster.lt_of_fits hfits
  rw [changeID, htype]
  dsimp only
  rw [hdata, Raft.decodeConfigChange_encode hvoters (hdata ▸ hlength)]
  rfl

/-- All configuration changes in the log of a leader that may propose one are applied, so its
check has seen their RequestIDs. -/
theorem firstUse_of_proposed {sequence : List Entry} {f : FSM} {e : Entry}
    {requestID : RequestID} (htracks : c.Tracks) (hgate : c.activeConfigIndex ≤ c.commitIndex)
    (hboundary : c.snapshotIndex ≤ c.commitIndex) (hrecorded : Recorded sequence f c.commitIndex)
    (hunknown : f.membershipOutcomes.get requestID = none) (happends : c.Appends c' e)
    (hid : changeID e = some requestID)
    (hleader : ∀ k e, sequence[k]? = some e → e.term = c'.currentTerm → k < c'.lastIndex →
      ∀ i, c'.snapshotIndex ≤ i → i ≤ k → c'.log[i - c'.snapshotIndex]? = sequence[i]?) :
    FirstUse sequence e := by
  intro k hk hindex id hid' hmem
  obtain rfl : requestID = id := some.inj (hid.symm.trans hid')
  obtain ⟨j, hj, e', he', hsame⟩ := mem_changeIDs_take.mp hmem
  have hlast : k = c.lastIndex := by
    have := happends.index
    omega
  -- where the boundary is not above it, the entry is in the log of the leader
  have hcommitted : j < c.commitIndex := by
    by_cases hsnap : c.snapshotIndex ≤ j
    · have hindexes : c'.snapshotIndex = c.snapshotIndex := happends.boundary.index
      have hlog := hleader k e hk (happends.entryTerm.trans happends.term.symm)
        (by rw [Core.lastIndex, happends.log, hindexes, hlast, Core.lastIndex]; simp) j
        (hindexes ▸ hsnap) (by omega)
      rw [happends.log, hindexes, he', getElem?_append_left
        (by rw [hlast, Core.lastIndex] at hj; omega)] at hlog
      obtain ⟨cfg, hcfg⟩ := configuration?_of_changeID hsame
      exact (htracks.lt_activeConfigIndex hsnap hlog (by simp [hcfg])).trans_le hgate
    · omega
  have hsome := (hrecorded requestID).mpr (mem_changeIDs_take.mpr ⟨j, hcommitted, e', he', hsame⟩)
  rw [hunknown] at hsome
  cases hsome

/-! ## Nodes that follow the sequence -/

structure Server.Follows (sequence : List Entry) (core : Option Core) (sv : Server) : Prop where
  recorded : Recorded sequence sv.applier.fsm sv.applier.appliedIndex
  /-- What is handed over and what is applied make up what the core has committed. -/
  delivered : ∃ commit, sv.applier.appliedIndex ≤ commit ∧ commit ≤ sequence.length ∧
    sv.delivered = (sequence.take commit).drop sv.applier.appliedIndex ∧
    ∀ c, core = some c → c.commitIndex = commit
  indexed : ∀ k e, sv.delivered[k]? = some e → e.index = sv.applier.appliedIndex + k + 1
  first : ∀ e ∈ sv.delivered, FirstUse sequence e
  failure : ∀ i err, sv.failure ≠ some (.membershipOutcome i err)

theorem newlyCommitted_eq {sequence : List Entry} {n : Nat}
    (hboundary : c.snapshotIndex ≤ c.commitIndex)
    (hlog : ∀ i, c.snapshotIndex ≤ i → i < n → c.log[i - c.snapshotIndex]? = sequence[i]?) :
    c.newlyCommitted n = (sequence.take n).drop c.commitIndex := by
  refine ext_getElem? fun k => ?_
  rw [Core.newlyCommitted, Core.slice, getElem?_drop, getElem?_drop, getElem?_take, getElem?_take]
  have hstart : max (c.commitIndex + 1) (c.snapshotIndex + 1) - c.snapshotIndex - 1 =
      c.commitIndex - c.snapshotIndex := by omega
  rw [hstart]
  by_cases hk : c.commitIndex + k < n
  · rw [if_pos (by omega), if_pos hk, ← hlog (c.commitIndex + k) (by omega) hk]
    congr 1
    omega
  · rw [if_neg (by omega), if_neg hk]

namespace Server.Follows

variable {sequence : List Entry} {sv : Server} {core : Option Core}

theorem opened (hindex : index ≤ sequence.length)
    (hstate : index = 0 ∨ Recorded sequence state index ∧ 2 ≤ state.clusterGeneration)
    (hcore : ∀ c, core = some c → c.commitIndex = index) :
    (Server.opened index state).Follows sequence core := by
  have happlier : (Server.opened index state).applier.appliedIndex = index ∧
      Recorded sequence (Server.opened index state).applier.fsm index := by
    rw [Server.opened]
    split
    case isTrue hzero =>
      subst hzero
      exact ⟨rfl, fun id => by simp [Applier.fresh, new, changeIDs]⟩
    case isFalse hzero =>
      obtain ⟨hrecorded, hgeneration⟩ := hstate.resolve_left hzero
      refine ⟨rfl, fun id => ?_⟩
      simpa [written, Nat.not_lt.mpr hgeneration] using hrecorded id
  obtain ⟨happlied, hrecorded⟩ := happlier
  refine ⟨happlied.symm ▸ hrecorded, ⟨index, happlied.le, hindex, ?_, hcore⟩, ?_, ?_, ?_⟩
  · rw [happlied, drop_eq_nil_of_le (by simp)]
    rfl
  all_goals simp [Server.opened]

theorem congr (h : sv.Follows sequence core) {core' : Option Core}
    (hcore : ∀ c', core' = some c' → ∃ c, core = some c ∧ c'.commitIndex = c.commitIndex) :
    sv.Follows sequence core' := by
  obtain ⟨commit, hle, hlen, heq, hcommit⟩ := h.delivered
  refine ⟨h.recorded, ⟨commit, hle, hlen, heq, fun c' hc' => ?_⟩, h.indexed, h.first, h.failure⟩
  obtain ⟨c, hc, hsame⟩ := hcore c' hc'
  exact hsame.trans (hcommit c hc)

theorem deliver {ℓ : List Entry} {K : Entry → Prop}
    (h : sv.Follows sequence (some c)) (hbacked : c.Backed K ℓ)
    (hfirst : ∀ e ∈ c.log, FirstUse sequence e) (hle : c.commitIndex ≤ c'.commitIndex)
    (hlog : c'.log = c.log) (hindex : c'.snapshotIndex = c.snapshotIndex)
    (hentries : entries = c.newlyCommitted c'.commitIndex)
    (hlength : c'.commitIndex ≤ sequence.length)
    (hagreed : ∀ i, c'.snapshotIndex ≤ i → i < c'.commitIndex →
      c'.log[i - c'.snapshotIndex]? = sequence[i]?) :
    Server.Follows sequence (some c') { sv with delivered := sv.delivered ++ entries } := by
  obtain ⟨commit, happlied, -, hdelivered, hcommit⟩ := h.delivered
  obtain rfl := hcommit c rfl
  rw [hlog, hindex] at hagreed
  have hpiece := newlyCommitted_eq hbacked.boundary hagreed
  have hall : sv.delivered ++ entries =
      (sequence.take c'.commitIndex).drop sv.applier.appliedIndex := by
    rw [hdelivered, hentries, hpiece, Raft.drop_take_append happlied hle]
  refine ⟨h.recorded, ⟨c'.commitIndex, happlied.trans hle, hlength, hall, ?_⟩, fun k e he => ?_,
    fun e he => ?_, h.failure⟩
  · rintro _ ⟨⟩
    rfl
  · dsimp only at he ⊢
    by_cases hk : k < sv.delivered.length
    · rw [getElem?_append_left hk] at he
      exact h.indexed k e he
    · -- a new entry has its place in the log of the core
      rw [hall, getElem?_drop, getElem?_take] at he
      split at he
      case isFalse => cases he
      case isTrue hlt =>
        have hboundary := hbacked.boundary
        have hpast : c.commitIndex ≤ sv.applier.appliedIndex + k := by
          rw [hdelivered, length_drop, length_take] at hk
          omega
        have hget := hagreed _ (hboundary.trans hpast) hlt
        rw [he, hbacked.shows.log, getElem?_drop,
          Nat.add_sub_cancel' (hboundary.trans hpast)] at hget
        exact hbacked.indexed _ e hget
  · rcases mem_append.mp he with he | he
    · exact h.first e he
    · rw [hentries] at he
      exact hfirst e (Raft.Core.mem_of_mem_slice he)

theorem head {e : Entry} {rest : List Entry} (h : sv.Follows sequence core)
    (hdelivered : sv.delivered = e :: rest) :
    sequence[sv.applier.appliedIndex]? = some e ∧ e.index = sv.applier.appliedIndex + 1 ∧
      FirstUse sequence e := by
  obtain ⟨commit, -, -, heq, -⟩ := h.delivered
  have hhead : ((sequence.take commit).drop sv.applier.appliedIndex)[0]? = some e := by
    rw [← heq, hdelivered]
    rfl
  rw [getElem?_drop, getElem?_take, Nat.add_zero] at hhead
  split at hhead
  · exact ⟨hhead, h.indexed 0 e (by rw [hdelivered]; rfl), h.first e (by simp [hdelivered])⟩
  · cases hhead

theorem applyNext {e : Entry} {rest : List Entry} (h : sv.Follows sequence core)
    (hdelivered : sv.delivered = e :: rest) :
    (sv.applyNext e rest).Follows sequence core := by
  obtain ⟨commit, happlied, hlength, heq, hcommit⟩ := h.delivered
  obtain ⟨hget, hindex, hfirst⟩ := h.head hdelivered
  have hlt : sv.applier.appliedIndex < commit := by
    have := congrArg length heq
    rw [hdelivered, length_cons, length_drop, length_take] at this
    omega
  obtain ⟨herror, hok⟩ := Applier.applyEntry_recorded h.recorded hget hindex hfirst
  rw [Server.applyNext]
  split
  case h_1 f hf =>
    refine ⟨h.recorded, h.delivered, h.indexed, h.first, fun i err hfailure => ?_⟩
    cases hfailure
    exact herror i err hf
  case h_2 a r happly =>
    obtain ⟨happliedIndex, hrecorded⟩ := hok a r happly
    have hrest : rest = (sequence.take commit).drop (sv.applier.appliedIndex + 1) := by
      rw [← drop_drop, ← heq, hdelivered]
      rfl
    refine ⟨hrecorded, ⟨commit, ?_, hlength, ?_, hcommit⟩, fun k e' he' => ?_, fun e' he' => ?_,
      h.failure⟩
    · dsimp only
      omega
    · dsimp only
      rw [happliedIndex, hindex]
      exact hrest
    · have := h.indexed (k + 1) e' (by rw [hdelivered]; exact he')
      dsimp only
      omega
    · exact h.first e' (by rw [hdelivered]; exact mem_cons_of_mem e he')

end Server.Follows

namespace Deployment

structure Sound (boot : NodeID → Configuration) (sequence : List Entry) (d : Deployment) : Prop where
  run : Cluster.Run boot (fun _ _ => True) .fresh d.cluster
  entries : d.cluster.Carries (FirstUse sequence)
  servers : ∀ n, (d.servers n).Follows sequence (d.cluster.replicas n).core
  snapshots : ∀ index state, (index, state) ∈ d.snapshots →
    index ≤ sequence.length ∧ Recorded sequence state index

theorem sound_fresh (boot : NodeID → Configuration) (sequence : List Entry) :
    Sound boot sequence fresh where
  run := .refl
  entries := .fresh
  servers _ := @Server.Follows.opened 0 (.new .new) sequence none (Nat.zero_le _) (.inl rfl) nofun
  snapshots := nofun

variable {boot : NodeID → Configuration} {sequence : List Entry} {d : Deployment} {s : Cluster}
  {a : Act}

theorem advance_moved (d : Deployment) (n : NodeID) (r : Raft.Replica) (ms : List Message)
    {reps : List Raft.Report} (ps : List (NodeID × Raft.Panic)) (hreps : ∀ rep ∈ reps, rep.node = n) :
    (d.advance (d.cluster.moved n r ms reps ps)).servers =
      update d.servers n
        { d.servers n with
          delivered := (d.servers n).delivered ++ reps.map (·.entry) } := by
  have hdrop : (d.cluster.reports ++ reps).drop d.cluster.reports.length = reps :=
    drop_left ..
  funext m
  by_cases hm : m = n
  · subst hm
    have hfilter : reps.filter (·.node = m) = reps :=
      filter_eq_self.mpr fun rep hrep => by simp [hreps rep hrep]
    simp [advance, Cluster.moved, hdrop, hfilter]
  · have hfilter : reps.filter (·.node = m) = [] :=
      filter_eq_nil_iff.mpr fun rep hrep => by simp [hreps rep hrep, Ne.symm hm]
    simp [advance, Cluster.moved, hdrop, hfilter, update_of_ne hm]

theorem Sound.advance (h : d.Sound boot sequence) (hstep : d.cluster.step boot a = some s)
    (hagreed : Agreed sequence s) (hstart : ∀ n, a ≠ .start n)
    (hadopted : ∀ msg, a = .deliver msg →
      (d.cluster.idle msg.receiver).bind (adopted · msg) = none)
    (hown : ∀ data c c' e, Raft.Hands a.node a (.propose data) → d.cluster.idle a.node = some c →
      (s.replicas a.node).core = some c' → c.Appends c' e → FirstUse sequence e) :
    (d.advance s).Sound boot sequence := by
  have hentries := h.entries.step hstep hown
  have hrun : Cluster.Run boot (fun _ _ => True) .fresh s := h.run.tail ⟨a, trivial, hstep⟩
  refine ⟨hrun, hentries, ?_, h.snapshots⟩
  obtain ⟨n, r', ms, reps, ps, hmoves, rfl⟩ := Cluster.step_moves hstep
  obtain rfl := hmoves.node_eq
  rw [advance_moved d _ r' ms ps hmoves.reports_node]
  have hbacked := Cluster.Run.backed h.run
  intro m
  by_cases hm : m = a.node
  · subst hm
    rw [update_self]
    have hcore : ((d.advance (d.cluster.moved a.node r' ms reps ps)).cluster.replicas a.node).core =
        r'.core := by simp [Deployment.advance, Cluster.moved]
    rw [hcore]
    cases hr' : r'.core with
    | none =>
      rw [hmoves.reports_of_down hr', map_nil, append_nil]
      refine (h.servers _).congr fun c' hc' => ?_
      cases hc'
    | some c' =>
      have hkeep : ∀ c, (d.cluster.replicas a.node).core = some c →
          c'.commitIndex = c.commitIndex → reps = [] →
          Server.Follows sequence (some c') { d.servers a.node with
            delivered := (d.servers a.node).delivered ++ reps.map (·.entry) } := by
        rintro c hc hsame rfl
        rw [map_nil, append_nil]
        refine (h.servers _).congr fun c'' hc'' => ⟨c, hc, ?_⟩
        cases hc''
        exact hsame
      have hcore' : ((d.cluster.moved a.node r' ms reps ps).replicas a.node).core = some c' := by
        simpa [Cluster.moved] using hr'
      cases hmoves.delivers (fun c hc => (((hbacked.replica _).core c hc).choose_spec).boundary)
        hr' with
      | opened start => exact absurd start (hstart _)
      | keep up commit none => exact hkeep _ up commit none
      | @advance c up above log index reports =>
        obtain ⟨ℓ, hcoreBacked⟩ := (hbacked.replica _).core c up
        have hfollows := h.servers a.node
        rw [up] at hfollows
        exact hfollows.deliver hcoreBacked ((h.entries.replica _).core c up) above.le log index
          reports (hagreed.commit_le _ _ hcore') (hagreed.committed _ _ hcore')
      | @install c msg index term cfg hasCfg up act body msgTerm above new commit none =>
        exfalso
        subst act
        have hidle : d.cluster.idle msg.receiver = some c := by
          cases hmoves with
          | input _ idle =>
            replace idle : (d.cluster.replicas msg.receiver).writing = Option.none := idle
            rw [Cluster.idle, idle]
            exact up
          | panic => cases hr'
        have := hadopted msg rfl
        simp [hidle, adopted, body, msgTerm, above, new] at this
  · have hsame : ((d.advance (d.cluster.moved a.node r' ms reps ps)).cluster.replicas m).core =
        (d.cluster.replicas m).core := by
      simp [Deployment.advance, Cluster.moved, update_of_ne hm]
    rw [update_of_ne hm, hsame]
    exact h.servers m

theorem Sound.reset (h : d.Sound boot sequence) {sv : Server}
    (hstep : d.cluster.step boot a = some s) (hnode : a.node = n)
    (hhands : ∀ data, ¬ Raft.Hands n a (.propose data))
    (hsv : sv.Follows sequence (s.replicas n).core) : (d.reset n sv s).Sound boot sequence := by
  subst hnode
  have hentries := h.entries.step hstep fun data _ _ _ hh => absurd hh (hhands data)
  refine ⟨h.run.tail ⟨a, trivial, hstep⟩, hentries, fun m => ?_, h.snapshots⟩
  by_cases hm : m = a.node
  · subst hm
    simpa [Deployment.reset] using hsv
  · obtain ⟨n, r', ms, reps, ps, hmoves, rfl⟩ := Cluster.step_moves hstep
    obtain rfl := hmoves.node_eq
    simpa [Deployment.reset, Cluster.moved, update_of_ne hm] using h.servers m

theorem open_commitIndex {store : Raft.Store} {cfg : Raft.Config}
    (h : store.open cfg = some c) : c.commitIndex = store.boundaryIndex := by
  rw [Raft.Store.open, Core.newCoreFromSnapshot] at h
  split at h
  · cases h
  · cases h
    rfl

theorem commitIndex_of_adopted {msg : Message} {out : Output}
    (hadopted : adopted c msg = some index) (hstep : c.step (.message msg) = .ok (c', out)) :
    c'.commitIndex = index := by
  rw [adopted] at hadopted
  split at hadopted
  case h_2 => cases hadopted
  case h_1 hbody =>
    split at hadopted
    case isFalse => cases hadopted
    case isTrue hnew =>
      cases hadopted
      exact (Core.step_of_newer hbody hnew.1 hnew.2.1 hnew.2.2 hstep).2

theorem Sound.start (h : d.Sound boot sequence) (hstep : d.cluster.step boot (.start n) = some s)
    (hstate : (d.cluster.replicas n).store.boundaryIndex = 0 ∨
      ((d.cluster.replicas n).store.boundaryIndex, state) ∈ d.snapshots ∧
        2 ≤ state.clusterGeneration) :
    (d.reset n (.opened (d.cluster.replicas n).store.boundaryIndex state) s).Sound boot sequence := by
  refine h.reset hstep rfl nofun (.opened ?_ ?_ fun c hc => ?_)
  · rcases hstate with hzero | ⟨hmem, -⟩
    · omega
    · exact (h.snapshots _ _ hmem).1
  · exact hstate.imp_right fun hs => ⟨(h.snapshots _ _ hs.1).2, hs.2⟩
  · rw [Cluster.step] at hstep
    split at hstep
    · cases hstep
    split at hstep
    · cases hstep
    case h_2 c' hopen =>
      cases hstep
      simp only [Cluster.update, update_self, some.injEq] at hc
      exact hc ▸ open_commitIndex hopen

theorem Sound.install (h : d.Sound boot sequence) {msg : Message}
    (hadopted : (d.cluster.idle msg.receiver).bind (adopted · msg) = some index)
    (hmem : (index, state) ∈ d.snapshots) (hgeneration : 2 ≤ state.clusterGeneration)
    (hstep : d.cluster.step boot (.deliver msg) = some s) :
    (d.reset msg.receiver (.opened index state) s).Sound boot sequence := by
  obtain ⟨hle, hrecorded⟩ := h.snapshots _ _ hmem
  refine h.reset hstep rfl nofun (.opened hle (.inr ⟨hrecorded, hgeneration⟩) fun c' hc' => ?_)
  obtain ⟨c, hidle, hadopted⟩ := bind_eq_some_iff.mp hadopted
  rw [Cluster.step] at hstep
  split at hstep
  · cases hstep
  rw [hidle, map_some] at hstep
  cases hstep
  rw [Cluster.feed] at hc'
  split at hc'
  · simp [Cluster.panicked, Cluster.update] at hc'
  case h_2 r hr =>
    simp only [Cluster.processOutput, Cluster.update, update_self, some.injEq] at hc'
    exact hc' ▸ commitIndex_of_adopted hadopted hr

theorem Sound.propose (h : d.Sound boot sequence) {maxLag : Nat}
    {generations : NodeID → Option Nat} {req : MembershipReq} {r : Core × Output}
    (hidle : d.cluster.idle n = some c) (hdelivered : (d.servers n).delivered = [])
    (hhandle : handleMembership maxLag generations (d.servers n).applier c req = .ok (.inr r))
    (hstep : d.cluster.step boot
      (.proposeConfig n req.kind req.requestID req.targetID req.targetAddr) = some s)
    (hagreed : Agreed sequence s) : (d.advance s).Sound boot sequence := by
  obtain ⟨hunknown, hpropose⟩ := handleMembership_proposes hhandle
  obtain ⟨hup, hwriting⟩ := Cluster.idle_eq_some hidle
  obtain ⟨ℓ, hbacked⟩ := ((Cluster.Run.backed h.run).replica n).core c hup
  -- the node has applied all that its core has committed
  obtain ⟨commit, happlied, hlength, hrest, hcommit⟩ := (h.servers n).delivered
  obtain rfl := hcommit c hup
  have heq : (d.servers n).applier.appliedIndex = c.commitIndex := by
    have := congrArg length hrest
    rw [hdelivered, length_drop, length_take, length_nil] at this
    omega
  refine h.advance hstep hagreed nofun nofun fun data c₀ c' e _ hc₀ hc' happends => ?_
  cases hidle.symm.trans hc₀
  obtain ⟨out, hout, hfits⟩ := Cluster.step_proposeConfig hstep hidle hc'
  obtain ⟨e', new, hlog, htype, hdata, -, hvoters, -⟩ := Core.proposeConfigChange_appends hout
  obtain rfl : e = e' := by simpa using happends.log.symm.trans hlog
  exact firstUse_of_proposed (Cluster.Run.tracks h.run hup) (proposeConfigChange_serialized hpropose)
    hbacked.boundary (heq ▸ (h.servers n).recorded) hunknown happends
    (changeID_proposed hvoters htype hdata (hfits e happends.log))
    (hagreed.leaders n c' hc' happends.stays)

theorem Sound.step (h : d.Sound boot sequence) {a : DeploymentAct}
    (hstep : d.step boot a = some d') (hagreed : Agreed sequence d'.cluster) :
    d'.Sound boot sequence := by
  cases a with
  | event a =>
    rw [Deployment.step] at hstep
    split at hstep
    case isFalse => cases hstep
    case isTrue hplain =>
      obtain ⟨s, hs, rfl⟩ := map_eq_some_iff.mp hstep
      refine h.advance hs hagreed (fun n ha => ?_) (fun msg ha => ?_)
        fun data c c' e hhands hidle hc' happends => ?_
      · subst ha
        cases hplain
      · subst ha
        exact isNone_iff_eq_none.mp hplain
      · generalize hn : a.node = n at hhands
        cases hhands with
        | propose =>
          intro k hk hindex id hid
          rw [changeID_normal (Cluster.step_propose_type hs hidle hc' happends)] at hid
          cases hid
        | proposeConfig => cases hplain
  | start n state =>
    simp only [Deployment.step] at hstep
    split at hstep
    case isFalse => cases hstep
    case isTrue hstate =>
      obtain ⟨s, hs, rfl⟩ := map_eq_some_iff.mp hstep
      exact h.start hs hstate
  | install msg state =>
    simp only [Deployment.step] at hstep
    split at hstep
    · cases hstep
    case h_2 index hadopted =>
      split at hstep
      case isFalse => cases hstep
      case isTrue hguard =>
        obtain ⟨s, hs, rfl⟩ := map_eq_some_iff.mp hstep
        exact h.install hadopted hguard.2.2.1 hguard.2.2.2 hs
  | membership n maxLag generations req =>
    simp only [Deployment.step] at hstep
    split at hstep
    · cases hstep
    case h_2 c hidle =>
      split at hstep
      · cases hstep
      case isFalse hready =>
        simp only [not_or, not_not] at hready
        split at hstep
        case h_1 r hhandle =>
          obtain ⟨s, hs, rfl⟩ := map_eq_some_iff.mp hstep
          exact h.propose hidle hready.2 hhandle hs hagreed
        case h_2 =>
          cases hstep
          exact h
  | apply n =>
    simp only [Deployment.step] at hstep
    split at hstep
    case h_2 => cases hstep
    case h_1 e rest hfailure hdelivered =>
      obtain ⟨s, hs, rfl⟩ := map_eq_some_iff.mp hstep
      refine h.reset hs rfl nofun (((h.servers n).applyNext hdelivered).congr fun c' hc' => ?_)
      rw [Cluster.step] at hs
      split at hs
      · cases hs
      case h_2 c hidle =>
        split at hs
        · cases hs
          simp only [Cluster.update, update_self, some.injEq] at hc'
          exact ⟨c, (Cluster.idle_eq_some hidle).1, by rw [← hc', Core.setApplied_eq]⟩
        · cases hs
  | snapshot n =>
    simp only [Deployment.step] at hstep
    split at hstep
    · cases hstep
    · cases hstep
      refine ⟨h.run, h.entries, h.servers, fun index state hmem => ?_⟩
      rcases mem_cons.mp hmem with hnew | hmem
      · cases hnew
        obtain ⟨commit, happlied, hlength, -⟩ := (h.servers n).delivered
        exact ⟨happlied.trans hlength, (h.servers n).recorded⟩
      · exact h.snapshots index state hmem

theorem Run.sound {d : Deployment} (hrun : Run boot sequence fresh d) : d.Sound boot sequence := by
  induction hrun with
  | refl => exact sound_fresh boot sequence
  | tail _ hstep ih =>
    obtain ⟨hagreed, a, hstep⟩ := hstep
    exact ih.step hstep hagreed

end Deployment

def DeploymentAct.node : DeploymentAct → NodeID
  | .event a => a.node
  | .start n _ | .membership n _ _ _ | .apply n | .snapshot n => n
  | .install msg _ => msg.receiver

theorem Deployment.step_others {boot : NodeID → Configuration} {d : Deployment}
    {a : DeploymentAct} (h : d.step boot a = some d') {m : NodeID} (hm : m ≠ a.node) :
    (d'.cluster.replicas m).core = (d.cluster.replicas m).core := by
  have hcluster : ∀ {b : Act} {s : Cluster}, d.cluster.step boot b = some s → b.node = a.node →
      (s.replicas m).core = (d.cluster.replicas m).core := by
    intro b s hs hnode
    obtain ⟨n, r', ms, reps, ps, hmoves, rfl⟩ := Cluster.step_moves hs
    rw [← hnode, hmoves.node_eq] at hm
    simp [Cluster.moved, update_of_ne hm]
  cases a with
  | event b =>
    rw [step] at h
    split at h
    · obtain ⟨s, hs, rfl⟩ := map_eq_some_iff.mp h
      exact hcluster hs rfl
    · cases h
  | start n state =>
    simp only [step] at h
    split at h
    · obtain ⟨s, hs, rfl⟩ := map_eq_some_iff.mp h
      exact hcluster hs rfl
    · cases h
  | install msg state =>
    simp only [step] at h
    split at h
    · cases h
    split at h
    · obtain ⟨s, hs, rfl⟩ := map_eq_some_iff.mp h
      exact hcluster hs rfl
    · cases h
  | membership n maxLag generations req =>
    simp only [step] at h
    split at h
    · cases h
    split at h
    · cases h
    split at h
    · obtain ⟨s, hs, rfl⟩ := map_eq_some_iff.mp h
      exact hcluster hs rfl
    · cases h
      rfl
  | apply n =>
    simp only [step] at h
    split at h
    · obtain ⟨s, hs, rfl⟩ := map_eq_some_iff.mp h
      exact hcluster hs rfl
    · cases h
  | snapshot n =>
    simp only [step] at h
    split at h
    · cases h
    · cases h
      rfl

def leading (sequence : List Entry) (n : NodeID) (d : Deployment) : Bool :=
  match (d.cluster.replicas n).core with
  | none => true
  | some c => c.snapshotIndex = 0 ∧ c.log = sequence.take c.log.length ∧
      c.commitIndex ≤ c.log.length ∧ c.log.length ≤ sequence.length

theorem agreed_of_leading {sequence : List Entry} {d : Deployment}
    (h : leading sequence n d = true) (hothers : ∀ m ≠ n, (d.cluster.replicas m).core = none) :
    Agreed sequence d.cluster := by
  have hcore : ∀ m c, (d.cluster.replicas m).core = some c → c.snapshotIndex = 0 ∧
      c.log = sequence.take c.log.length ∧ c.commitIndex ≤ c.log.length ∧
      c.log.length ≤ sequence.length := by
    intro m c hc
    by_cases hm : m = n
    · subst hm
      simpa [leading, hc] using h
    · rw [hothers m hm] at hc
      cases hc
  have hget : ∀ m c, (d.cluster.replicas m).core = some c → ∀ i < c.log.length,
      c.log[i - c.snapshotIndex]? = sequence[i]? := by
    intro m c hc i hi
    obtain ⟨hzero, hlog, -⟩ := hcore m c hc
    rw [hzero, hlog, Nat.sub_zero, getElem?_take, if_pos hi]
  refine ⟨fun m c hc => ?_, fun m c hc i _ hi => ?_, fun m c hc _ k e _ _ hk i _ hi => ?_⟩
  · obtain ⟨-, -, hcommit, hlength⟩ := hcore m c hc
    exact hcommit.trans hlength
  · exact hget m c hc i (hi.trans_le (hcore m c hc).2.2.1)
  · refine hget m c hc i ?_
    rw [Core.lastIndex, (hcore m c hc).1, Nat.zero_add] at hk
    omega

def Deployment.exec (boot : NodeID → Configuration) (sequence : List Entry) (n : NodeID)
    (d : Deployment) (acts : List DeploymentAct) : Option Deployment :=
  acts.foldlM (fun (d : Deployment) a => (d.step boot a).filter (leading sequence n)) d

theorem Deployment.run_of_exec {boot : NodeID → Configuration} {sequence : List Entry}
    {acts : List DeploymentAct} (hacts : ∀ a ∈ acts, a.node = n) {d : Deployment}
    (hrun : Deployment.Run boot sequence .fresh d)
    (hothers : ∀ m ≠ n, (d.cluster.replicas m).core = none)
    (h : d.exec boot sequence n acts = some d') :
    Deployment.Run boot sequence .fresh d' := by
  induction acts generalizing d with
  | nil =>
    cases h
    exact hrun
  | cons a acts ih =>
    rw [exec, foldlM_cons] at h
    obtain ⟨d₁, hd₁, h⟩ := bind_eq_some_iff.mp h
    obtain ⟨hstep, hleading⟩ := filter_eq_some_iff.mp hd₁
    have hothers₁ : ∀ m ≠ n, (d₁.cluster.replicas m).core = none := by
      intro m hm
      rw [Deployment.step_others hstep (by rwa [hacts a (mem_cons_self ..)])]
      exact hothers m hm
    exact ih (fun b hb => hacts b (mem_cons_of_mem _ hb))
      (hrun.tail ⟨agreed_of_leading hleading hothers₁, a, hstep⟩) hothers₁ h

def oneServer : Configuration := ⟨[⟨[1], []⟩], []⟩

def withLearner : Configuration := ⟨[⟨[1], []⟩], [⟨[99], [49]⟩]⟩

def learnerRemoval : Entry :=
  ⟨4, 1, .config, encodeConfigChange Raft.membershipKindRemoveServer [8] [99] [] oneServer⟩

/-- The generation is raised twice, then a learner is added and removed again. -/
def learnerSequence : List Entry :=
  [⟨1, 1, .normal, encodeSetClusterVersion ⟨[101], 1⟩⟩,
    ⟨2, 1, .normal, encodeSetClusterVersion ⟨[102], 2⟩⟩,
    ⟨3, 1, .config, encodeConfigChange Raft.membershipKindAddLearner [9] [99] [49] withLearner⟩,
    learnerRemoval]

/-- The RequestID of the addition is used again for another node, and refused. -/
def learnerScript : List DeploymentAct :=
  let stored : List DeploymentAct := [.event (.persist [1]), .event (.persist [1])]
  [.start [1] (.new .new), .event (.electionTimeout [1])] ++ stored ++
    [.event (.propose [1] (encodeSetClusterVersion ⟨[101], 1⟩))] ++ stored ++ [.apply [1]] ++
    [.event (.propose [1] (encodeSetClusterVersion ⟨[102], 2⟩))] ++ stored ++ [.apply [1]] ++
    [.membership [1] 0 (fun _ => none) ⟨.addLearner, [9], [99], [49], 0⟩] ++ stored ++
    [.apply [1], .membership [1] 0 (fun _ => none) ⟨.addLearner, [9], [98], [49], 0⟩] ++
    [.membership [1] 0 (fun _ => none) ⟨.removeServer, [8], [99], [], 1⟩] ++ stored

def removalDelivered (d : Deployment) : Bool :=
  (d.servers [1]).delivered = [learnerRemoval] ∧
    ((d.servers [1]).applier.fsm.membershipOutcomes.get [9]).isSome

end ChronicleDB.Node
