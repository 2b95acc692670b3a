import ChronicleDB.Consensus.Poll
import ChronicleDB.Raft.Entries
import ChronicleDB.Raft.Transitions

/-!
# One leader a term

A cluster whose voters never change.  A grant leaves a node only when it is stored, and
a node that campaigns counts the grants of others only once its vote for itself is
stored.  A voter without others leads before that, but then nobody else can.
-/

namespace ChronicleDB.Raft

open Foundation Consensus List Function Raft.Core PersistRequest

/-! ## A fixed set of voters -/

def Configuration.Votes (cfg : Configuration) (V : Finset NodeID) : Prop :=
  cfg.voterIDs.Nodup ∧ cfg.voterSet = V

/-- Learners may come and go, voters may not. -/
def KeepsVoters (V : Finset NodeID) (_ : Cluster) : Act → Prop
  | .proposeConfig _ kind _ targetID _ =>
    kind ≠ .promoteToVoter ∧ (kind = .removeServer → targetID ∉ V)
  | _ => True

def Entry.Votes (e : Entry) (V : Finset NodeID) : Prop :=
  ∀ cfg, e.configuration? = some cfg → cfg.Votes V

structure Cluster.Fixed (V : Finset NodeID) (s : Cluster) : Prop where
  entries : s.Carries (·.Votes V)
  store : ∀ n, (s.replicas n).store.boundaryHasConfig = true →
    (s.replicas n).store.boundaryConfig.Votes V
  net : ∀ m ∈ s.net, ∀ index term cfg,
    m.body = .installSnapshotRequest index term cfg true → cfg.Votes V

section Voters

variable {V : Finset NodeID}

namespace Configuration.Votes

variable {cfg : Configuration}

theorem isVoter_iff (h : cfg.Votes V) {id : NodeID} : cfg.isVoter id = true ↔ id ∈ V := by
  rw [Configuration.isVoter_iff, ← h.2, voterSet, mem_toFinset]

theorem card (h : cfg.Votes V) : V.card = cfg.voters.length := by
  rw [← h.2, voterSet, toFinset_card_of_nodup h.1, voterIDs, length_map]

theorem congr (h : cfg.Votes V) {new : Configuration} (hvoters : new.voters = cfg.voters) :
    new.Votes V := by
  simpa [Votes, voterSet, voterIDs, hvoters] using h

theorem majority (h : cfg.Votes V) {votes : List NodeID} (hnodup : votes.Nodup)
    (hsub : ∀ v ∈ votes, v ∈ V) (hle : cfg.majority ≤ votes.length) :
    Majority V votes.toFinset := by
  refine ⟨fun v hv => hsub v (mem_toFinset.mp hv), ?_⟩
  rw [h.card, toFinset_card_of_nodup hnodup]
  rw [Configuration.majority] at hle
  omega

theorem alone (h : cfg.Votes V) {n : NodeID} (hn : n ∈ V) (hle : cfg.majority ≤ 1) : V = {n} := by
  have hcard := h.card
  rw [Configuration.majority] at hle
  obtain ⟨m, rfl⟩ := Finset.card_le_one_iff_subset_singleton.mp (by omega : V.card ≤ 1)
    |>.imp fun m hm => (Finset.subset_singleton_iff.mp hm).resolve_left (Finset.ne_empty_of_mem hn)
  rw [Finset.mem_singleton.mp hn]

end Configuration.Votes

theorem buildNewConfiguration_votes {cur new : Configuration} {kind : MembershipChangeKind}
    {target : NodeID} {addr : Bytes} (h : cur.Votes V) (hkind : kind ≠ .promoteToVoter)
    (htarget : kind = .removeServer → target ∉ V)
    (hnew : buildNewConfiguration cur kind target addr = .ok new) : new.Votes V := by
  cases kind with
  | addLearner =>
    rw [buildNewConfiguration] at hnew
    split at hnew
    · cases hnew
    · cases hnew
      exact h.congr rfl
  | promoteToVoter => exact absurd rfl hkind
  | removeServer =>
    rw [buildNewConfiguration, if_neg fun hvoter => htarget rfl (h.isVoter_iff.mp hvoter)] at hnew
    split at hnew
    · cases hnew
      exact h.congr rfl
    · cases hnew

namespace Core

variable {c : Core}

theorem mem_of_loggedConfig {i : Nat} {r : Configuration × Nat} (h : c.loggedConfig i = some r) :
    ∃ e ∈ c.log, e.configuration? = some r.1 := by
  induction i with
  | zero => cases h
  | succ i ih =>
    rw [loggedConfig] at h
    split at h
    · cases h
    · split at h
      case h_1 cfg hcfg =>
        cases h
        obtain ⟨e, he, hcfg⟩ := Option.bind_eq_some_iff.mp hcfg
        exact ⟨e, mem_of_getElem? he, hcfg⟩
      case h_2 => exact ih h

theorem configAt_votes (hlog : ∀ e ∈ c.log, e.Votes V)
    (hboundary : c.snapshotHasConfig = true → c.snapshotConfig.Votes V)
    (hboot : c.cfg.bootstrap.Votes V) (i : Nat) : (c.configAt i).1.Votes V := by
  rw [configAt]
  split
  case h_1 r hr =>
    obtain ⟨e, he, hcfg⟩ := mem_of_loggedConfig hr
    exact hlog e he _ hcfg
  case h_2 =>
    split
    case isTrue hhas => exact hboundary hhas
    case isFalse => exact hboot

end Core

theorem Replica.Synced.boundary {cfg : Config} {r : Replica} (h : r.Synced cfg) {c : Core}
    (hc : r.core = some c) : r.store.boundaryConfig = c.snapshotConfig ∧
      r.store.boundaryHasConfig = c.snapshotHasConfig := by
  cases hw : r.writing with
  | none =>
    have hstored := (h.idle c hc hw).1
    exact ⟨hstored.config, hstored.hasConfig⟩
  | some w =>
    obtain ⟨pr, -, hstored, -⟩ := h.busy c w.1 w.2 hc hw
    obtain ⟨-, hconfig, hhas⟩ := pr.apply_boundary r.store
    exact ⟨hconfig.symm.trans hstored.config, hhas.symm.trans hstored.hasConfig⟩

namespace Cluster

variable {boot : NodeID → Configuration} {s s' : Cluster}

theorem Fixed.configAt (h : s.Fixed V) (hboot : ∀ n, (boot n).Votes V) {n : NodeID}
    (hsynced : (s.replicas n).Synced ⟨n, boot n⟩) {c : Core} (hc : (s.replicas n).core = some c)
    (i : Nat) : (c.configAt i).1.Votes V := by
  obtain ⟨hconfig, hhas⟩ := hsynced.boundary hc
  refine configAt_votes ((h.entries.replica n).core c hc) (fun hhas' => ?_) ?_ i
  · rw [← hconfig]
    exact h.store n (hhas.trans hhas')
  · rw [hsynced.cfg c hc]
    exact hboot n

theorem storeOn_votes {store : Store} {c : Core} {input : Input}
    (hstore : store.boundaryHasConfig = true → store.boundaryConfig.Votes V)
    (hmsg : ∀ msg index term cfg, input = .message msg →
      msg.body = .installSnapshotRequest index term cfg true → cfg.Votes V)
    (hhas : (storeOn store c input).boundaryHasConfig = true) :
    (storeOn store c input).boundaryConfig.Votes V := by
  cases input with
  | message msg =>
    rw [storeOn, storeFor] at hhas ⊢
    split at hhas
    case h_1 index term cfg hasCfg hbody =>
      split at hhas
      case isTrue hnew =>
        rw [if_pos hnew]
        cases hhas
        exact hmsg msg index term cfg rfl hbody
      case isFalse hold =>
        rw [if_neg hold]
        exact hstore hhas
    case h_2 => exact hstore hhas
  | _ => exact hstore hhas

theorem Fixed.appended (h : s.Fixed V) (hboot : ∀ n, (boot n).Votes V)
    (hrun : Run boot (KeepsVoters V) fresh s) {a : Act} (hallowed : KeepsVoters V s a)
    (hstep : s.step boot a = some s') {n : NodeID} {data : Bytes}
    (hhands : Hands n a (.propose data)) {c c' : Core} (hidle : s.idle n = some c)
    (hc' : (s'.replicas n).core = some c') {e : Entry} (happends : c.Appends c' e) :
    e.Votes V := by
  intro cfg hcfg
  cases hhands with
  | propose =>
    rw [Entry.configuration?, step_propose_type hstep hidle hc' happends] at hcfg
    cases hcfg
  | proposeConfig =>
    obtain ⟨out, hout, hfits⟩ := step_proposeConfig hstep hidle hc'
    obtain ⟨new, hnew, hvoters, -, happend⟩ := proposeConfigChange_built hout
    obtain ⟨nx, mx, active, index, ms, hr, -⟩ := appendLeaderEntry_core happend
    obtain rfl : e = _ := by simpa using happends.log.symm.trans (congrArg (·.1.log) hr)
    have hlt := lt_of_fits (hfits _ happends.log)
    rw [Entry.configuration?, decodeConfigChange_encode hvoters hlt] at hcfg
    cases hcfg
    refine buildNewConfiguration_votes ?_ hallowed.1 hallowed.2 hnew
    obtain ⟨hup, -⟩ := idle_eq_some hidle
    have hactive : c.activeConfig = (c.configAt c.lastIndex).1 :=
      congrArg Prod.fst (Run.tracks hrun hup)
    rw [hactive]
    exact h.configAt hboot (Run.synced hrun n) hup _

theorem Fixed.step (h : s.Fixed V) (hboot : ∀ n, (boot n).Votes V)
    (hrun : Run boot (KeepsVoters V) fresh s) {a : Act} (hallowed : KeepsVoters V s a)
    (hstep : s.step boot a = some s') : s'.Fixed V := by
  have hentries : s'.Carries (·.Votes V) := h.entries.step hstep
    fun data c c' e hhands hidle hc' happends =>
      h.appended hboot hrun hallowed hstep hhands hidle hc' happends
  have hrun' : Run boot (KeepsVoters V) fresh s' := hrun.tail ⟨a, hallowed, hstep⟩
  have hsynced := fun n => Run.synced hrun' n
  obtain ⟨n, r', ms, reps, ps, hmoves, rfl⟩ := step_moves hstep
  have hstore : r'.store.boundaryHasConfig = true → r'.store.boundaryConfig.Votes V := by
    have hold := h.store n
    cases hmoves with
    | start | crash | apply | complete => exact hold
    | write =>
      rename_i op _ _ _
      cases op <;> exact hold
    | @input _ c input _ _ _ _ hands known | @panic _ c input _ _ _ hands known =>
      refine storeOn_votes hold fun msg index term cfg hinput hbody => ?_
      subst hinput
      cases hands
      exact h.net msg (known msg rfl) index term cfg hbody
    | compact up idle compacted =>
      intro _
      rw [Store.compactTo, (compact_eq compacted).2]
      exact h.configAt hboot (Run.synced hrun n) up _
  have hstores : ∀ m, ((s.moved n r' ms reps ps).replicas m).store.boundaryHasConfig = true →
      ((s.moved n r' ms reps ps).replicas m).store.boundaryConfig.Votes V := by
    intro m
    by_cases hm : m = n
    · subst hm
      simpa [moved] using hstore
    · simpa [moved, update_of_ne hm] using h.store m
  refine ⟨hentries, hstores, fun m hm index term cfg hbody => ?_⟩
  rcases mem_append.mp hm with hm | hm
  · exact h.net m hm index term cfg hbody
  · -- a leader sends its own boundary, which is in its store
    obtain ⟨c', hc', -, -, -, hrep⟩ := hmoves.replicates hm (by rw [hbody]; rfl)
    have hup : ((s.moved n r' ms reps ps).replicas n).core = some c' := by simpa [moved] using hc'
    obtain ⟨hconfig, hhas⟩ := (hsynced n).boundary hup
    rcases hrep with ⟨next, -, hrep⟩ | ⟨hrep, -⟩
    · cases hbody.symm.trans hrep
    · obtain ⟨-, -, rfl, hhas'⟩ := Body.installSnapshotRequest.inj (hbody.symm.trans hrep)
      exact hconfig ▸ hstores n (hhas.trans hhas'.symm)

theorem Run.fixed (hboot : ∀ n, (boot n).Votes V) (hrun : Run boot (KeepsVoters V) fresh s) :
    s.Fixed V := by
  induction hrun with
  | refl => exact ⟨.fresh, by simp [fresh, Store.fresh], by simp [fresh]⟩
  | tail hrun hstep ih =>
    obtain ⟨a, hallowed, hstep⟩ := hstep
    exact ih.step hboot hrun hallowed hstep

theorem Run.activeConfig_votes (hboot : ∀ n, (boot n).Votes V)
    (hrun : Run boot (KeepsVoters V) fresh s) {n : NodeID} {c : Core}
    (hc : (s.replicas n).core = some c) : c.activeConfig.Votes V := by
  have hactive : c.activeConfig = (c.configAt c.lastIndex).1 := congrArg Prod.fst (tracks hrun hc)
  rw [hactive]
  exact (fixed hboot hrun).configAt hboot (synced hrun n) hc _

end Cluster

/-! ## Votes that were cast -/

def HardState.stub (hs : HardState) : Stub NodeID := ⟨hs.currentTerm, hs.votedFor⟩

variable (V) in
/-- A candidate counts votes that were cast and its own, which is stored once it counts
others; a leader has won. -/
structure Core.Polled (votes : Set (NodeID × Nat × NodeID)) (n : NodeID) (c : Core) : Prop where
  candidate : c.role = .candidate → n ∈ V ∧ c.votedFor = n ∧ c.votesReceived.Nodup ∧
    ∀ v ∈ c.votesReceived, v = n ∨ (v, c.currentTerm, n) ∈ votes
  leader : c.role = .leader → Elected V votes n c.currentTerm
  grants : ∀ p ∈ c.pending, ∀ candidate, p.kind = .voteGrant candidate →
    n ∈ V ∧ candidate ≠ noVote

variable (V) in
structure Replica.Polled (votes : Set (NodeID × Nat × NodeID)) (n : NodeID) (r : Replica) :
    Prop where
  named : ∀ c, r.core = some c → n ≠ noVote
  core : ∀ c, r.core = some c → c.Polled V votes n
  writing : ∀ seq ops hs, r.writing = some (seq, ops) → .setHardState hs ∈ ops →
    r.store.hardState.stub.Follows noVote hs.stub

variable (V) in
structure Cluster.Polled (votes : Set (NodeID × Nat × NodeID)) (s : Cluster) : Prop where
  poll : Poll noVote V (fun u => (s.replicas u).store.hardState.stub) votes
  replica : ∀ n, (s.replicas n).Polled V votes n
  senders : ∀ m ∈ s.net, m.sender ≠ noVote
  granted : ∀ m ∈ s.net, m.body = .requestVoteResponse true →
    (m.sender, m.term, m.receiver) ∈ votes

variable {votes votes' : Set (NodeID × Nat × NodeID)} {n : NodeID}

namespace Core.Polled

variable {c c' : Core}

theorem mono (h : c.Polled V votes n) (hsub : votes ⊆ votes') : c.Polled V votes' n := by
  refine ⟨fun hrole => ?_, fun hrole => (h.leader hrole).mono hsub, h.grants⟩
  obtain ⟨hn, hvote, hnodup, hvotes⟩ := h.candidate hrole
  exact ⟨hn, hvote, hnodup, fun v hv => (hvotes v hv).imp_right (hsub ·)⟩

theorem of_follower (hrole : c.role = .follower)
    (hgrants : ∀ p ∈ c.pending, ∀ candidate, p.kind = .voteGrant candidate →
      n ∈ V ∧ candidate ≠ noVote) : c.Polled V votes n :=
  ⟨by simp [hrole], by simp [hrole], hgrants⟩

theorem keep (h : c.Polled V votes n) (hterm : c'.currentTerm = c.currentTerm)
    (hvote : c.role = .candidate → c'.votedFor = c.votedFor)
    (hrole : c'.role = c.role ∧ c'.votesReceived = c.votesReceived ∨ c'.role = .follower)
    (hgrants : ∀ p ∈ c'.pending, ∀ candidate, p.kind = .voteGrant candidate →
      n ∈ V ∧ candidate ≠ noVote) : c'.Polled V votes n := by
  rcases hrole with ⟨hrole, hreceived⟩ | hrole
  · refine ⟨fun hc' => ?_, fun hc' => ?_, hgrants⟩
    · have hc := hrole.symm.trans hc'
      rw [hvote hc, hreceived, hterm]
      exact h.candidate hc
    · rw [hterm]
      exact h.leader (hrole.symm.trans hc')
  · exact of_follower hrole hgrants

theorem grants_of_noNewGrant (h : c.Polled V votes n) (hnew : NoNewGrant c c') :
    ∀ p ∈ c'.pending, ∀ candidate, p.kind = .voteGrant candidate → n ∈ V ∧ candidate ≠ noVote :=
  fun p hp candidate hkind =>
    h.grants p (hnew p hp (by rw [PendingItem.isGrant, hkind])) candidate hkind

theorem nodup_votesWith (h : c.votesReceived.Nodup) (sender : NodeID) :
    (c.votesWith sender).Nodup := by
  rw [votesWith]
  split
  · exact h
  case isFalse hnew =>
    exact h.append (nodup_singleton sender) (by simpa [disjoint_singleton] using hnew)

theorem mem_votesWith {sender v : NodeID} (h : v ∈ c.votesWith sender) :
    v ∈ c.votesReceived ∨ v = sender := by
  rw [votesWith] at h
  split at h
  · exact .inl h
  · simpa using h

end Core.Polled

namespace Core.Effect

variable {c c' : Core} {input : Input} {out : Output} {store : Store}

theorem follows (heffect : c.Effect input c' out) (hstored : Stored store c) {pr : PersistRequest}
    {hs : HardState} (hpr : out.persistRequest = some pr) (hhs : pr.hardState = some hs) :
    store.hardState.stub.Follows noVote hs.stub := by
  have hstores : c'.Stores out → hs = c'.hardState := by
    rintro ⟨pr', hpr', hhs'⟩
    cases hpr.symm.trans hpr'
    exact Option.some.inj (hhs.symm.trans hhs')
  have hterm := hstored.term
  cases heffect.votes with
  | stay _ _ _ _ hnone | clear _ _ _ _ hnone =>
    cases (hnone pr hpr).symm.trans hhs
  | count _ _ _ _ _ _ hnone =>
    cases hnone.symm.trans hpr
  | adopt higher term _ _ hs =>
    rw [hstores hs]
    left
    simp only [HardState.stub, hardState]
    omega
  | campaign _ _ term _ _ hs =>
    rw [hstores hs]
    left
    simp only [HardState.stub, hardState]
    omega
  | @cast msg _ _ _ _ _ heard voter free _ _ term vote hs =>
    rw [hstores hs]
    simp only [HardState.stub, hardState, Stub.Follows]
    rcases free with ⟨higher, -⟩ | ⟨same, -, hfree⟩
    · left
      omega
    · -- the node has not heard from a leader, so its vote is the stored one
      have hvote : store.hardState.votedFor = c.votedFor := by
        refine hstored.vote.resolve_right fun ⟨_, _, hblocked⟩ => ?_
        simp [heard, voter] at hblocked
      right
      rw [hvote, vote]
      exact ⟨by omega, hfree.symm.imp_left Eq.symm⟩

variable {stubs : NodeID → Stub NodeID}

/-- A vote is cast only when a candidate wins. -/
theorem polled (heffect : c.Effect input c' out) (h : c.Polled V votes n)
    (hactive : c.activeConfig.Votes V) (hid : c.cfg.id = n) (hn : n ≠ noVote)
    (hstored : Stored store c) (hpoll : Poll noVote V stubs votes)
    (hstub : stubs n = store.hardState.stub)
    (hmsg : ∀ msg, input = .message msg → msg.sender ≠ noVote ∧
      (msg.body = .requestVoteResponse true → (msg.sender, msg.term, n) ∈ votes)) :
    ∃ votes', votes ⊆ votes' ∧ Poll noVote V stubs votes' ∧ c'.Polled V votes' n := by
  have hsame : c'.Polled V votes n →
      ∃ votes', votes ⊆ votes' ∧ Poll noVote V stubs votes' ∧ c'.Polled V votes' n :=
    fun h' => ⟨votes, subset_rfl, hpoll, h'⟩
  cases heffect.votes with
  | stay term vote role _ _ grants =>
    exact hsame (h.keep term (fun _ => vote) role (h.grants_of_noNewGrant grants))
  | clear _ _ _ blocked _ grants =>
    exact hsame (.of_follower blocked.1 (h.grants_of_noNewGrant grants))
  | adopt _ _ _ role _ grants =>
    exact hsame (.of_follower role (h.grants_of_noNewGrant grants))
  | campaign _ voter term vote role _ grants =>
    rw [hid] at voter vote role
    have hV : n ∈ V := hactive.isVoter_iff.mp voter
    rcases role with ⟨role, received⟩ | ⟨role, alone⟩
    · refine hsame ⟨fun _ => ⟨hV, vote, ?_, fun v hv => ?_⟩, by simp [role],
        h.grants_of_noNewGrant grants⟩
      · simp [received]
      · left
        simpa [received] using hv
    · exact hsame ⟨by simp [role], fun _ => ⟨hV, .inl (hactive.alone hV alone)⟩,
        h.grants_of_noNewGrant grants⟩
  | @count msg _ _ body msgTerm candidate term vote role _ grants =>
    obtain ⟨hV, hvoted, hnodup, hvotes⟩ := h.candidate candidate
    have hgranted := (hmsg msg rfl).2 body
    rw [msgTerm] at hgranted
    have hwith : ∀ v ∈ c.votesWith msg.sender, v = n ∨ (v, c.currentTerm, n) ∈ votes := by
      intro v hv
      rcases Polled.mem_votesWith hv with hv | rfl
      · exact hvotes v hv
      · exact .inr hgranted
    rcases role with ⟨role, received⟩ | ⟨role, hmajority⟩
    · refine hsame ⟨fun _ => ⟨hV, vote.trans hvoted, ?_, ?_⟩, by simp [role],
        h.grants_of_noNewGrant grants⟩
      · rw [received]
        exact Polled.nodup_votesWith hnodup _
      · rwa [received, term]
    · -- the candidate is no follower, so its own vote is in its store
      have hvote : store.hardState.votedFor = n := by
        refine (hstored.vote.resolve_right fun ⟨_, hblocked⟩ => ?_).trans hvoted
        simp [candidate, Blocked] at hblocked
      have hself : stubs n = ⟨c.currentTerm, n⟩ := by
        rw [hstub, HardState.stub, hstored.term, hvote]
      have hcast : ∀ v ∈ c.votesWith msg.sender,
          (v, c.currentTerm, n) ∈ insert (n, c.currentTerm, n) votes := by
        intro v hv
        rcases hwith v hv with rfl | hv
        · exact Set.mem_insert _ _
        · exact Set.mem_insert_of_mem _ hv
      have hpoll' := hpoll.cast hV hn hself
      refine ⟨_, Set.subset_insert _ _, hpoll', by simp [role], fun _ => ⟨hV, .inr ?_⟩,
        h.grants_of_noNewGrant grants⟩
      rw [term]
      exact ⟨_, hactive.majority (Polled.nodup_votesWith hnodup _)
        (fun v hv => hpoll'.voter _ _ _ (hcast v hv)) hmajority,
        fun v hv => hcast v (mem_toFinset.mp hv)⟩
  | @cast msg _ _ _ _ _ _ voter free received _ term vote _ pending =>
    rw [hid] at voter
    have hgrants : ∀ p ∈ c'.pending, ∀ candidate, p.kind = .voteGrant candidate →
        n ∈ V ∧ candidate ≠ noVote := by
      intro p hp candidate hkind
      rw [pending] at hp
      rcases mem_append.mp hp with hp | hp
      · exact h.grants p hp candidate hkind
      · rw [mem_singleton.mp hp] at hkind
        cases hkind
        exact ⟨hactive.isVoter_iff.mp voter, (hmsg msg rfl).1⟩
    rcases free with ⟨-, role⟩ | ⟨same, role, hfree⟩
    · exact hsame (.of_follower role hgrants)
    · refine hsame (h.keep (term.trans same) (fun hcandidate => ?_) ?_ hgrants)
      · -- a candidate has voted for itself
        rw [vote]
        refine (hfree.resolve_left fun hnone => hn ?_).symm
        exact (h.candidate hcandidate).2.1.symm.trans hnone
      · exact (received role).imp_left fun hreceived => ⟨role, hreceived⟩

theorem not_granted (heffect : c.Effect input c' out) {m : Message} (hm : m ∈ out.messages) :
    m.body ≠ .requestVoteResponse true := by
  obtain ⟨-, -, hbody⟩ := heffect.sent m hm
  generalize hb : m.body = b at hbody
  cases hbody with
  | replicate _ sent =>
    rcases sent.body with ⟨next, -, hbody⟩ | ⟨hbody, -⟩ <;> simp [hbody]
  | _ => simp

end Core.Effect

theorem PersistRequest.setHardState_mem_ops {pr : PersistRequest} {hs : HardState}
    (h : .setHardState hs ∈ pr.ops) : pr.hardState = some hs := by
  simp only [ops, mem_append, mem_map] at h
  rcases h with ⟨_, -, h⟩ | h | ⟨hs', hmem, h⟩
  · cases h
  · split at h
    · cases h
    · simp at h
  · cases h
    simpa using hmem

theorem Store.open_follower {store : Store} {cfg : Config} {c : Core}
    (h : store.open cfg = some c) : c.role = .follower ∧ cfg.id ≠ noVote := by
  rw [Store.open, newCoreFromSnapshot] at h
  split at h
  · cases h
  case isFalse hvalid =>
    cases h
    simp [Config.valid] at hvalid
    exact ⟨rfl, hvalid.1.1⟩

namespace Replica.Polled

variable {r r' : Replica}

theorem mono (h : r.Polled V votes n) (hsub : votes ⊆ votes') : r.Polled V votes' n :=
  ⟨h.named, fun c hc => (h.core c hc).mono hsub, h.writing⟩

theorem of_down (store : Store) : Replica.Polled V votes n ⟨none, store, none⟩ :=
  ⟨nofun, nofun, nofun⟩

theorem of_idle {c : Core} {store : Store} (hn : n ≠ noVote) (hc : c.Polled V votes n) :
    Replica.Polled V votes n ⟨some c, store, none⟩ := by
  refine ⟨fun _ _ => hn, fun c' hc' => ?_, nofun⟩
  cases hc'
  exact hc

theorem complete {cfg : Config} (h : r.Polled V votes n) (hsynced : r.Synced cfg)
    (hid : cfg.id = n) {c : Core} {seq : Nat} (up : r.core = some c)
    (done : r.writing = some (seq, [])) {stubs : NodeID → Stub NodeID}
    (hpoll : Poll noVote V stubs votes) (hstub : stubs n = r.store.hardState.stub) :
    ∃ votes', votes ⊆ votes' ∧ Poll noVote V stubs votes' ∧
      ∀ m ∈ (c.handlePersistenceComplete seq).2.messages, m.body = .requestVoteResponse true →
        (m.sender, m.term, m.receiver) ∈ votes' := by
  obtain ⟨-, hms, -⟩ := c.handlePersistenceComplete_spec seq
  obtain ⟨pr, hops, hstored, -⟩ := hsynced.busy c seq [] up done
  have hstore : pr.apply r.store = r.store := by rw [apply, ← hops]; rfl
  rw [hstore] at hstored
  by_cases hgrant : n ∈ V ∧ c.votedFor ≠ noVote
  · have hvote : r.store.hardState.votedFor = c.votedFor :=
      hstored.vote.resolve_right fun hnone => hgrant.2 hnone.1
    have hself : stubs n = ⟨c.currentTerm, c.votedFor⟩ := by
      rw [hstub, HardState.stub, hstored.term, hvote]
    refine ⟨_, Set.subset_insert _ _, hpoll.cast hgrant.1 hgrant.2 hself, fun m hm hbody => ?_⟩
    obtain ⟨p, -, hemits⟩ := hms m hm
    cases hemits with
    | grant kind term vote =>
      left
      rw [hsynced.cfg c up, hid, vote]
    | ack => cases hbody
  · refine ⟨votes, subset_rfl, hpoll, fun m hm hbody => ?_⟩
    obtain ⟨p, hp, hemits⟩ := hms m hm
    cases hemits with
    | @grant candidate kind _ vote =>
      have := (h.core c up).grants p (mem_filter.mp hp).1 candidate kind
      exact absurd (vote ▸ this) hgrant
    | ack => cases hbody

section Moves

variable {boot : NodeID → Configuration} {net : List Message} {a : Act} {ms : List Message}
  {reps : List Report} {ps : List (NodeID × Panic)} {stubs : NodeID → Stub NodeID}

theorem moves (h : r.Polled V votes n) (hm : Moves boot net n r a r' ms reps ps)
    (hsynced : r.Synced ⟨n, boot n⟩)
    (hactive : ∀ c, r.core = some c → c.activeConfig.Votes V)
    (hpoll : Poll noVote V stubs votes) (hstub : stubs n = r.store.hardState.stub)
    (hsenders : ∀ m ∈ net, m.sender ≠ noVote)
    (hgranted : ∀ m ∈ net, m.body = .requestVoteResponse true →
      (m.sender, m.term, m.receiver) ∈ votes) :
    ∃ votes', votes ⊆ votes' ∧
      Poll noVote V (update stubs n r'.store.hardState.stub) votes' ∧
      r'.Polled V votes' n ∧ ∀ m ∈ ms, m.sender ≠ noVote ∧
        (m.body = .requestVoteResponse true → (m.sender, m.term, m.receiver) ∈ votes') := by
  have hkept : ∀ {store : Store} {votes'}, store.hardState = r.store.hardState →
      Poll noVote V stubs votes' →
      Poll noVote V (update stubs n store.hardState.stub) votes' := by
    intro store votes' hstore h'
    rwa [hstore, ← hstub, update_eq_self]
  cases hm with
  | start down opened =>
    obtain ⟨hrole, hn⟩ := Store.open_follower opened
    obtain ⟨-, hpending, -⟩ := Store.open_stored opened
    exact ⟨votes, subset_rfl, hkept rfl hpoll, of_idle hn (.of_follower hrole (by simp [hpending])), by simp⟩
  | crash =>
    exact ⟨votes, subset_rfl, hkept rfl hpoll, of_down _, by simp⟩
  | panic =>
    exact ⟨votes, subset_rfl, hkept (Stored.storeOn_hardState ..) hpoll, of_down _, by simp⟩
  | @input _ c input c' out up idle hands known effect =>
    obtain ⟨hstored, -⟩ := hsynced.idle c up idle
    have hn := h.named c up
    have hid : c.cfg.id = n := by rw [hsynced.cfg c up]
    obtain ⟨votes', hsub, hpoll', hcore⟩ := effect.polled (h.core c up) (hactive c up) hid hn
      hstored hpoll hstub fun msg hinput => by
        subst hinput
        cases hands with
        | deliver receiver =>
          have hmem := known msg rfl
          exact ⟨hsenders msg hmem, fun hbody => receiver ▸ hgranted msg hmem hbody⟩
    have hhs := Stored.storeOn_hardState r.store c input
    refine ⟨votes', hsub, hkept hhs hpoll', ⟨fun _ _ => hn, fun c'' hc'' => ?_, ?_⟩, fun m hm => ⟨?_, ?_⟩⟩
    · cases hc''
      exact hcore
    · intro seq ops hs hw hop
      obtain ⟨pr, hpr, hops⟩ := Option.map_eq_some_iff.mp hw
      cases hops
      dsimp only
      rw [hhs]
      exact effect.follows hstored hpr (setHardState_mem_ops hop)
    · rwa [(effect.sent m hm).sender, hid]
    · exact fun hbody => absurd hbody (effect.not_granted hm)
  | @write c seq op ops up busy =>
    obtain ⟨pr, hops, -, -⟩ := hsynced.busy c seq _ up busy
    have hcore : ∀ c', some c = some c' → c'.Polled V votes n := by
      rintro _ ⟨⟩
      exact h.core c up
    cases op with
    | setHardState hs =>
      refine ⟨votes, subset_rfl, hpoll.store ?_, ⟨fun _ _ => h.named c up, hcore, ?_⟩, by simp⟩
      · rw [hstub]
        exact h.writing seq _ hs busy (mem_cons_self ..)
      · -- a request stores one hard state at most
        intro seq' ops' hs' hw hop
        cases hw
        have hfirst : pr.hardState = some hs :=
          setHardState_mem_ops (hops ▸ mem_cons_self ..)
        have hsecond : pr.hardState = some hs' :=
          setHardState_mem_ops (hops ▸ mem_cons_of_mem _ hop)
        cases hfirst.symm.trans hsecond
        exact .inr ⟨rfl, .inl rfl⟩
    | truncate | append =>
      refine ⟨votes, subset_rfl, hkept rfl hpoll, ⟨fun _ _ => h.named c up, hcore, ?_⟩, by simp⟩
      intro seq' ops' hs' hw hop
      cases hw
      exact h.writing seq _ hs' busy (mem_cons_of_mem _ hop)
  | @complete c seq up done =>
    have hn := h.named c up
    obtain ⟨votes', hsub, hpoll', hmsgs⟩ := h.complete hsynced rfl up done hpoll hstub
    obtain ⟨hframe, hms, -⟩ := c.handlePersistenceComplete_spec seq
    refine ⟨votes', hsub, hkept rfl hpoll', of_idle hn ?_, fun m hm => ⟨?_, hmsgs m hm⟩⟩
    · refine ((h.core c up).mono hsub).keep hframe.currentTerm (fun _ => hframe.votedFor)
        (hframe.role.imp_right And.right) fun p hp => ?_
      rw [hframe.pending] at hp
      exact (h.core c up).grants p (mem_of_mem_filter hp)
    · obtain ⟨p, -, hemits⟩ := hms m hm
      cases hemits <;> rwa [hsynced.cfg c up]
  | @apply c index up =>
    refine ⟨votes, subset_rfl, hkept rfl hpoll, of_idle (h.named c up) ?_, by simp⟩
    rw [setApplied_eq]
    exact (h.core c up).keep rfl (fun _ => rfl) (.inl ⟨rfl, rfl⟩) (h.core c up).grants
  | @compact c c' index up _ compacted =>
    refine ⟨votes, subset_rfl, hkept rfl hpoll, of_idle (h.named c up) ?_, by simp⟩
    rw [(compact_eq compacted).2]
    exact (h.core c up).keep rfl (fun _ => rfl) (.inl ⟨rfl, rfl⟩) (h.core c up).grants

end Moves

end Replica.Polled

namespace Cluster

variable {boot : NodeID → Configuration} {s s' : Cluster}

theorem Polled.fresh : Polled V ∅ fresh :=
  ⟨.empty, fun _ => .of_down _, by simp [Cluster.fresh], by simp [Cluster.fresh]⟩

theorem Polled.step (h : s.Polled V votes) (hboot : ∀ n, (boot n).Votes V)
    (hrun : Run boot (KeepsVoters V) Cluster.fresh s) {a : Act} (hstep : s.step boot a = some s') :
    ∃ votes', votes ⊆ votes' ∧ s'.Polled V votes' := by
  obtain ⟨n, r', ms, reps, ps, hmoves, rfl⟩ := step_moves hstep
  obtain ⟨votes', hsub, hpoll, hr', hms⟩ := (h.replica n).moves hmoves (Run.synced hrun n)
    (fun c hc => Run.activeConfig_votes hboot hrun hc) h.poll rfl h.senders h.granted
  refine ⟨votes', hsub, ?_, fun m => ?_, fun m hm => ?_, fun m hm hbody => ?_⟩
  · have hstubs : (fun u => ((s.moved n r' ms reps ps).replicas u).store.hardState.stub) =
        Function.update (fun u => (s.replicas u).store.hardState.stub) n
          r'.store.hardState.stub := by
      funext u
      by_cases hu : u = n
      · subst hu
        simp [moved]
      · simp [moved, Function.update_of_ne hu]
    rw [hstubs]
    exact hpoll
  · by_cases hm : m = n
    · subst hm
      simpa [moved] using hr'
    · simpa [moved, Function.update_of_ne hm] using (h.replica m).mono hsub
  · rcases mem_append.mp hm with hm | hm
    · exact h.senders m hm
    · exact (hms m hm).1
  · rcases mem_append.mp hm with hm | hm
    · exact hsub (h.granted m hm hbody)
    · exact (hms m hm).2 hbody

theorem Run.polled_from (h : s.Polled V votes) (hboot : ∀ n, (boot n).Votes V)
    (hrun : Run boot (KeepsVoters V) fresh s) (hrun' : Run boot (KeepsVoters V) s s') :
    ∃ votes', votes ⊆ votes' ∧ s'.Polled V votes' := by
  induction hrun' with
  | refl => exact ⟨votes, subset_rfl, h⟩
  | tail hprefix hstep ih =>
    obtain ⟨votes₁, hsub₁, hpolled⟩ := ih
    obtain ⟨a, -, hstep⟩ := hstep
    obtain ⟨votes₂, hsub₂, hpolled'⟩ := hpolled.step hboot (hrun.trans hprefix) hstep
    exact ⟨votes₂, hsub₁.trans hsub₂, hpolled'⟩

end Cluster

end Voters

/-! ## Election safety -/

/-- Whoever leads in a term, at whatever point of a run, is the one leader of that term. -/
theorem election_safety {V : Finset NodeID} {boot : NodeID → Configuration}
    (hboot : ∀ n, (boot n).Votes V) {s₁ s₂ : Cluster}
    (hrun₁ : Cluster.Run boot (KeepsVoters V) .fresh s₁)
    (hrun₂ : Cluster.Run boot (KeepsVoters V) s₁ s₂) {n₁ n₂ : NodeID} {c₁ c₂ : Core}
    (hc₁ : (s₁.replicas n₁).core = some c₁) (hc₂ : (s₂.replicas n₂).core = some c₂)
    (hleads₁ : c₁.role = .leader) (hleads₂ : c₂.role = .leader)
    (hterm : c₁.currentTerm = c₂.currentTerm) : n₁ = n₂ := by
  obtain ⟨votes₁, -, h₁⟩ := Cluster.Run.polled_from .fresh hboot .refl hrun₁
  obtain ⟨votes₂, hsub, h₂⟩ := Cluster.Run.polled_from h₁ hboot hrun₁ hrun₂
  have hfirst := (((h₁.replica n₁).core c₁ hc₁).leader hleads₁).mono hsub
  have hsecond := ((h₂.replica n₂).core c₂ hc₂).leader hleads₂
  rw [hterm] at hfirst
  exact h₂.poll.elected_unique hfirst hsecond

def electorate : Configuration := ⟨[⟨[1], []⟩, ⟨[2], []⟩, ⟨[3], []⟩], []⟩

/-- Node 1 asks for votes and crashes before its hard state is stored.  It campaigns again in
the same term and wins with the vote that node 2 has given to the first request. -/
def repeatedCandidacy : List Act :=
  [.start [1], .start [2], .electionTimeout [1], .crash [1], .start [1],
    .deliver ⟨[1], [2], 1, .requestVoteRequest 0 0⟩, .persist [2], .persist [2],
    .electionTimeout [1], .persist [1], .persist [1],
    .deliver ⟨[2], [1], 1, .requestVoteResponse true⟩]

def lateCandidacy : List Act :=
  [.start [3], .electionTimeout [3], .persist [3], .persist [3],
    .deliver ⟨[3], [2], 1, .requestVoteRequest 0 0⟩, .deliver ⟨[3], [1], 1, .requestVoteRequest 0 0⟩,
    .heartbeatTimeout [1]]

theorem election_safety_repeated :
    ∃ s₁ s₂, Cluster.Run (fun _ => electorate) (KeepsVoters electorate.voterSet) .fresh s₁ ∧
      Cluster.Run (fun _ => electorate) (KeepsVoters electorate.voterSet) s₁ s₂ ∧
      (∃ c, (s₁.replicas [1]).core = some c ∧ c.role = .leader ∧ c.currentTerm = 1) ∧
      ∃ n c, (s₂.replicas n).core = some c ∧ c.role = .leader ∧ c.currentTerm = 1 ∧ [1] = n := by
  have hboot : ∀ _ : NodeID, electorate.Votes electorate.voterSet := fun _ => ⟨by decide, rfl⟩
  have hallowed : ∀ a ∈ repeatedCandidacy ++ lateCandidacy, ∀ s,
      KeepsVoters electorate.voterSet s a := by
    simp [repeatedCandidacy, lateCandidacy, KeepsVoters]
  have hleads : ∀ {s : Cluster}, ((s.replicas [1]).core.any fun c : Core =>
      c.role = .leader ∧ c.currentTerm = 1) = true →
      ∃ c, (s.replicas [1]).core = some c ∧ c.role = .leader ∧ c.currentTerm = 1 := by
    intro s hs
    obtain ⟨c, hc, htest⟩ := (Option.any_eq_true _ _).mp hs
    exact ⟨c, hc, of_decide_eq_true htest⟩
  obtain ⟨s₁, hrun₁, htest⟩ := @Cluster.exists_run (fun _ => electorate)
    (KeepsVoters electorate.voterSet) .fresh repeatedCandidacy
    (fun a ha => hallowed a (List.mem_append_left _ ha))
    (fun s => ((s.replicas [1]).core.any fun c : Core =>
        c.role = .leader ∧ c.currentTerm = 1) &&
      (s.exec (fun _ => electorate) lateCandidacy).any fun s =>
        (s.replicas [1]).core.any fun c : Core => c.role = .leader ∧ c.currentTerm = 1)
    (by decide +kernel)
  obtain ⟨htest₁, htest⟩ := Bool.and_eq_true_iff.mp htest
  obtain ⟨s₂, hrun₂, htest₂⟩ := Cluster.exists_run
    (fun a ha => hallowed a (List.mem_append_right _ ha)) htest
  obtain ⟨c₁, hc₁, hleads₁, hterm₁⟩ := hleads htest₁
  obtain ⟨c₂, hc₂, hleads₂, hterm₂⟩ := hleads htest₂
  exact ⟨s₁, s₂, hrun₁, hrun₂, ⟨c₁, hc₁, hleads₁, hterm₁⟩, [1], c₂, hc₂, hleads₂, hterm₂,
    election_safety hboot hrun₁ hrun₂ hc₁ hc₂ hleads₁ hleads₂ (hterm₁.trans hterm₂.symm)⟩

end ChronicleDB.Raft
