import ChronicleDB.Raft.Cluster
import ChronicleDB.Raft.Commits
import ChronicleDB.Raft.Configs
import ChronicleDB.Raft.Requests

/-!
# The driver of a core

What the store of a replica has to do with its core: they agree when the replica
waits for an input, and they will agree once the writes that are left have been
made.
-/

namespace ChronicleDB.Raft

open Foundation List Cluster PersistRequest

/-! ## Stored requests -/

def PersistRequest.apply (store : Store) (pr : PersistRequest) : Store :=
  pr.ops.foldl StoreOp.apply store

namespace PersistRequest

theorem apply_hardState (store : Store) (pr : PersistRequest) :
    (pr.apply store).hardState = pr.hardState.getD store.hardState := by
  obtain ⟨seq, hs, trunc, entries⟩ := pr
  cases hs <;> cases trunc <;> by_cases he : entries.isEmpty <;>
    simp [apply, ops, StoreOp.apply, he]

theorem apply_boundaryIndex (store : Store) (pr : PersistRequest) :
    (pr.apply store).boundaryIndex = store.boundaryIndex := by
  obtain ⟨seq, hs, trunc, entries⟩ := pr
  cases hs <;> cases trunc <;> by_cases he : entries.isEmpty <;>
    simp [apply, ops, StoreOp.apply, he]

theorem apply_entries (store : Store) (pr : PersistRequest) :
    (pr.apply store).entries = (match pr.truncateFrom with
      | some idx => store.entries.take (idx - store.boundaryIndex - 1)
      | none => store.entries) ++ pr.entries := by
  obtain ⟨seq, hs, trunc, entries⟩ := pr
  cases hs <;> cases trunc <;> by_cases he : entries.isEmpty <;>
    simp_all [apply, ops, StoreOp.apply]

theorem Idle.apply_entries {pr : PersistRequest} (h : pr.Idle) (store : Store) :
    (pr.apply store).entries = store.entries := by
  rw [PersistRequest.apply_entries, h.1, h.2, append_nil]

theorem foldl_apply_boundaryIndex (prs : List PersistRequest) (store : Store) :
    (prs.foldl apply store).boundaryIndex = store.boundaryIndex := by
  induction prs generalizing store with
  | nil => rfl
  | cons pr prs ih => rw [foldl_cons, ih, apply_boundaryIndex]

theorem foldl_apply_entries {prs : List PersistRequest} (h : ∀ pr ∈ prs, pr.Idle) (store : Store) :
    (prs.foldl apply store).entries = store.entries := by
  induction prs generalizing store with
  | nil => rfl
  | cons pr prs ih =>
    rw [foldl_cons, ih (fun q hq => h q (mem_cons_of_mem _ hq)), (h pr (by simp)).apply_entries]

theorem foldl_apply_hardState {prs : List PersistRequest} {hs : HardState}
    (h : ∀ pr ∈ prs, ∀ hs', pr.hardState = some hs' → hs' = hs) {store : Store}
    (hstore : store.hardState = hs) : (prs.foldl apply store).hardState = hs := by
  induction prs generalizing store with
  | nil => exact hstore
  | cons pr prs ih =>
    refine ih (fun q hq => h q (mem_cons_of_mem _ hq)) ?_
    rw [apply_hardState]
    cases hpr : pr.hardState with
    | none => exact hstore
    | some hs' => exact h pr (by simp) hs' hpr

/-- The hard state of `pr` is stored, if every later request repeats it. -/
theorem foldl_apply_hardState_of_mem {prs : List PersistRequest} {pr : PersistRequest}
    {hs : HardState} (hsorted : prs.Pairwise (·.seq < ·.seq)) (hmem : pr ∈ prs)
    (hpr : pr.hardState = some hs)
    (hlater : ∀ q ∈ prs, pr.seq ≤ q.seq → ∀ hs', q.hardState = some hs' → hs' = hs)
    (store : Store) : (prs.foldl apply store).hardState = hs := by
  obtain ⟨before, after, rfl⟩ := append_of_mem hmem
  rw [foldl_append, foldl_cons]
  refine foldl_apply_hardState (fun q hq => hlater q (by simp [hq]) ?_) ?_
  · have := rel_of_pairwise_cons (pairwise_append.mp hsorted).2.1 hq
    exact this.le
  · rw [apply_hardState, hpr, Option.getD_some]

end PersistRequest

namespace Cluster

/-- The store when the core gets `input`: the driver installs a snapshot that the
core is going to adopt before it hands over the message. -/
def storeOn (store : Store) (c : Core) : Input → Store
  | .message msg => storeFor store c msg
  | _ => store

theorem storeOn_eq_self {c c' : Core} {input : Input} {out : Output} (store : Store)
    (hstep : c.step input = .ok (c', out)) (hsame : c'.snapshotIndex = c.snapshotIndex) :
    storeOn store c input = store := by
  cases input with
  | message msg =>
    rw [storeOn, storeFor]
    split
    case h_2 => rfl
    case h_1 index term cfg hasCfg hbody =>
      split
      case isFalse => rfl
      case isTrue hinstall =>
        -- the core adopts this snapshot and moves its boundary
        have hindex : c'.snapshotIndex = index :=
          (Core.step_of_newer hbody hinstall.1 hinstall.2.1 hinstall.2.2 hstep).1
        omega
  | _ => rfl

end Cluster

/-! ## Steps and proposals of one core -/

/-- All that later proofs know about a step other than a completion. -/
structure Core.Effect (c : Core) (input : Input) (c' : Core) (out : Output) : Prop where
  votes : c.VoteMove input c' out
  log : c.LogMove input c' out
  commit : c.CommitMove input c' out
  numbered : c.Numbered c' out
  sent : ∀ m ∈ out.messages, c.Sent input c' m
  -- a snapshot is installed only when the boundary moves
  store : c'.snapshotIndex = c.snapshotIndex → ∀ store, Cluster.storeOn store c input = store
  tracks : (∀ msg, input = .message msg → msg.Indexed) → c.Tracks → c'.Tracks

variable {c c' : Core} {input : Input} {out : Output}

theorem Core.Outcome.effect (h : c.Outcome input c' out)
    (hstore : c'.snapshotIndex = c.snapshotIndex → ∀ store, storeOn store c input = store) :
    c.Effect input c' out :=
  ⟨h.voteMove, h.logMove, h.commitMove, h.numbered, h.sent, hstore, h.tracks⟩

theorem Core.step_effect (h : c.step input = .ok (c', out))
    (hinput : ∀ seq, input ≠ .persistenceComplete seq) : c.Effect input c' out :=
  (step_outcome h hinput).effect fun hsame store => storeOn_eq_self store h hsame

theorem Core.proposeConfigChange_effect {kind : MembershipChangeKind} {requestID : Bytes}
    {targetID : NodeID} {targetAddr : Bytes}
    (h : c.proposeConfigChange kind requestID targetID targetAddr = .ok (c', out)) :
    ∃ data, c.Effect (.propose data) c' out := by
  have hrole : c.role = .leader := by
    by_contra hrole
    rw [proposeConfigChange, if_pos hrole] at h
    cases h
  obtain ⟨new, -, -, -, happend⟩ := proposeConfigChange_built h
  exact ⟨_, (appendLeaderEntry_outcome hrole happend).effect fun _ _ => rfl⟩

theorem Core.proposeConfigChange_panic {kind : MembershipChangeKind} {requestID : Bytes}
    {targetID : NodeID} {targetAddr : Bytes} {p : Panic}
    (h : c.proposeConfigChange kind requestID targetID targetAddr = .error (.panic p)) :
    p = .leaderConfigEntry := by
  unfold proposeConfigChange at h
  iterate 7
    split at h
    · cases h
  split at h
  case h_1 happend =>
    cases h
    unfold appendLeaderEntry at happend
    dsimp only at happend
    split at happend
    case h_1 hactive =>
      cases happend
      simp only [activateOwnEntry] at hactive
      split at hactive
      · cases hactive
        rfl
      · cases hactive
    · cases happend
  case h_2 => cases h

theorem Core.Effect.pending (h : c.Effect input c' out) {p : PendingItem} (hp : p ∈ c'.pending) :
    p ∈ c.pending ∨ p.seq = c'.persistSeq ∧ out.persistRequest.isSome = true := by
  have hgrant : p.isGrant = true →
      p ∈ c.pending ∨ p.seq = c'.persistSeq ∧ out.persistRequest.isSome = true := by
    intro hg
    cases h.votes with
    | stay _ _ _ _ _ grants => exact .inl (grants p hp hg)
    | clear _ _ _ _ _ grants => exact .inl (grants p hp hg)
    | adopt _ _ _ _ _ grants => exact .inl (grants p hp hg)
    | campaign _ _ _ _ _ _ grants => exact .inl (grants p hp hg)
    | count _ _ _ _ _ _ _ grants => exact .inl (grants p hp hg)
    | cast _ _ _ _ _ _ _ _ hs pending =>
      rw [pending] at hp
      obtain ⟨pr, hpr, -⟩ := hs
      rcases mem_append.mp hp with hp | hp
      · exact .inl hp
      · rw [mem_singleton.mp hp]
        exact .inr ⟨rfl, by rw [hpr]; rfl⟩
  cases h.log with
  | keep _ _ _ _ pending => exact (pending p hp).elim hgrant .inl
  | append _ _ _ _ _ _ _ stores _ pending =>
    rw [pending] at hp
    rcases mem_append.mp hp with hp | hp
    · exact .inl hp
    · rw [mem_singleton.mp hp]
      exact .inr ⟨rfl, by rw [stores]; rfl⟩
  | accept _ _ _ _ _ _ _ _ pending =>
    exact (pending p hp).imp_right fun h => ⟨h.2.1, h.1⟩
  | install _ _ _ _ _ _ _ _ _ _ _ _ _ pending =>
    rw [pending] at hp
    cases hp

/-! ## A store and its core -/

/-- The store holds what the core relies on.  The core may have cleared its vote in
memory, if it does not vote again in this term. -/
structure Stored (store : Store) (c : Core) : Prop where
  entries : store.entries = c.log
  index : store.boundaryIndex = c.snapshotIndex
  boundaryTerm : store.boundaryTerm = c.snapshotTerm
  config : store.boundaryConfig = c.snapshotConfig
  hasConfig : store.boundaryHasConfig = c.snapshotHasConfig
  term : store.hardState.currentTerm = c.currentTerm
  vote : store.hardState.votedFor = c.votedFor ∨ c.votedFor = noVote ∧ c.Blocked

def Store.after (store : Store) : Option PersistRequest → Store
  | none => store
  | some pr => pr.apply store

namespace PersistRequest

theorem apply_boundary (store : Store) (pr : PersistRequest) :
    (pr.apply store).boundaryTerm = store.boundaryTerm ∧
      (pr.apply store).boundaryConfig = store.boundaryConfig ∧
      (pr.apply store).boundaryHasConfig = store.boundaryHasConfig := by
  obtain ⟨seq, hs, trunc, entries⟩ := pr
  cases hs <;> cases trunc <;> by_cases he : entries.isEmpty <;>
    simp [apply, ops, StoreOp.apply, he]

end PersistRequest

namespace Stored

variable {store : Store} {c c' : Core} {input : Input} {out : Output}

theorem after_idle {pr : Option PersistRequest} (hidle : ∀ q, pr = some q → q.Idle) :
    (store.after pr).entries = store.entries := by
  cases pr with
  | none => rfl
  | some q => exact (hidle q rfl).apply_entries store

theorem after_index (store : Store) (pr : Option PersistRequest) :
    (store.after pr).boundaryIndex = store.boundaryIndex ∧
      (store.after pr).boundaryTerm = store.boundaryTerm ∧
      (store.after pr).boundaryConfig = store.boundaryConfig ∧
      (store.after pr).boundaryHasConfig = store.boundaryHasConfig := by
  cases pr with
  | none => exact ⟨rfl, rfl, rfl, rfl⟩
  | some q => exact ⟨q.apply_boundaryIndex store, q.apply_boundary store⟩

theorem storeOn_hardState (store : Store) (c : Core) (input : Input) :
    (storeOn store c input).hardState = store.hardState := by
  cases input with
  | message msg =>
    rw [storeOn, storeFor]
    split
    · split
      · rfl
      · rfl
    · rfl
  | _ => rfl

theorem step_log (h : Stored store c) (he : c.Effect input c' out) :
    ((storeOn store c input).after out.persistRequest).entries = c'.log ∧
      (storeOn store c input).boundaryIndex = c'.snapshotIndex ∧
      (storeOn store c input).boundaryTerm = c'.snapshotTerm ∧
      (storeOn store c input).boundaryConfig = c'.snapshotConfig ∧
      (storeOn store c input).boundaryHasConfig = c'.snapshotHasConfig := by
  have hsame : Core.SameBoundary c c' → storeOn store c input = store ∧
      store.boundaryIndex = c'.snapshotIndex ∧ store.boundaryTerm = c'.snapshotTerm ∧
      store.boundaryConfig = c'.snapshotConfig ∧
      store.boundaryHasConfig = c'.snapshotHasConfig := by
    intro hb
    exact ⟨he.store hb.1 store, h.index.trans hb.1.symm, h.boundaryTerm.trans hb.2.symm,
      h.config.trans hb.3.symm, h.hasConfig.trans hb.4.symm⟩
  cases he.log with
  | keep log boundary idle =>
    obtain ⟨hstore, hrest⟩ := hsame boundary
    rw [hstore]
    exact ⟨by rw [after_idle idle, h.entries, log], hrest⟩
  | append _ _ _ _ _ log boundary stores =>
    obtain ⟨hstore, hrest⟩ := hsame boundary
    rw [hstore]
    refine ⟨?_, hrest⟩
    rw [stores, log, ← h.entries]
    exact apply_entries _ _
  | accept _ log boundary _ _ stores idle =>
    obtain ⟨hstore, hrest⟩ := hsame boundary
    rw [hstore]
    refine ⟨?_, hrest⟩
    cases hpr : out.persistRequest with
    | none =>
      obtain ⟨htrunc, hnew, -⟩ := idle hpr
      rw [log, htrunc, hnew, Core.logWith, append_nil]
      exact h.entries
    | some pr =>
      obtain ⟨-, htrunc, hnew⟩ := stores pr hpr
      refine (apply_entries store pr).trans ?_
      rw [log, htrunc, hnew, h.entries, h.index]
      split <;> rfl
  | @install msg _ _ index term cfg hasCfg body msgTerm above new log hindex hterm hcfg hhas _ _ idle =>
    have hstore : storeOn store c (.message msg) = store.install index term cfg hasCfg := by
      rw [storeOn, storeFor, body]
      exact if_pos ⟨msgTerm, above, new⟩
    rw [hstore]
    exact ⟨by rw [after_idle idle, log]; rfl, hindex.symm, hterm.symm, hcfg.symm, hhas.symm⟩

theorem step_hardState (h : Stored store c) (he : c.Effect input c' out) {store' : Store}
    (hstore : store'.hardState = store.hardState) :
    (store'.after out.persistRequest).hardState.currentTerm = c'.currentTerm ∧
      ((store'.after out.persistRequest).hardState.votedFor = c'.votedFor ∨
        c'.votedFor = noVote ∧ c'.Blocked) := by
  have hnone : (∀ pr, out.persistRequest = some pr → pr.hardState = none) →
      (store'.after out.persistRequest).hardState = store.hardState := by
    intro hs
    cases hpr : out.persistRequest with
    | none => exact hstore
    | some pr => rw [Store.after, apply_hardState, hs pr hpr, Option.getD_none, hstore]
  have hsome : c'.Stores out → (store'.after out.persistRequest).hardState = c'.hardState := by
    rintro ⟨pr, hpr, hs⟩
    rw [hpr, Store.after, apply_hardState, hs, Option.getD_some]
  cases he.votes with
  | stay term vote _ blocked hs =>
    rw [hnone hs, term, vote]
    exact ⟨h.term, h.vote.imp_right fun h => ⟨h.1, blocked h.2⟩⟩
  | clear term _ vote blocked hs =>
    rw [hnone hs, term]
    exact ⟨h.term, .inr ⟨vote, blocked⟩⟩
  | adopt _ _ _ _ hs =>
    rw [hsome hs]
    exact ⟨rfl, .inl rfl⟩
  | campaign _ _ _ _ _ hs =>
    rw [hsome hs]
    exact ⟨rfl, .inl rfl⟩
  | count _ _ role term vote _ hs =>
    rw [hnone (by simp [hs]), term, vote]
    refine ⟨h.term, h.vote.imp_right fun h => absurd h.2.1 (by simp [role])⟩
  | cast _ _ _ _ _ _ _ _ hs =>
    rw [hsome hs]
    exact ⟨rfl, .inl rfl⟩

theorem step (h : Stored store c) (he : c.Effect input c' out) :
    Stored ((storeOn store c input).after out.persistRequest) c' := by
  obtain ⟨hentries, hindex, hterm, hcfg, hhas⟩ := h.step_log he
  obtain ⟨hi, ht, hc, hh⟩ := after_index (storeOn store c input) out.persistRequest
  obtain ⟨hhs, hvote⟩ := h.step_hardState he (storeOn_hardState store c input)
  exact ⟨hentries, hi.trans hindex, ht.trans hterm, hc.trans hcfg, hh.trans hhas, hhs, hvote⟩

theorem frame (h : Stored store c) (hf : Core.Frame c c') : Stored store c' := by
  refine ⟨h.entries.trans hf.log.symm, h.index.trans hf.boundary.1.symm,
    h.boundaryTerm.trans hf.boundary.2.symm, h.config.trans hf.boundary.3.symm,
    h.hasConfig.trans hf.boundary.4.symm, h.term.trans hf.currentTerm.symm, ?_⟩
  rw [hf.votedFor]
  refine h.vote.imp_right fun ⟨hv, hrole, hrest⟩ => ⟨hv, ?_, ?_⟩
  · rcases hf.role with hr | hr
    · exact hr.1.trans hrole
    · exact hr.2
  · rw [hf.heardFromLeader, hf.activeConfig, hf.cfg]
    exact hrest

end Stored

end ChronicleDB.Raft
