import ChronicleDB.Foundation.Scripts
import ChronicleDB.Raft.Driver

/-!
# Steps of a cluster, replica by replica

Each act of a cluster moves one replica, adds messages to the network and entries
to the reports.  An invariant of the cluster is proved by cases on that move.
-/

namespace ChronicleDB.Raft

open Foundation List Option Raft.Core PersistRequest

/-- The act that hands `input` to the core of `n`.  A configuration change is handed
over as a proposal. -/
inductive Hands (n : NodeID) : Act → Input → Prop where
  | electionTimeout : Hands n (.electionTimeout n) .electionTimeout
  | heartbeatTimeout : Hands n (.heartbeatTimeout n) .heartbeatTimeout
  | deliver {msg} (receiver : msg.receiver = n) : Hands n (.deliver msg) (.message msg)
  | propose {data} : Hands n (.propose n data) (.propose data)
  | proposeConfig {kind requestID targetID targetAddr data} :
      Hands n (.proposeConfig n kind requestID targetID targetAddr) (.propose data)

/-- The move of replica `r` of node `n` under an act, with the messages, reports and
panics it adds. -/
inductive Moves (boot : NodeID → Configuration) (net : List Message) (n : NodeID) (r : Replica) :
    Act → Replica → List Message → List Report → List (NodeID × Panic) → Prop where
  | start {c} (down : r.core = none) (opened : r.store.open ⟨n, boot n⟩ = some c) :
      Moves boot net n r (.start n) ⟨some c, r.store, none⟩ [] [] []
  | crash : Moves boot net n r (.crash n) ⟨none, r.store, none⟩ [] [] []
  | input {a c input c' out} (up : r.core = some c) (idle : r.writing = none)
      (hands : Hands n a input) (known : ∀ msg, a = .deliver msg → msg ∈ net)
      (effect : c.Effect input c' out) :
      Moves boot net n r a
        ⟨some c', Cluster.storeOn r.store c input,
          out.persistRequest.map fun pr => (pr.seq, pr.ops)⟩
        out.messages (out.committedEntries.map fun e => ⟨n, c'.currentTerm, e⟩) []
  | panic {a c input p} (up : r.core = some c) (idle : r.writing = none)
      (hands : Hands n a input) (known : ∀ msg, a = .deliver msg → msg ∈ net)
      (failed : c.step input = .error p ∨ p = .leaderConfigEntry) :
      Moves boot net n r a ⟨none, Cluster.storeOn r.store c input, none⟩ [] [] [(n, p)]
  | write {c seq op ops} (up : r.core = some c) (busy : r.writing = some (seq, op :: ops)) :
      Moves boot net n r (.persist n) ⟨some c, op.apply r.store, some (seq, ops)⟩ [] [] []
  | complete {c seq} (up : r.core = some c) (done : r.writing = some (seq, [])) :
      Moves boot net n r (.persist n) ⟨some (c.handlePersistenceComplete seq).1, r.store, none⟩
        (c.handlePersistenceComplete seq).2.messages
        ((c.handlePersistenceComplete seq).2.committedEntries.map fun e =>
          ⟨n, (c.handlePersistenceComplete seq).1.currentTerm, e⟩) []
  | apply {c index} (up : r.core = some c) (idle : r.writing = none)
      (le : index ≤ c.commitIndex) :
      Moves boot net n r (.apply n index) ⟨some (c.setApplied index), r.store, none⟩ [] [] []
  | compact {c c' index} (up : r.core = some c) (idle : r.writing = none)
      (compacted : c.compact index = some c') :
      Moves boot net n r (.compact n index) ⟨some c', r.store.compactTo c', none⟩ [] [] []

namespace Cluster

def moved (s : Cluster) (n : NodeID) (r' : Replica) (ms : List Message) (reps : List Report)
    (ps : List (NodeID × Panic)) : Cluster :=
  ⟨Function.update s.replicas n r', s.net ++ ms, s.reports ++ reps, s.panics ++ ps⟩

theorem idle_eq_some {s : Cluster} {n : NodeID} {c : Core} (h : s.idle n = some c) :
    (s.replicas n).core = some c ∧ (s.replicas n).writing = none := by
  unfold idle at h
  split at h
  · cases h
  · exact ⟨h, ‹_›⟩

section Feed

variable {boot : NodeID → Configuration} {s : Cluster} {n : NodeID} {a : Act} {c : Core}

theorem moves_feed {input : Input} (hup : (s.replicas n).core = some c)
    (hidle : (s.replicas n).writing = none) (hhands : Hands n a input)
    (hknown : ∀ msg, a = .deliver msg → msg ∈ s.net)
    (hinput : ∀ seq, input ≠ .persistenceComplete seq) :
    ∃ r' ms reps ps, Moves boot s.net n (s.replicas n) a r' ms reps ps ∧
      s.feed n (storeOn (s.replicas n).store c input) c input = s.moved n r' ms reps ps := by
  unfold feed
  split
  case h_1 p hstep =>
    refine ⟨_, _, _, _, .panic hup hidle hhands hknown (.inl hstep), ?_⟩
    simp [panicked, moved, update]
  case h_2 r hstep =>
    refine ⟨_, _, _, _, .input hup hidle hhands hknown (step_effect hstep hinput), ?_⟩
    simp [processOutput, moved, update]

end Feed

theorem step_moves {boot : NodeID → Configuration} {s s' : Cluster} {a : Act}
    (h : s.step boot a = some s') :
    ∃ n r' ms reps ps, Moves boot s.net n (s.replicas n) a r' ms reps ps ∧
      s' = s.moved n r' ms reps ps := by
  cases a with
  | start n =>
    rw [step] at h
    split at h
    · cases h
    case isFalse hdown =>
      split at h
      · cases h
      case h_2 c hopen =>
        cases h
        exact ⟨n, _, _, _, _, .start (by simpa using hdown) hopen, by simp [moved, update]⟩
  | crash n =>
    cases h
    exact ⟨n, _, _, _, _, .crash, by simp [moved, update]⟩
  | electionTimeout n =>
    obtain ⟨c, hc, rfl⟩ := map_eq_some_iff.mp h
    obtain ⟨hup, hidle⟩ := idle_eq_some hc
    exact ⟨n, moves_feed hup hidle .electionTimeout (by simp) (by simp)⟩
  | heartbeatTimeout n =>
    obtain ⟨c, hc, rfl⟩ := map_eq_some_iff.mp h
    obtain ⟨hup, hidle⟩ := idle_eq_some hc
    exact ⟨n, moves_feed hup hidle .heartbeatTimeout (by simp) (by simp)⟩
  | deliver msg =>
    rw [step] at h
    split at h
    · cases h
    case isFalse hnet =>
      obtain ⟨c, hc, rfl⟩ := map_eq_some_iff.mp h
      obtain ⟨hup, hidle⟩ := idle_eq_some hc
      refine ⟨msg.receiver, moves_feed hup hidle (.deliver rfl) (fun m hm => ?_) (by simp)⟩
      cases hm
      exact not_not.mp hnet
  | propose n data =>
    obtain ⟨c, hc, rfl⟩ := map_eq_some_iff.mp h
    obtain ⟨hup, hidle⟩ := idle_eq_some hc
    exact ⟨n, moves_feed hup hidle .propose (by simp) (by simp)⟩
  | proposeConfig n kind requestID targetID targetAddr =>
    rw [step] at h
    split at h
    · cases h
    case h_2 c hc =>
      obtain ⟨hup, hidle⟩ := idle_eq_some hc
      split at h
      · cases h
      case h_2 p hp =>
        cases h
        refine ⟨n, _, _, _, [(n, p)], .panic hup hidle (@Hands.proposeConfig n kind requestID
          targetID targetAddr []) (by simp) (.inr (Core.proposeConfigChange_panic hp)), ?_⟩
        simp [panicked, moved, update, storeOn]
      case h_3 r hr =>
        split at h
        · cases h
          obtain ⟨data, heffect⟩ := Core.proposeConfigChange_effect hr
          refine ⟨n, _, _, _, _, .input hup hidle .proposeConfig (by simp) heffect, ?_⟩
          simp [processOutput, moved, update, storeOn]
        · cases h
  | persist n =>
    rw [step] at h
    split at h
    · cases h
      exact ⟨n, _, _, _, _, .write ‹_› ‹_›, by simp [moved, update]⟩
    case h_2 seq c hdone hup =>
      cases h
      refine ⟨n, _, _, _, _, .complete hup hdone, ?_⟩
      obtain ⟨-, -, hpr, -⟩ := c.handlePersistenceComplete_spec seq
      simp [feed, Core.step, processOutput, moved, update, hpr]
    · cases h
  | apply n index =>
    rw [step] at h
    split at h
    · cases h
    case h_2 c hc =>
      obtain ⟨hup, hidle⟩ := idle_eq_some hc
      split at h
      · cases h
        exact ⟨n, _, _, _, _, .apply hup hidle ‹_›, by simp [moved, update]⟩
      · cases h
  | compact n index =>
    rw [step] at h
    split at h
    · cases h
    case h_2 c hc =>
      obtain ⟨hup, hidle⟩ := idle_eq_some hc
      obtain ⟨c', hc', rfl⟩ := map_eq_some_iff.mp h
      exact ⟨n, _, _, _, _, .compact hup hidle hc', by simp [moved, update]⟩

theorem Run.invariant {boot : NodeID → Configuration} {allowed : Cluster → Act → Prop}
    {P : Cluster → Prop} (hinit : P fresh)
    (hmove : ∀ s n a r' ms reps ps, P s → allowed s a →
      Moves boot s.net n (s.replicas n) a r' ms reps ps → P (s.moved n r' ms reps ps))
    {s : Cluster} (hrun : Run boot allowed fresh s) : P s := by
  induction hrun with
  | refl => exact hinit
  | tail _ hstep ih =>
    obtain ⟨a, hallowed, hstep⟩ := hstep
    obtain ⟨n, r', ms, reps, ps, hmoves, rfl⟩ := step_moves hstep
    exact hmove _ n a r' ms reps ps ih hallowed hmoves

theorem exists_run {boot : NodeID → Configuration} {allowed : Cluster → Act → Prop} {s : Cluster}
    {acts : List Act} (hallowed : ∀ a ∈ acts, ∀ s, allowed s a) {test : Cluster → Bool}
    (h : (s.exec boot acts).any test = true) : ∃ s', Run boot allowed s s' ∧ test s' = true :=
  exists_of_foldlM_any (fun a ha s _ hstep => ⟨a, hallowed a ha s, hstep⟩) h

end Cluster

/-! ## Stores and cores in step -/

/-- The store of a replica agrees with its core, or will once the writes that are left
have been made. -/
structure Replica.Synced (cfg : Config) (r : Replica) : Prop where
  down : r.core = none → r.writing = none
  cfg : ∀ c, r.core = some c → c.cfg = cfg
  idle : ∀ c, r.core = some c → r.writing = none → Stored r.store c ∧ c.pending = []
  busy : ∀ c seq ops, r.core = some c → r.writing = some (seq, ops) →
    ∃ pr : PersistRequest, ops = pr.ops ∧ Stored (pr.apply r.store) c ∧ ∀ p ∈ c.pending, p.seq = seq

theorem PersistRequest.ops_tail {pr : PersistRequest} {op : StoreOp} {ops : List StoreOp}
    (h : pr.ops = op :: ops) (store : Store) :
    ∃ pr' : PersistRequest, ops = pr'.ops ∧ pr'.apply (op.apply store) = pr.apply store := by
  obtain ⟨seq, hs, trunc, entries⟩ := pr
  have happly : ∀ pr' : PersistRequest, ops = pr'.ops →
      pr'.apply (op.apply store) = (⟨seq, hs, trunc, entries⟩ : PersistRequest).apply store := by
    intro pr' hops
    rw [PersistRequest.apply, ← hops, PersistRequest.apply, h, foldl_cons]
  cases trunc with
  | some idx =>
    have hops : ops = (⟨seq, hs, none, entries⟩ : PersistRequest).ops := by
      simp only [PersistRequest.ops, toList_some, map_cons, map_nil,
        cons_append, nil_append, cons.injEq] at h
      rw [← h.2]
      rfl
    exact ⟨_, hops, happly _ hops⟩
  | none =>
    by_cases hempty : entries.isEmpty = true
    · cases hs with
      | none => simp [PersistRequest.ops, hempty] at h
      | some hs =>
        have hops : ops = (⟨seq, none, none, []⟩ : PersistRequest).ops := by
          simp only [PersistRequest.ops, toList_none, map_nil, nil_append, hempty,
            if_true, toList_some, map_cons, cons.injEq] at h
          rw [← h.2]
          rfl
        exact ⟨_, hops, happly _ hops⟩
    · have hops : ops = (⟨seq, hs, none, []⟩ : PersistRequest).ops := by
        simp only [PersistRequest.ops, toList_none, map_nil, nil_append,
          if_neg hempty, cons_append, cons.injEq] at h
        rw [← h.2]
        rfl
      exact ⟨_, hops, happly _ hops⟩

/-- Entries are appended by the last write that touches the log. -/
theorem PersistRequest.idle_of_append {pr pr' : PersistRequest} {entries : List Entry}
    {ops : List StoreOp} (h : pr.ops = .append entries :: ops) (h' : ops = pr'.ops) :
    pr'.Idle := by
  obtain ⟨seq, hs, trunc, new⟩ := pr
  obtain ⟨seq', hs', trunc', new'⟩ := pr'
  subst h'
  cases trunc with
  | some idx => simp [ops] at h
  | none =>
    by_cases hnew : new.isEmpty = true
    · cases hs <;> simp [ops, hnew] at h
    · cases trunc' <;> by_cases hnew' : new'.isEmpty = true <;> cases hs <;> cases hs' <;>
        simp_all [ops, PersistRequest.Idle]

theorem Store.open_stored {store : Store} {cfg : Config} {c : Core} (h : store.open cfg = some c) :
    Stored store c ∧ c.pending = [] ∧ c.cfg = cfg := by
  rw [Store.open, newCoreFromSnapshot] at h
  split at h
  · cases h
  · cases h
    exact ⟨⟨rfl, rfl, rfl, rfl, rfl, rfl, .inl rfl⟩, rfl, rfl⟩

theorem Stored.compact {store : Store} {c c' : Core} {index : Nat} (h : Stored store c)
    (hc : c.compact index = some c') : Stored (store.compactTo c') c' := by
  unfold Core.compact at hc
  split at hc
  · cases hc
  · cases hc
    refine ⟨?_, rfl, rfl, rfl, rfl, h.term, h.vote⟩
    simp only [Store.compactTo]
    rw [h.entries, h.index]

theorem Core.compact_pending {c c' : Core} {index : Nat} (hc : c.compact index = some c') :
    c'.pending = c.pending ∧ c'.cfg = c.cfg := by
  unfold compact at hc
  split at hc
  · cases hc
  · cases hc
    exact ⟨rfl, rfl⟩

theorem Stored.setApplied {store : Store} {c : Core} (h : Stored store c) (index : Nat) :
    Stored store (c.setApplied index) := by
  rw [setApplied_eq]
  exact ⟨h.entries, h.index, h.boundaryTerm, h.config, h.hasConfig, h.term, h.vote⟩

theorem Stored.complete {store : Store} {c : Core} (h : Stored store c) (seq : Nat) :
    Stored store (c.handlePersistenceComplete seq).1 := by
  obtain ⟨hframe, -⟩ := c.handlePersistenceComplete_spec seq
  refine Stored.frame ?_ hframe
  exact ⟨h.entries, h.index, h.boundaryTerm, h.config, h.hasConfig, h.term, h.vote⟩

theorem Core.complete_pending {c : Core} {seq : Nat} (h : ∀ p ∈ c.pending, p.seq = seq) :
    (c.handlePersistenceComplete seq).1.pending = [] := by
  obtain ⟨hframe, -⟩ := c.handlePersistenceComplete_spec seq
  rw [hframe.pending]
  refine filter_eq_nil_iff.mpr fun p hp => ?_
  simp [h p hp]

namespace Replica.Synced

variable {boot : NodeID → Configuration} {net : List Message} {n : NodeID} {r r' : Replica}
  {a : Act} {ms : List Message} {reps : List Report} {ps : List (NodeID × Panic)}

theorem of_down {cfg : Config} (store : Store) : Replica.Synced cfg ⟨none, store, none⟩ :=
  ⟨fun _ => rfl, by simp, by simp, by simp⟩

theorem of_idle {cfg : Config} {c : Core} {store : Store} (hcfg : c.cfg = cfg)
    (hstored : Stored store c) (hpending : c.pending = []) :
    Replica.Synced cfg ⟨some c, store, none⟩ := by
  refine ⟨fun _ => rfl, fun _ h => ?_, fun _ h _ => ?_, by simp⟩
  · cases h
    exact hcfg
  · cases h
    exact ⟨hstored, hpending⟩

theorem moves (h : r.Synced ⟨n, boot n⟩) (hm : Moves boot net n r a r' ms reps ps) :
    r'.Synced ⟨n, boot n⟩ := by
  cases hm with
  | start down opened =>
    obtain ⟨hstored, hpending, hcfg⟩ := Store.open_stored opened
    exact of_idle hcfg hstored hpending
  | crash => exact of_down _
  | panic => exact of_down _
  | apply up idle =>
    obtain ⟨hstored, hpending⟩ := h.idle _ up idle
    have hcfg := h.cfg _ up
    refine of_idle ?_ (hstored.setApplied _) ?_
    · rw [setApplied_eq]
      exact hcfg
    · rw [setApplied_eq]
      exact hpending
  | compact up idle compacted =>
    obtain ⟨hstored, hpending⟩ := h.idle _ up idle
    obtain ⟨hpend, hcfg⟩ := compact_pending compacted
    exact of_idle (hcfg.trans (h.cfg _ up)) (hstored.compact compacted) (hpend.trans hpending)
  | complete up done =>
    obtain ⟨pr, hops, hstored, hseq⟩ := h.busy _ _ _ up done
    obtain ⟨hframe, -⟩ := handlePersistenceComplete_spec _ _
    have hstore : pr.apply r.store = r.store := by rw [apply, ← hops]; rfl
    rw [hstore] at hstored
    have hcfg := h.cfg _ up
    exact of_idle (hframe.cfg.trans hcfg) (hstored.complete _) (complete_pending hseq)
  | write up busy =>
    obtain ⟨pr, hops, hstored, hseq⟩ := h.busy _ _ _ up busy
    obtain ⟨pr', hops', happly⟩ := ops_tail hops.symm r.store
    refine ⟨by simp, fun c hc => ?_, by simp, fun c seq ops hc hw => ?_⟩
    · cases hc
      exact h.cfg _ up
    · cases hc
      cases hw
      exact ⟨pr', hops', happly ▸ hstored, hseq⟩
  | @input _ c input c' out up idle hands known effect =>
    obtain ⟨hstored, hpending⟩ := h.idle _ up idle
    have hstored' := hstored.step effect
    have hcfg : c'.cfg = ⟨n, boot n⟩ := effect.numbered.1.trans (h.cfg _ up)
    cases hpr : out.persistRequest with
    | none =>
      rw [hpr] at hstored'
      refine of_idle hcfg hstored' (eq_nil_iff_forall_not_mem.mpr fun p hp => ?_)
      rcases effect.pending hp with hp | ⟨-, hsome⟩
      · rw [hpending] at hp
        cases hp
      · rw [hpr] at hsome
        cases hsome
    | some pr =>
      rw [hpr] at hstored'
      refine ⟨by simp, fun c hc => ?_, by simp, fun c seq ops hc hw => ?_⟩
      · cases hc
        exact hcfg
      · cases hc
        cases hw
        refine ⟨pr, rfl, hstored', fun p hp => ?_⟩
        rcases effect.pending hp with hp | ⟨hseq, -⟩
        · rw [hpending] at hp
          cases hp
        · obtain ⟨-, -, ⟨hnone, -⟩ | ⟨pr', hpr', hprseq, hnext⟩⟩ := effect.numbered
          · rw [hnone] at hpr
            cases hpr
          · rw [hpr'] at hpr
            cases hpr
            rw [hseq, hnext, hprseq]

end Replica.Synced

theorem Cluster.Run.synced {boot : NodeID → Configuration} {allowed : Cluster → Act → Prop}
    {s : Cluster} (hrun : Run boot allowed fresh s) (n : NodeID) :
    (s.replicas n).Synced ⟨n, boot n⟩ := by
  refine Run.invariant (P := fun s => ∀ n, (s.replicas n).Synced ⟨n, boot n⟩)
    (fun n => .of_down _) (fun s n a r' ms reps ps h _ hmoves m => ?_) hrun n
  by_cases hm : m = n
  · subst hm
    simpa [moved] using (h m).moves hmoves
  · simpa [moved, Function.update_of_ne hm] using h m

end ChronicleDB.Raft
