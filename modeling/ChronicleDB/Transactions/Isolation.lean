import ChronicleDB.Isolation.Snapshot
import ChronicleDB.Transactions.Log

/-!
# Snapshot isolation of the transaction manager

Every run of calls on a manager, and every reply it gives, is one that snapshot
isolation allows; and a restart finds the state machine as it was.
-/

namespace ChronicleDB.Transactions

open Foundation Mvcc Fsm List Function SortedMap FSM Engine
open Isolation (Phase Session)

variable {id t : Nat} {x : Session Bytes Bytes} {y : Txn} {store : Store} {ms : List Mutation}
    {cmd : CommitTxnCommand} {outcome : Outcome} {w : Wal.WAL} {c : Call}

abbrev Spec := Isolation.State Nat Bytes Bytes

def TxnState.phase : TxnState → Phase
  | .active => .active
  | .committed => .committed
  | .aborted => .aborted

/-- `ms` lists the writes of a session, each key once. -/
structure Lists (ms : List Mutation) (writes : Bytes → Option (Option Bytes)) : Prop where
  nodup : (ms.map (·.key)).Nodup
  mem_iff : ∀ k v, writes k = some v ↔ ⟨k, v⟩ ∈ ms

def commandSize (id : RequestID) (ms : List Mutation) : Nat := (encodeCommitTxn ⟨id, 0, 0, ms⟩).length

def Call.txn? : Call → Option Nat
  | .start => none
  | .read t _ => some t
  | .write t _ _ => some t
  | .delete t _ => some t
  | .commit t _ _ => some t
  | .abort t => some t
  | .reopen _ => none

def Call.requestID? : Call → Option RequestID
  | .commit _ id _ => some id
  | _ => none

def Call.fault? : Call → Option Fault
  | .commit _ _ fault => fault
  | _ => none

/-- The replies that snapshot isolation allows. -/
inductive SpecStep : Spec → Call → Reply → Spec → Prop
  | start {s : Spec} {t : Nat} (startSeq : Nat) (hnew : s.sessions t = none) :
      SpecStep s .start (.started t startSeq) (s.start t)
  | read {s : Spec} {t : Nat} {x : Session Bytes Bytes} (hx : s.sessions t = some x)
      (hactive : x.phase = .active) (k : Bytes) :
      SpecStep s (.read t k) (.value (.ok (x.read k))) s
  | write {s : Spec} {t : Nat} {x : Session Bytes Bytes} (hx : s.sessions t = some x)
      (hactive : x.phase = .active) (k v : Bytes) :
      SpecStep s (.write t k v) .done (s.set t (x.write k (some v)))
  | delete {s : Spec} {t : Nat} {x : Session Bytes Bytes} (hx : s.sessions t = some x)
      (hactive : x.phase = .active) (k : Bytes) :
      SpecStep s (.delete t k) .done (s.set t (x.write k none))
  | commit {s : Spec} {t : Nat} {x : Session Bytes Bytes} {ms : List Mutation}
      {id : RequestID} (hx : s.sessions t = some x) (hactive : x.phase = .active)
      (hms : Lists ms x.writes) (hsize : ms ≠ [] → commandSize id ms ≤ Wal.maxRecordPayloadSize)
      (hfree : ¬x.Conflicts) (commitSeq : Nat) :
      SpecStep s (.commit t id none) (.committed commitSeq) (s.commit t x)
  | conflict {s : Spec} {t : Nat} {x : Session Bytes Bytes} {ms : List Mutation}
      {id : RequestID} (hx : s.sessions t = some x) (hactive : x.phase = .active)
      (hms : Lists ms x.writes) (hsize : commandSize id ms ≤ Wal.maxRecordPayloadSize)
      (hconflict : x.Conflicts) (key : Bytes) (latest startSeq : Nat) :
      SpecStep s (.commit t id none) (.failed (.conflict key latest startSeq)) (s.abort t x)
  | tooLarge {s : Spec} {t : Nat} {x : Session Bytes Bytes} {ms : List Mutation}
      {id : RequestID} (hx : s.sessions t = some x) (hactive : x.phase = .active)
      (hms : Lists ms x.writes) (hsize : Wal.maxRecordPayloadSize < commandSize id ms)
      (hne : ms ≠ []) :
      SpecStep s (.commit t id none)
        (.failed (.append (some (.recordTooLarge (commandSize id ms))))) (s.abort t x)
  | abort {s : Spec} {t : Nat} {x : Session Bytes Bytes} (hx : s.sessions t = some x)
      (hactive : x.phase = .active) : SpecStep s (.abort t) .done (s.abort t x)
  | terminal {s : Spec} {t : Nat} {x : Session Bytes Bytes} {c : Call} {state : TxnState}
      (hc : c.txn? = some t) (hx : s.sessions t = some x) (hphase : x.phase = state.phase)
      (hover : state ≠ .active) : SpecStep s c (.terminal state) s
  | noSuchTxn {s : Spec} {t : Nat} {c : Call} (hc : c.txn? = some t)
      (hx : s.sessions t = none) : SpecStep s c .noSuchTxn s
  | reopen {s : Spec} (nodeID : Bytes) : SpecStep s (.reopen nodeID) .opened s.restart

inductive SpecRun : Spec → List (Call × Reply) → Spec → Prop
  | nil (s : Spec) : SpecRun s [] s
  | cons {s s' s'' : Spec} {c : Call} {r : Reply} {trace : List (Call × Reply)}
      (hstep : SpecStep s c r s') (hrun : SpecRun s' trace s'') : SpecRun s ((c, r) :: trace) s''

/-! ## Write sets -/

theorem length_encodeCommitTxn_eq (cmd : CommitTxnCommand) :
    (encodeCommitTxn cmd).length = commandSize cmd.requestID cmd.mutations := by
  rw [commandSize, length_encodeCommitTxn, length_encodeCommitTxn]

theorem Lists.filter_key {writes : Bytes → Option (Option Bytes)}
    (h : Lists ms writes) (k : Bytes) :
    ms.filter (·.key = k) = ((writes k).map fun v => (⟨k, v⟩ : Mutation)).toList := by
  obtain ⟨hnodup, hmem⟩ := h
  cases hw : writes k with
  | none =>
    rw [Option.map_none, Option.toList_none, filter_eq_nil_iff]
    rintro ⟨k', v⟩ hm hk
    obtain rfl : k' = k := of_decide_eq_true hk
    rw [(hmem _ v).mpr hm] at hw
    cases hw
  | some v =>
    have hv := (hmem k v).mp hw
    rw [Option.map_some, Option.toList_some]
    clear hw hmem
    induction ms with
    | nil => cases hv
    | cons m ms ih =>
      rw [map_cons, nodup_cons] at hnodup
      rcases mem_cons.mp hv with rfl | hv
      · rw [filter_cons_of_pos (by simp), filter_eq_nil_iff.mpr]
        intro m hm hk
        exact hnodup.1 (mem_map.mpr ⟨m, hm, of_decide_eq_true hk⟩)
      · rw [filter_cons_of_neg, ih hnodup.2 hv]
        intro hk
        refine hnodup.1 (mem_map.mpr ⟨_, hv, ?_⟩)
        exact (of_decide_eq_true hk).symm

theorem Lists.writeSet_eq (h : Lists ms x.writes) : x.writeSet = {k | ∃ m ∈ ms, m.key = k} := by
  ext k
  constructor
  · intro hk
    obtain ⟨v, hv⟩ := Option.ne_none_iff_exists'.mp hk
    exact ⟨_, (h.mem_iff k v).mp hv, rfl⟩
  · rintro ⟨⟨k, v⟩, hm, rfl⟩ hnone
    rw [(h.mem_iff k v).mpr hm] at hnone
    cases hnone

theorem Lists.eq_nil_iff (h : Lists ms x.writes) (hnil : ms = []) : x.writes = fun _ => none := by
  funext k
  rw [Option.eq_none_iff_forall_ne_some]
  intro v hv
  have := (h.mem_iff k v).mp hv
  simp [hnil] at this

/-! ## A transaction and its session -/

/-- `t` holds the writes of the session `x`. -/
structure Tracks (id : Nat) (t : Txn) (x : Session Bytes Bytes) : Prop where
  id_eq : t.id = id
  phase : x.phase = t.state.phase
  writes : ∀ k, x.writes k = (t.writes.get k).map (·.value)
  keys : ∀ k m, t.writes.get k = some m → m.key = k
  nodup : t.order.Nodup
  mem_order : ∀ k, k ∈ t.order ↔ (t.writes.get k).isSome

/-- `t` sees the state of the beginning of `x` in the store, and what has changed since. -/
structure Sees (store : Store) (t : Txn) (x : Session Bytes Bytes) : Prop where
  snapshot : ∀ k, x.snapshot k = visibleIn (store.chain k) t.startSeq
  overwritten : ∀ k, k ∈ x.overwritten ↔ store.ChangedSince t.startSeq k

theorem Tracks.localWrites {t : Txn} (h : Tracks id t x) :
    Lists t.localWrites x.writes := by
  have hget : ∀ k ∈ t.order, ∃ v, t.writes.get k = some ⟨k, v⟩ := by
    intro k hk
    obtain ⟨m, hm⟩ := Option.isSome_iff_exists.mp ((h.mem_order k).mp hk)
    obtain rfl := h.keys k m hm
    exact ⟨m.value, hm⟩
  refine ⟨?_, fun k v => ?_⟩
  · have hkeys : t.localWrites.map (·.key) = t.order := by
      rw [Txn.localWrites, map_map]
      refine (map_congr_left fun k hk => ?_).trans (map_id _)
      obtain ⟨v, hv⟩ := hget k hk
      simp [hv]
    rw [hkeys]
    exact h.nodup
  · rw [h.writes, Txn.localWrites, mem_map]
    constructor
    · intro hv
      obtain ⟨m, hm, rfl⟩ := Option.map_eq_some_iff.mp hv
      obtain rfl := h.keys k m hm
      exact ⟨m.key, (h.mem_order _).mpr (by simp [hm]), by simp [hm]⟩
    · rintro ⟨k', hk', heq⟩
      obtain ⟨v', hv'⟩ := hget k' hk'
      rw [hv', Option.getD_some] at heq
      cases heq
      simp [hv']

theorem Tracks.recordWrite {t : Txn} (h : Tracks id t x) (k : Bytes) (v : Option Bytes) :
    Tracks id (t.recordWriteLocked k v) (x.write k v) where
  id_eq := h.id_eq
  phase := h.phase
  writes k' := by
    simp only [Session.write, Txn.recordWriteLocked, get_insert, update_apply,
      h.writes]
    split <;> rfl
  keys k' m hm := by
    simp only [Txn.recordWriteLocked, get_insert] at hm
    split at hm
    case isTrue hk => cases hm; exact hk.symm
    case isFalse => exact h.keys k' m hm
  nodup := by
    simp only [Txn.recordWriteLocked]
    split
    case isTrue => exact h.nodup
    case isFalse hnew =>
      rw [nodup_append]
      refine ⟨h.nodup, by simp, fun a ha b hb => ?_⟩
      obtain rfl := mem_singleton.mp hb
      rintro rfl
      exact hnew ((h.mem_order a).mp ha)
  mem_order k' := by
    simp only [Txn.recordWriteLocked, get_insert]
    by_cases hk : k' = k
    · subst hk
      by_cases hold : (t.writes.get k').isSome
      · simp [hold, (h.mem_order k').mpr hold]
      · simp [hold]
    · by_cases hold : (t.writes.get k).isSome
      · simp [hold, hk, h.mem_order k']
      · simp [hold, hk, h.mem_order k']

theorem Tracks.close {t : Txn} (h : Tracks id t x)
    (state : TxnState) : Tracks id (t.close state) (x.finish state.phase) where
  id_eq := h.id_eq
  phase := rfl
  writes k := rfl
  keys k m hm := by simp [Txn.close] at hm
  nodup := .nil
  mem_order k := by simp [Txn.close]

theorem Tracks.overwrite {t : Txn} (h : Tracks id t x)
    (keys : Set Bytes) : Tracks id t (x.overwrite keys) :=
  ⟨h.id_eq, h.phase, h.writes, h.keys, h.nodup, h.mem_order⟩

/-- A transaction that began before sequence `n` sees a commit at `n` as a change of its
keys, and nothing else of it. -/
theorem Sees.commit {t : Txn} (h : Sees store t x)
    {n : Nat} (hn : t.startSeq < n) (ms : List Mutation) :
    Sees (ms.foldl (Store.push n) store) t (x.overwrite {k | ∃ m ∈ ms, m.key = k}) where
  snapshot k := by
    rw [Store.chain_foldl_push, Store.visibleIn_append_of_lt]
    · exact h.snapshot k
    · intro v hv
      rw [Store.commitSeq_of_mem_added hv]
      exact hn
  overwritten k := by
    rw [Store.changedSince_foldl_push hn, ← h.overwritten]
    rfl

/-- The conflict check asks what snapshot isolation asks. -/
theorem conflicts_iff {t : Txn} (htracks : Tracks id t x) (hsees : Sees store t x) :
    x.Conflicts ↔ store.checkConflicts t.startSeq t.localWrites ≠ none := by
  rw [ne_eq, Store.checkConflicts_eq_none_iff, Session.Conflicts, Set.disjoint_left,
    htracks.localWrites.writeSet_eq, not_iff_not]
  constructor
  · intro h m hm hchanged
    exact h ⟨m, hm, rfl⟩ ((hsees.overwritten _).mpr hchanged)
  · rintro h k ⟨m, hm, rfl⟩ hover
    exact h m hm ((hsees.overwritten _).mp hover)

theorem getLast?_commit
    {writes : Bytes → Option (Option Bytes)} (h : Lists ms writes) (n : Nat) (k : Bytes) :
    (((ms.foldl (Store.push n) store).chain k).getLast?.bind (·.value)) =
      Isolation.overlay writes (fun k => (store.chain k).getLast?.bind (·.value)) k := by
  rw [Store.chain_foldl_push, Store.added, h.filter_key, Isolation.overlay]
  cases writes k with
  | none => simp
  | some v => simp

/-! ## The simulation -/

/-- `t` is the transaction `id` of an engine at sequence `n`, `x` its session. -/
structure Matches (store : Store) (n id : Nat) (t : Txn) (x : Session Bytes Bytes) : Prop where
  tracks : Tracks id t x
  startSeq_le : t.startSeq ≤ n
  sees : t.state = .active → Sees store t x

/-- What an engine and the specification agree on, after the commands `cmds` were logged. -/
structure Simulates (e : Engine) (s : Spec) (cmds : List CommitTxnCommand) : Prop where
  logged : Logged e.manager.walog cmds
  replays : Replays cmds e.manager.fsm
  lastSeq : e.manager.lastSeq = cmds.length
  below : e.manager.fsm.store.Below (cmds.length + 1)
  watermark : e.manager.fsm.gcWatermark = 0 ∧ e.manager.fsm.store.gcWatermark = 0
  db : ∀ k, s.db k = (e.manager.fsm.store.chain k).getLast?.bind (·.value)
  known : ∀ id entry, e.manager.fsm.outcomes.get id = some entry →
    ∃ cmd ∈ cmds, cmd.requestID = id
  unborn : ∀ t, e.manager.nextTxnID < t → e.txns t = none
  sessions : ∀ t, match e.txns t, s.sessions t with
    | none, none => True
    | some y, some x => Matches e.manager.fsm.store cmds.length t y x
    | _, _ => False

/-- A call adds at most one command to the log, with its own RequestID. -/
def Grows (c : Call) (cmds cmds' : List CommitTxnCommand) : Prop :=
  cmds' = cmds ∨ ∃ cmd, cmds' = cmds ++ [cmd] ∧ c.requestID? = some cmd.requestID

namespace Simulates

variable {e : Engine} {s : Spec} {cmds : List CommitTxnCommand}

theorem none_of_none (h : Simulates e s cmds) (ht : e.txns t = none) :
    s.sessions t = none := by
  have := h.sessions t
  rw [ht] at this
  cases hx : s.sessions t with
  | none => rfl
  | some x => simp [hx] at this

theorem matches_of_some (h : Simulates e s cmds) (ht : e.txns t = some y) :
    ∃ x, s.sessions t = some x ∧ Matches e.manager.fsm.store cmds.length t y x := by
  have := h.sessions t
  rw [ht] at this
  cases hx : s.sessions t with
  | none => simp [hx] at this
  | some x => exact ⟨x, rfl, by simpa [hx] using this⟩

theorem set (h : Simulates e s cmds) (hold : e.txns t ≠ none)
    (hmatches : Matches e.manager.fsm.store cmds.length t y x) :
    Simulates (e.set t y) (s.set t x) cmds where
  logged := h.logged
  replays := h.replays
  lastSeq := h.lastSeq
  below := h.below
  watermark := h.watermark
  db := h.db
  known := h.known
  unborn t' ht' := by
    have hne : t' ≠ t := by
      rintro rfl
      exact hold (h.unborn t' ht')
    simpa only [Engine.set, update_of_ne hne] using h.unborn t' ht'
  sessions t' := by
    by_cases ht : t' = t
    · subst ht
      simpa only [Engine.set, Isolation.State.set, update_self] using hmatches
    · simpa only [Engine.set, Isolation.State.set, update_of_ne ht] using h.sessions t'

theorem onTxn (h : Simulates e s cmds) (hc : c.txn? = some t) {f : Txn → Engine × Reply}
    (hf : ∀ y x, e.txns t = some y → s.sessions t = some x → y.state = .active →
      x.phase = .active → Tracks t y x → y.startSeq ≤ cmds.length → Sees e.manager.fsm.store y x →
      ∃ s' cmds', SpecStep s c (f y).2 s' ∧ Simulates (f y).1 s' cmds' ∧ Grows c cmds cmds') :
    ∃ s' cmds', SpecStep s c (e.onTxn t f).2 s' ∧ Simulates (e.onTxn t f).1 s' cmds' ∧
      Grows c cmds cmds' := by
  rw [Engine.onTxn]
  cases ht : e.txns t with
  | none => exact ⟨s, cmds, .noSuchTxn hc (h.none_of_none ht), h, .inl rfl⟩
  | some y =>
    obtain ⟨x, hx, htracks, hle, hsees⟩ := h.matches_of_some ht
    by_cases hactive : y.state = .active
    · simp only [if_pos hactive]
      exact hf y x ht hx hactive (by rw [htracks.phase, hactive]; rfl) htracks hle
        (hsees hactive)
    · simp only [if_neg hactive]
      exact ⟨s, cmds, .terminal hc hx htracks.phase hactive, h, .inl rfl⟩

theorem start (h : Simulates e s cmds) :
    ∃ s', SpecStep s .start e.start.2 s' ∧ Simulates e.start.1 s' cmds := by
  set t := e.manager.nextTxnID + 1 with ht
  have hnone : e.txns t = none := h.unborn t (Nat.lt_succ_self _)
  refine ⟨s.start t, .start _ (h.none_of_none hnone), ?_⟩
  refine ⟨h.logged, h.replays, h.lastSeq, h.below, h.watermark, h.db, h.known,
    fun t' ht' => ?_, fun t' => ?_⟩
  · have hne : t' ≠ t := by
      rintro rfl
      exact lt_irrefl _ ht'
    simp only [Engine.start, Engine.set, ← ht, update_of_ne hne]
    exact h.unborn t' (Nat.lt_of_succ_lt ht')
  · by_cases htt : t' = t
    · subst htt
      simp only [Engine.start, Engine.set, ← ht, Isolation.State.start, Isolation.State.set,
        update_self]
      refine ⟨⟨rfl, rfl, fun k => rfl, fun k m hm => by simp at hm, .nil, fun k => by simp⟩,
        h.lastSeq.le, fun _ => ⟨fun k => ?_, fun k => ?_⟩⟩
      · change s.db k = visibleIn _ e.manager.lastSeq
        rw [h.db, h.lastSeq, h.below.visibleIn_eq]
      · rw [h.lastSeq]
        exact iff_of_false (Set.notMem_empty k) (h.below.not_changedSince k)
    · simpa only [Engine.start, Engine.set, ← ht, Isolation.State.start, Isolation.State.set,
        update_of_ne htt] using h.sessions t'

theorem read (h : Simulates e s cmds) (t : Nat) (k : Bytes) :
    ∃ s' cmds', SpecStep s (.read t k) (e.read t k).2 s' ∧ Simulates (e.read t k).1 s' cmds' ∧
      Grows (Call.read t k) cmds cmds' := by
  refine h.onTxn rfl fun y x hy hx hstate hphase htracks hle hsees => ?_
  have hstep := SpecStep.read hx hphase k
  rw [Session.read, Isolation.overlay, htracks.writes, hsees.snapshot] at hstep
  cases hget : y.writes.get k with
  | none =>
    simp only [hget] at hstep
    refine ⟨s, cmds, ?_, h, .inl rfl⟩
    rw [Store.visible, if_neg (by rw [h.watermark.2]; exact Nat.not_lt_zero _)]
    exact hstep
  | some m =>
    simp only [hget] at hstep
    exact ⟨s, cmds, hstep, h, .inl rfl⟩

theorem write (h : Simulates e s cmds) (t : Nat) (k : Bytes) (v : Option Bytes)
    (hc : c.txn? = some t) (hstep : ∀ x, s.sessions t = some x → x.phase = .active →
      SpecStep s c .done (s.set t (x.write k v))) :
    ∃ s' cmds', SpecStep s c (e.write t k v).2 s' ∧ Simulates (e.write t k v).1 s' cmds' ∧
      Grows c cmds cmds' := by
  refine h.onTxn hc fun y x hy hx hstate hphase htracks hle hsees => ?_
  refine ⟨_, cmds, hstep x hx hphase, h.set (by simp [hy]) ⟨htracks.recordWrite k v, hle, ?_⟩,
    .inl rfl⟩
  exact fun _ => ⟨hsees.snapshot, hsees.overwritten⟩

theorem abort (h : Simulates e s cmds) (t : Nat) :
    ∃ s' cmds', SpecStep s (.abort t) (e.abort t).2 s' ∧ Simulates (e.abort t).1 s' cmds' ∧
      Grows (Call.abort t) cmds cmds' := by
  refine h.onTxn rfl fun y x hy hx hstate hphase htracks hle hsees => ?_
  exact ⟨_, cmds, .abort hx hphase,
    h.set (by simp [hy]) ⟨htracks.close .aborted, hle, fun hactive => by cases hactive⟩,
    .inl rfl⟩

theorem reopen (h : Simulates e s cmds) (nodeID : Bytes) :
    SpecStep s (.reopen nodeID) (e.reopen nodeID).2 s.restart ∧
      Simulates (e.reopen nodeID).1 s.restart cmds ∧
      (e.reopen nodeID).1.manager = { e.manager with nextTxnID := 0 } := by
  rw [Engine.reopen, h.logged.openManager h.replays]
  refine ⟨.reopen nodeID, ⟨h.logged, h.replays, rfl, h.below, h.watermark, h.db, h.known,
    fun _ _ => rfl, fun _ => trivial⟩, ?_⟩
  rw [← h.lastSeq]

/-! ## Commits -/

theorem unknown (h : Simulates e s cmds) {id : RequestID}
    (hnew : ∀ cmd ∈ cmds, cmd.requestID ≠ id) : e.manager.fsm.outcomes.get id = none := by
  rw [Option.eq_none_iff_forall_ne_some]
  intro entry hget
  obtain ⟨cmd, hcmd, hid⟩ := h.known id entry hget
  exact hnew cmd hcmd hid

theorem commit_eq (h : Simulates e s cmds) (hne : cmd.mutations ≠ [])
    (hnew : ∀ c ∈ cmds, c.requestID ≠ cmd.requestID) (hlog : Loggable cmd)
    (hlen : cmds.length + 1 < 2 ^ 64)
    (hdecision : e.manager.fsm.decision (cmds.length + 1) cmd = .ok (store, outcome)) :
    ∃ w, Logged w (cmds ++ [cmd]) ∧
      Replays (cmds ++ [cmd]) (e.manager.fsm.record cmd store outcome) ∧
      e.manager.commit cmd none =
        (⟨w, e.manager.fsm.record cmd store outcome, cmds.length + 1, e.manager.nextTxnID⟩,
          conclude cmd.startSeq outcome) := by
  obtain ⟨ops, w, happend, hlogged⟩ := h.logged.append hlog hlen
  have hget := h.unknown hnew
  have happly : e.manager.fsm.apply (cmds.length + 1) cmd =
      .ok (e.manager.fsm.record cmd store outcome, outcome) := by
    rw [apply_of_unknown _ hget, hdecision]
    rfl
  refine ⟨w.sync.2, hlogged.sync, h.replays.concat hlog.fits happly, ?_⟩
  rw [Manager.commit, if_neg hne, precheck, hget]
  simp only [Manager.submit, happend, happly]
  rfl

/-- After a commit that was logged, without the transaction itself. -/
theorem logCommit (h : Simulates e s cmds) (hlogged : Logged w (cmds ++ [cmd]))
    (hreplays : Replays (cmds ++ [cmd]) (e.manager.fsm.record cmd store outcome))
    (hbelow : store.Below (cmds.length + 1 + 1)) (hmark : store.gcWatermark = 0)
    {s' : Spec} (hdb : ∀ k, s'.db k = (store.chain k).getLast?.bind (·.value))
    (hy : e.txns t = some y)
    (hsessions : ∀ t' y' x', t' ≠ t → e.txns t' = some y' → s.sessions t' = some x' →
      Matches e.manager.fsm.store cmds.length t' y' x' →
      ∃ x'', s'.sessions t' = some x'' ∧ Matches store (cmds.length + 1) t' y' x'')
    (hnone : ∀ t', s.sessions t' = none → s'.sessions t' = none) {x' : Session Bytes Bytes}
    {state : TxnState} (hx' : s'.sessions t = some x') (htracks : Tracks t (y.close state) x')
    (hover : state ≠ .active) (hle : y.startSeq ≤ cmds.length) :
    Simulates (Engine.set
      { e with manager := ⟨w, e.manager.fsm.record cmd store outcome, cmds.length + 1,
          e.manager.nextTxnID⟩ } t (y.close state)) s' (cmds ++ [cmd]) where
  logged := hlogged
  replays := hreplays
  lastSeq := by simp [Engine.set]
  below := by simpa [Engine.set, record] using hbelow
  watermark := ⟨h.watermark.1, hmark⟩
  db := hdb
  known id entry hget := by
    simp only [Engine.set, record, get_insert] at hget
    split at hget
    case isTrue hid => exact ⟨cmd, by simp, hid.symm⟩
    case isFalse =>
      obtain ⟨c, hc, hid⟩ := h.known id entry hget
      exact ⟨c, mem_append_left _ hc, hid⟩
  unborn t' ht' := by
    have hne : t' ≠ t := by
      rintro rfl
      rw [h.unborn t' ht'] at hy
      cases hy
    simpa only [Engine.set, update_of_ne hne] using h.unborn t' ht'
  sessions t' := by
    rw [length_append, length_singleton]
    by_cases ht : t' = t
    · subst ht
      simp only [Engine.set, update_self, hx']
      exact ⟨htracks, Nat.le_succ_of_le hle, fun hactive => absurd hactive hover⟩
    · simp only [Engine.set, update_of_ne ht]
      cases hy' : e.txns t' with
      | none => simp [hnone t' (h.none_of_none hy')]
      | some y' =>
        obtain ⟨x₀, hx₀, hmatches⟩ := h.matches_of_some hy'
        obtain ⟨x'', hx'', hmatches'⟩ := hsessions t' y' x₀ ht hy' hx₀ hmatches
        simp only [hx'']
        exact hmatches'

theorem commit_free (h : Simulates e s cmds)
    (hy : e.txns t = some y) (htracks : Tracks t y x) (hle : y.startSeq ≤ cmds.length)
    (hlogged : Logged w (cmds ++ [cmd])) (hcmd : cmd.mutations = y.localWrites)
    (hreplays : Replays (cmds ++ [cmd]) (e.manager.fsm.record cmd
      (cmd.mutations.foldl (Store.push (cmds.length + 1)) e.manager.fsm.store) outcome)) :
    Simulates (Engine.set
      { e with manager := ⟨w, e.manager.fsm.record cmd
          (cmd.mutations.foldl (Store.push (cmds.length + 1)) e.manager.fsm.store) outcome,
          cmds.length + 1, e.manager.nextTxnID⟩ } t (y.close .committed)) (s.commit t x)
      (cmds ++ [cmd]) := by
  have hlists := htracks.localWrites
  rw [← hcmd] at hlists
  refine h.logCommit hlogged hreplays (h.below.foldl_push _) (by simpa using h.watermark.2)
    (fun k => ?_) hy (fun t' y' x' ht hy' hx' hmatches => ?_) (fun t' hx' => ?_) ?_
    (htracks.close .committed) (by simp) hle
  · rw [getLast?_commit hlists]
    simp only [Isolation.State.commit, Isolation.overlay, h.db]
  · refine ⟨x'.overwrite x.writeSet, ?_, hmatches.tracks.overwrite _,
      Nat.le_succ_of_le hmatches.startSeq_le, fun hactive => ?_⟩
    · simp [Isolation.State.commit, ht, hx']
    · rw [hlists.writeSet_eq]
      exact (hmatches.sees hactive).commit (Nat.lt_succ_of_le hmatches.startSeq_le) _
  · have hne : t' ≠ t := by
      rintro rfl
      obtain ⟨x₀, hx₀, -⟩ := h.matches_of_some hy
      rw [hx'] at hx₀
      cases hx₀
    simp [Isolation.State.commit, hne, hx']
  · simp [Isolation.State.commit, TxnState.phase]

theorem commit_conflict (h : Simulates e s cmds)
    (hy : e.txns t = some y) (htracks : Tracks t y x) (hle : y.startSeq ≤ cmds.length)
    (hlogged : Logged w (cmds ++ [cmd]))
    (hreplays : Replays (cmds ++ [cmd]) (e.manager.fsm.record cmd e.manager.fsm.store outcome)) :
    Simulates (Engine.set
      { e with manager := ⟨w, e.manager.fsm.record cmd e.manager.fsm.store outcome,
          cmds.length + 1, e.manager.nextTxnID⟩ } t (y.close .aborted)) (s.abort t x)
      (cmds ++ [cmd]) := by
  refine h.logCommit hlogged hreplays (h.below.mono (Nat.le_succ _)) h.watermark.2
    (show ∀ k, (s.abort t x).db k = _ from h.db) hy
    (fun t' y' x' ht hy' hx' hmatches => ?_) (fun t' hx' => ?_) ?_ (htracks.close .aborted)
    (by simp) hle
  · exact ⟨x', by simp [Isolation.State.abort, Isolation.State.set, ht, hx'], hmatches.tracks,
      Nat.le_succ_of_le hmatches.startSeq_le, hmatches.sees⟩
  · have hne : t' ≠ t := by
      rintro rfl
      obtain ⟨x₀, hx₀, -⟩ := h.matches_of_some hy
      rw [hx'] at hx₀
      cases hx₀
    simp [Isolation.State.abort, Isolation.State.set, hne, hx']
  · simp [Isolation.State.abort, Isolation.State.set, TxnState.phase]

theorem commit_empty (h : Simulates e s cmds)
    (hy : e.txns t = some y) (htracks : Tracks t y x) (hle : y.startSeq ≤ cmds.length)
    (hnil : y.localWrites = []) :
    Simulates (e.set t (y.close .committed)) (s.commit t x) cmds := by
  have hwrites := htracks.localWrites.eq_nil_iff hnil
  have hset : x.writeSet = ∅ := by simp [Session.writeSet, hwrites]
  have hbase := h.set (x := x.finish .committed) (by simp [hy])
    ⟨htracks.close .committed, hle, fun hactive => by cases hactive⟩
  have hsame : s.commit t x = s.set t (x.finish .committed) := by
    have hid : Session.overwrite (∅ : Set Bytes) = (id : Session Bytes Bytes → _) := by
      funext x'
      simp [Session.overwrite]
    simp only [Isolation.State.commit, Isolation.State.set, hset, hid, Option.map_id, id_eq]
    congr 1
    funext k
    simp [Isolation.overlay, hwrites]
  rw [hsame]
  exact hbase

theorem commit (h : Simulates e s cmds) (t : Nat) (id : RequestID)
    (hnew : ∀ cmd ∈ cmds, cmd.requestID ≠ id) (hlen : cmds.length + 1 < 2 ^ 64)
    (hids : e.manager.nextTxnID < 2 ^ 64) :
    ∃ s' cmds', SpecStep s (.commit t id none) (e.commit t id none).2 s' ∧
      Simulates (e.commit t id none).1 s' cmds' ∧
      Grows (Call.commit t id none) cmds cmds' := by
  refine h.onTxn rfl fun y x hy hx hstate hphase htracks hle hsees => ?_
  set cmd : CommitTxnCommand := ⟨id, y.id, y.startSeq, y.localWrites⟩ with hcmd
  dsimp only
  have hlists := htracks.localWrites
  have hsize : (encodeCommitTxn cmd).length = commandSize id y.localWrites :=
    length_encodeCommitTxn_eq cmd
  have hgrows : Grows (.commit t id none) cmds (cmds ++ [cmd]) := .inr ⟨cmd, rfl, rfl⟩
  by_cases hnil : y.localWrites = []
  · have hcommit : e.manager.commit cmd none =
        (e.manager, .ok (.committed id e.manager.lastSeq)) := by
      rw [Manager.commit, if_pos hnil]
    rw [hcommit]
    refine ⟨s.commit t x, cmds, ?_, h.commit_empty hy htracks hle hnil, .inl rfl⟩
    refine .commit hx hphase hlists (fun hne => absurd hnil hne) ?_ _
    rw [conflicts_iff htracks hsees, hnil, not_not]
    rfl
  · by_cases hfit : commandSize id y.localWrites ≤ Wal.maxRecordPayloadSize
    · have ht : t ≤ e.manager.nextTxnID := by
        by_contra hlt
        rw [h.unborn t (Nat.not_le.mp hlt)] at hy
        cases hy
      have hlog : Loggable cmd :=
        ⟨by rw [hcmd]; simp only [htracks.id_eq]; omega, by rw [hcmd]; simp only; omega,
          by rw [hsize]; exact hfit⟩
      have hmark : e.manager.fsm.gcWatermark ≤ cmd.startSeq := h.watermark.1 ▸ Nat.zero_le _
      cases hconflict : e.manager.fsm.store.checkConflicts y.startSeq y.localWrites with
      | none =>
        obtain ⟨w, hlogged, hreplays, heq⟩ :=
          h.commit_eq hnil hnew hlog hlen (decision_free hmark h.below hconflict)
        rw [heq]
        refine ⟨s.commit t x, cmds ++ [cmd], ?_,
          h.commit_free hy htracks hle hlogged rfl hreplays, hgrows⟩
        refine .commit hx hphase hlists (fun _ => hfit) ?_ _
        rw [conflicts_iff htracks hsees, hconflict]
        exact not_not.mpr rfl
      | some conflict =>
        obtain ⟨key, latest⟩ := conflict
        obtain ⟨w, hlogged, hreplays, heq⟩ :=
          h.commit_eq hnil hnew hlog hlen (decision_conflict _ hmark hconflict)
        rw [heq]
        refine ⟨s.abort t x, cmds ++ [cmd], ?_,
          h.commit_conflict hy htracks hle hlogged hreplays, hgrows⟩
        refine .conflict hx hphase hlists hfit ?_ key latest y.startSeq
        rw [conflicts_iff htracks hsees, hconflict]
        simp
    · have hlarge := Nat.not_le.mp hfit
      have hcommit : e.manager.commit cmd none =
          (e.manager, .error (.append (some (.recordTooLarge (commandSize id y.localWrites))))) := by
        rw [Manager.commit, if_neg hnil, precheck, h.unknown hnew]
        simp only [Manager.submit]
        rw [Logged.append_tooLarge _ (hsize ▸ hlarge), hsize]
        rfl
      rw [hcommit]
      exact ⟨s.abort t x, cmds, .tooLarge hx hphase hlists hlarge hnil,
        h.set (by simp [hy]) ⟨htracks.close .aborted, hle, fun hactive => by cases hactive⟩,
        .inl rfl⟩

theorem call (h : Simulates e s cmds) (hfault : c.fault? = none)
    (hnew : ∀ id ∈ c.requestID?, ∀ cmd ∈ cmds, cmd.requestID ≠ id)
    (hlen : cmds.length + 1 < 2 ^ 64) (hids : e.manager.nextTxnID < 2 ^ 64) :
    ∃ s' cmds', SpecStep s c (e.call c).2 s' ∧ Simulates (e.call c).1 s' cmds' ∧
      Grows c cmds cmds' := by
  cases c with
  | start =>
    obtain ⟨s', hstep, h'⟩ := h.start
    exact ⟨s', cmds, hstep, h', .inl rfl⟩
  | read t k => exact h.read t k
  | write t k v => exact h.write t k (some v) rfl fun x hx hphase => .write hx hphase k v
  | delete t k => exact h.write t k none rfl fun x hx hphase => .delete hx hphase k
  | commit t id fault =>
    obtain rfl : fault = none := hfault
    exact h.commit t id (hnew id rfl) hlen hids
  | abort t => exact h.abort t
  | reopen nodeID =>
    obtain ⟨hstep, h', -⟩ := h.reopen nodeID
    exact ⟨s.restart, cmds, hstep, h', .inl rfl⟩

end Simulates

theorem Manager.commit_nextTxnID (m : Manager) (cmd : CommitTxnCommand) (fault : Option Fault) :
    (m.commit cmd fault).1.nextTxnID = m.nextTxnID := by
  rw [Manager.commit]
  split
  · rfl
  · split
    · rfl
    · rw [Manager.submit]
      split
      · rfl
      · split
        · rfl
        · split
          · rfl
          · split <;> rfl
    · rfl

theorem Engine.onTxn_nextTxnID (e : Engine) (t : Nat) {f : Txn → Engine × Reply}
    (hf : ∀ y, (f y).1.manager.nextTxnID = e.manager.nextTxnID) :
    (e.onTxn t f).1.manager.nextTxnID = e.manager.nextTxnID := by
  rw [onTxn]
  split
  · rfl
  · split
    · exact hf _
    · rfl

theorem Engine.commit_nextTxnID (e : Engine) (t : Nat) (id : RequestID) (fault : Option Fault) :
    (e.commit t id fault).1.manager.nextTxnID = e.manager.nextTxnID := by
  refine e.onTxn_nextTxnID t fun y => ?_
  have := e.manager.commit_nextTxnID ⟨id, y.id, y.startSeq, y.localWrites⟩ fault
  dsimp only
  split <;> rename_i heq <;> rw [heq] at this <;> exact this

theorem Engine.call_nextTxnID (e : Engine) (c : Call) :
    (e.call c).1.manager.nextTxnID ≤ e.manager.nextTxnID + 1 := by
  cases c with
  | start => exact Nat.le_refl _
  | read t k =>
    refine Nat.le_succ_of_le (e.onTxn_nextTxnID t fun y => ?_).le
    split <;> rfl
  | write t k v => exact Nat.le_succ_of_le (e.onTxn_nextTxnID t fun y => rfl).le
  | delete t k => exact Nat.le_succ_of_le (e.onTxn_nextTxnID t fun y => rfl).le
  | commit t id fault => exact Nat.le_succ_of_le (e.commit_nextTxnID t id fault).le
  | abort t => exact Nat.le_succ_of_le (e.onTxn_nextTxnID t fun y => rfl).le
  | reopen nodeID =>
    rw [call, reopen]
    split
    · exact Nat.le_succ _
    · rename_i m hopen
      rw [openManager] at hopen
      split at hopen
      · cases hopen
      · rw [newManager] at hopen
        split at hopen
        · cases hopen
        · split at hopen
          · cases hopen
          · cases hopen
            exact Nat.zero_le _

theorem Simulates.run {e : Engine} {s : Spec} {cmds : List CommitTxnCommand}
    (h : Simulates e s cmds) {calls : List Call} (hfault : ∀ c ∈ calls, c.fault? = none)
    (hids : (cmds.map (·.requestID) ++ calls.filterMap Call.requestID?).Nodup)
    (hlen : cmds.length + calls.length < 2 ^ 64 - 1)
    (htxns : e.manager.nextTxnID + calls.length < 2 ^ 64) :
    ∃ s' cmds', SpecRun s (e.run calls).2 s' ∧ Simulates (e.run calls).1 s' cmds' := by
  induction calls generalizing e s cmds with
  | nil => exact ⟨s, cmds, .nil s, h⟩
  | cons c calls ih =>
    rw [length_cons] at hlen htxns
    have hnew : ∀ id ∈ c.requestID?, ∀ cmd ∈ cmds, cmd.requestID ≠ id := by
      rintro id hid cmd hcmd rfl
      rw [filterMap_cons_some hid] at hids
      exact (nodup_append.mp hids).2.2 _ (mem_map_of_mem hcmd) _ mem_cons_self rfl
    obtain ⟨s₁, cmds₁, hstep, h₁, hgrows⟩ :=
      h.call (hfault c mem_cons_self) hnew (by omega) (by omega)
    have htxns₁ := e.call_nextTxnID c
    have hrest : (cmds₁.map (·.requestID) ++ calls.filterMap Call.requestID?).Nodup ∧
        cmds₁.length ≤ cmds.length + 1 := by
      obtain rfl | ⟨cmd, rfl, hid⟩ := hgrows
      · refine ⟨hids.sublist (List.Sublist.append_left ?_ _), Nat.le_succ _⟩
        exact (sublist_cons_self c calls).filterMap _
      · rw [filterMap_cons_some hid] at hids
        exact ⟨by simpa using hids, by simp⟩
    obtain ⟨s', cmds', hrun, h'⟩ := ih h₁ (fun c hc => hfault c (mem_cons_of_mem _ hc))
      hrest.1 (by omega) (by omega)
    exact ⟨s', cmds', .cons hstep hrun, h'⟩

def Engine.fresh (maxSize : Nat) (nodeID : Bytes) : Except RecoverError Engine :=
  (openManager [] maxSize nodeID).map fun m => ⟨m, fun _ => none⟩

theorem fresh_eq {maxSize : Nat} {nodeID : Bytes} {report : Wal.RecoveryReport}
    (hid : nodeID.length < 2 ^ 16) (hopen : Wal.openWAL [] maxSize nodeID = .ok (w, report)) :
    fresh maxSize nodeID = .ok ⟨⟨w, .new .new, 0, 0⟩, fun _ => none⟩ := by
  have hreplay := (logged_fresh hid hopen).replay_eq
  simp only [fresh, openManager, hopen, newManager, hreplay]
  rfl

theorem simulates_fresh {maxSize : Nat} {nodeID : Bytes} {e : Engine}
    (hid : nodeID.length < 2 ^ 16) (hfresh : fresh maxSize nodeID = .ok e) :
    Simulates e .initial [] ∧ e.manager.nextTxnID = 0 := by
  cases hopen : Wal.openWAL [] maxSize nodeID with
  | error err => simp [fresh, openManager, hopen, Except.map] at hfresh
  | ok q =>
    rw [fresh_eq hid hopen] at hfresh
    obtain rfl := Except.ok.inj hfresh
    exact ⟨⟨logged_fresh hid hopen, replays_nil, rfl, Store.below_new _, ⟨rfl, rfl⟩, fun k => rfl,
      fun id entry hget => by simp [new] at hget, fun _ _ => rfl, fun _ => trivial⟩, rfl⟩

/-- Snapshot isolation: every run without I/O failures gives replies that the specification
allows, and a restart after it finds the same state machine and the same last sequence. -/
theorem snapshot_isolation {maxSize : Nat} {nodeID : Bytes} {e : Engine}
    (hid : nodeID.length < 2 ^ 16) (hfresh : Engine.fresh maxSize nodeID = .ok e)
    {calls : List Call} (hfault : ∀ c ∈ calls, c.fault? = none)
    (hids : (calls.filterMap Call.requestID?).Nodup) (hlen : calls.length < 2 ^ 64 - 1) :
    (∃ s, SpecRun .initial (e.run calls).2 s) ∧
      ∀ nodeID', ∃ e', (e.run calls).1.reopen nodeID' = (e', .opened) ∧
        e'.manager.fsm = (e.run calls).1.manager.fsm ∧
        e'.manager.lastSeq = (e.run calls).1.manager.lastSeq := by
  obtain ⟨h, hzero⟩ := simulates_fresh hid hfresh
  obtain ⟨s, cmds, hrun, h'⟩ := h.run hfault (by simpa using hids) (by simpa using hlen) (by omega)
  refine ⟨⟨s, hrun⟩, fun nodeID' => ?_⟩
  obtain ⟨-, -, hmanager⟩ := h'.reopen nodeID'
  refine ⟨_, ?_, by rw [hmanager], by rw [hmanager]⟩
  rw [Engine.reopen, h'.logged.openManager h'.replays]

/-- Two transactions write one key; the first to commit wins, and a third, begun in between,
reads what was there before it. -/
def racingCommits : List Call :=
  [.start, .start, .write 1 [7] [1], .write 2 [7] [2], .delete 2 [8], .commit 1 [101] none,
    .start, .commit 2 [102] none, .read 3 [7], .reopen [], .start, .read 1 [7]]

theorem racingCommits_isolated : ∃ e, Engine.fresh 0 (List.replicate 32 97) = .ok e ∧
    (∃ s, SpecRun .initial (e.run racingCommits).2 s) ∧
      ∀ nodeID', ∃ e', (e.run racingCommits).1.reopen nodeID' = (e', .opened) ∧
        e'.manager.fsm = (e.run racingCommits).1.manager.fsm ∧
        e'.manager.lastSeq = (e.run racingCommits).1.manager.lastSeq := by
  have hid : (List.replicate 32 97 : Bytes).length < 2 ^ 16 := by decide
  have hfresh := @fresh_eq _ 0 (List.replicate 32 97) _ hid rfl
  refine ⟨_, hfresh, snapshot_isolation hid hfresh ?_ ?_ ?_⟩
  all_goals decide

def largeCommit (v : Bytes) : List Call := [.start, .write 1 [7] v, .commit 1 [1] none]

theorem commandSize_large {v : Bytes} (hv : Wal.maxRecordPayloadSize ≤ v.length) :
    Wal.maxRecordPayloadSize < commandSize [1] [⟨[7], some v⟩] := by
  rw [commandSize, length_encodeCommitTxn]
  simp [putMutation, putValue, length_putString]
  omega

theorem run_largeCommit (w : Wal.WAL) {v : Bytes} (hv : Wal.maxRecordPayloadSize ≤ v.length) :
    ((Engine.run ⟨⟨w, .new .new, 0, 0⟩, fun _ => none⟩ (largeCommit v)).2.map Prod.snd) =
      [.started 1 0, .done, .failed (.append (some
        (.recordTooLarge (commandSize [1] [⟨[7], some v⟩]))))] := by
  have hsize := commandSize_large hv
  rw [← length_encodeCommitTxn_eq ⟨[1], 1, 0, [⟨[7], some v⟩]⟩] at hsize ⊢
  have happend := Logged.append_tooLarge w hsize
  simp [largeCommit, Engine.run, Engine.call, Engine.start, Engine.write, Engine.commit,
    Engine.onTxn, Engine.set, Txn.recordWriteLocked, Txn.localWrites, Manager.commit,
    Manager.submit, precheck, new, happend]

/-- A value of 64 MiB is refused, though no other transaction exists. -/
theorem largeCommit_refused : ∃ e, Engine.fresh 0 (List.replicate 32 97) = .ok e ∧
    ∃ n, (e.run (largeCommit (List.replicate (2 ^ 26) 0))).2.map Prod.snd =
      [.started 1 0, .done, .failed (.append (some (.recordTooLarge n)))] := by
  have hid : (List.replicate 32 97 : Bytes).length < 2 ^ 16 := by decide
  refine ⟨_, @fresh_eq _ 0 (List.replicate 32 97) _ hid rfl, _, run_largeCommit _ ?_⟩
  rw [List.length_replicate]
  decide

end ChronicleDB.Transactions
