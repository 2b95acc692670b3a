import ChronicleDB.Node.Apply
import ChronicleDB.Sql.Owners
import ChronicleDB.Transactions.Isolation

/-!
# The two engines

`engine.go` of `internal/sql`: the adapters to the transaction manager and to a
node.  The replies of a node depend on the cluster: a read gets a boundary that
the node has applied, and a proposal waits until an entry with its RequestID is
applied or the node gives up on it.
-/

namespace ChronicleDB.Sql

open Foundation Fsm Option Function
open Mvcc (Mutation)
open Node (Applier)
open Raft (Entry)
open Transactions (Engine Fault Txn CommitError)

/-! ## Scans -/

def mergeWrite (stem : Bytes) (present : SortedMap Bytes Bytes) (m : Mutation) :
    SortedMap Bytes Bytes :=
  if stem.isPrefixOf m.key then
    match m.value with
    | none => present.erase m.key
    | some v => present.insert m.key v
  else present

def mergeLocalWrites (stem : Bytes) (committed : List (Bytes × Bytes)) (writes : List Mutation) :
    List (Bytes × Bytes) :=
  (writes.foldl (mergeWrite stem) (SortedMap.empty.insertAll committed)).entries

def requestOutcome (o : Outcome) : RequestOutcome := ⟨o.status = .committed, o.commitSeq⟩

/-! ## Write sets -/

def Ordered (y : Txn) : Prop := ∀ k, (y.writes.get k).isSome → k ∈ y.order

theorem ordered_empty {id startSeq : Nat} {state : Transactions.TxnState} :
    Ordered ⟨id, startSeq, state, .empty, []⟩ := by
  intro k hk
  cases hk

theorem Ordered.recordWrite {y : Txn} (h : Ordered y) (key : Bytes) (value : Option Bytes) :
    Ordered (y.recordWriteLocked key value) := by
  intro k hk
  rw [Txn.recordWriteLocked, SortedMap.get_insert] at hk
  rw [Txn.recordWriteLocked]
  dsimp only
  by_cases hkey : k = key
  · subst hkey
    split
    · exact h k ‹_›
    · simp
  · rw [if_neg hkey] at hk
    split
    · exact h k hk
    · exact List.mem_append_left _ (h k hk)

theorem Ordered.localWrites_recordWrite {y : Txn} (h : Ordered y) (key : Bytes)
    (value : Option Bytes) : (y.recordWriteLocked key value).localWrites ≠ [] := by
  rw [Txn.localWrites, Txn.recordWriteLocked]
  dsimp only
  split
  · have hmem := h key ‹_›
    intro hnil
    rw [List.map_eq_nil_iff.mp hnil] at hmem
    cases hmem
  · simp

theorem localWrites_recordWrite {y : Txn} (h : y.localWrites ≠ []) (key : Bytes)
    (value : Option Bytes) : (y.recordWriteLocked key value).localWrites ≠ [] := by
  rw [Txn.localWrites, Ne, List.map_eq_nil_iff] at h ⊢
  rw [Txn.recordWriteLocked]
  dsimp only
  split <;> simp [h]

/-! ## The standalone engine -/

/-- The manager with its transactions, and the commands that it has applied. -/
structure Standalone where
  engine : Engine
  applied : List (Nat × CommitTxnCommand)

namespace Standalone

def command (s : Standalone) : Op → Option CommitTxnCommand
  | .submit t id =>
    match s.engine.txns t with
    | none => none
    | some y =>
      if y.state = .active ∧ y.localWrites ≠ [] then
        some ⟨id, y.id, y.startSeq, y.localWrites⟩
      else none
  | _ => none

def scan (s : Standalone) (t : Nat) (stem : Bytes) :
    Except EngineError (List (Bytes × Bytes)) :=
  match s.engine.txns t with
  | none => .error .terminal
  | some y =>
    match s.engine.manager.fsm.store.scanVisible stem y.startSeq with
    | .error e => .error (.store e)
    | .ok committed => .ok (mergeLocalWrites stem committed y.localWrites)

def readReply : Transactions.Reply → Except EngineError (Option Bytes)
  | .value (.ok v) => .ok v
  | .value (.error e) => .error (.store e)
  | _ => .error .terminal

def doneReply : Transactions.Reply → Except EngineError Unit
  | .done => .ok ()
  | _ => .error .terminal

/-- The end of `Commit`: the conflict of the manager becomes that of this package. -/
def commitReply : Transactions.Reply → Except EngineError Nat
  | .committed seq => .ok seq
  | .failed (.conflict key latest startSeq) => .error (.conflict key latest startSeq)
  | .failed e => .error (.commit e)
  | _ => .error .terminal

/-- The manager applies a command exactly when its last sequence moves. -/
def note (s : Standalone) (op : Op) (e : Engine) : Standalone :=
  ⟨e, if e.manager.lastSeq = s.engine.manager.lastSeq then s.applied
    else s.applied ++ ((s.command op).map fun cmd => (e.manager.lastSeq, cmd)).toList⟩

/-- One call; `fault` is the I/O failure that a commit meets. -/
def handle (fault : Option Fault) (s : Standalone) : (op : Op) → Standalone × op.Reply
  | .start => ({ s with engine := s.engine.start.1 }, .ok (s.engine.manager.nextTxnID + 1))
  | .lookup id => (s, (s.engine.manager.getRequestOutcome id).map requestOutcome)
  | .read t key => (s, readReply (s.engine.read t key).2)
  | .scan t stem => (s, s.scan t stem)
  | .write t key value =>
    let (e, r) := s.engine.write t key value
    ({ s with engine := e }, doneReply r)
  | .submit t id =>
    let (e, r) := s.engine.commit t id fault
    (s.note (.submit t id) e, some (commitReply r))
  | .await _ _ => (s, .error .terminal)
  | .abort t =>
    let (e, r) := s.engine.abort t
    ({ s with engine := e }, doneReply r)

def model : Model Standalone where
  step s op reply s' := ∃ fault, s.handle fault op = (s', reply)
  command := command
  environment _ _ _ := False

def player : World.Player model Empty where
  handle s op := some (s.handle none op)
  handle_step h := ⟨none, Option.some.inj h⟩
  act _ _ a := a.elim
  act_environment {_ _ a _} _ := a.elim

/-! ### Transactions of the manager -/

/-- What a call does to the transactions: one is begun, or the one that it is on is changed. -/
inductive Touches (s : Standalone) : Op → Standalone → Prop
  | start {startSeq : Nat} {s' : Standalone}
      (htxns : s'.engine.txns = Function.update s.engine.txns (s.engine.manager.nextTxnID + 1)
        (some ⟨s.engine.manager.nextTxnID + 1, startSeq, .active, .empty, []⟩))
      (hnext : s'.engine.manager.nextTxnID = s.engine.manager.nextTxnID + 1) : Touches s .start s'
  | keep {op : Op} {s' : Standalone} (htxns : s'.engine.txns = s.engine.txns)
      (hnext : s'.engine.manager.nextTxnID = s.engine.manager.nextTxnID)
      (hwrite : ∀ t key value, op = .write t key value → ∀ y, s.engine.txns t = some y →
        y.state ≠ .active) : Touches s op s'
  | write {t : Nat} {y : Txn} {key : Bytes} {value : Option Bytes} {s' : Standalone}
      (hy : s.engine.txns t = some y) (hactive : y.state = .active)
      (htxns : s'.engine.txns =
        Function.update s.engine.txns t (some (y.recordWriteLocked key value)))
      (hnext : s'.engine.manager.nextTxnID = s.engine.manager.nextTxnID) :
      Touches s (.write t key value) s'
  | close {op : Op} {t : Nat} {y : Txn} {state : Transactions.TxnState} {s' : Standalone}
      (hop : op.txn? = some t) (hends : op.Ends) (hy : s.engine.txns t = some y)
      (hclosed : state ≠ .active)
      (htxns : s'.engine.txns = Function.update s.engine.txns t (some (y.close state)))
      (hnext : s'.engine.manager.nextTxnID = s.engine.manager.nextTxnID) : Touches s op s'

theorem onTxn_cases (e : Engine) (t : Nat) (f : Txn → Engine × Transactions.Reply) :
    ((e.onTxn t f).1 = e ∧ (∀ y, e.txns t = some y → y.state ≠ .active)) ∨
      ∃ y, e.txns t = some y ∧ y.state = .active ∧ e.onTxn t f = f y := by
  rw [Engine.onTxn]
  cases ht : e.txns t with
  | none => exact .inl ⟨rfl, fun y hy => by cases hy⟩
  | some y =>
    by_cases hactive : y.state = .active
    · exact .inr ⟨y, rfl, hactive, by simp [hactive]⟩
    · refine .inl ⟨by simp [hactive], fun y' hy' => ?_⟩
      cases hy'
      exact hactive

theorem touches_handle (fault : Option Fault) (s : Standalone) (op : Op) :
    Touches s op (s.handle fault op).1 := by
  cases op with
  | start => exact .start rfl rfl
  | lookup id => exact .keep rfl rfl fun _ _ _ h => by cases h
  | read t key => exact .keep rfl rfl fun _ _ _ h => by cases h
  | scan t stem => exact .keep rfl rfl fun _ _ _ h => by cases h
  | await t id => exact .keep rfl rfl fun _ _ _ h => by cases h
  | write t key value =>
    have hengine : (s.handle fault (.write t key value)).1.engine =
        (s.engine.write t key value).1 := rfl
    rw [Engine.write] at hengine
    rcases onTxn_cases s.engine t fun y => (s.engine.set t (y.recordWriteLocked key value),
        .done) with ⟨hsame, hclosed⟩ | ⟨y, hy, hactive, heq⟩
    · rw [hsame] at hengine
      refine .keep (by rw [hengine]) (by rw [hengine]) fun t' key' value' hop => ?_
      cases hop
      exact hclosed
    · rw [heq] at hengine
      exact .write hy hactive (by rw [hengine]; rfl) (by rw [hengine]; rfl)
  | submit t id =>
    have hengine : (s.handle fault (.submit t id)).1.engine = (s.engine.commit t id fault).1 := rfl
    have hnext := s.engine.commit_nextTxnID t id fault
    rw [← hengine] at hnext
    rw [Engine.commit] at hengine
    rcases onTxn_cases s.engine t _ with ⟨hsame, hclosed⟩ | ⟨y, hy, hactive, heq⟩
    · rw [hsame] at hengine
      exact .keep (by rw [hengine]) (by rw [hengine]) fun _ _ _ h => by cases h
    · rw [heq] at hengine
      dsimp only at hengine
      split at hengine
      · exact .close rfl trivial hy (show Transactions.TxnState.aborted ≠ .active by decide)
          (by rw [hengine]; rfl) hnext
      · exact .close rfl trivial hy (show Transactions.TxnState.committed ≠ .active by decide)
          (by rw [hengine]; rfl) hnext
  | abort t =>
    have hengine : (s.handle fault (.abort t)).1.engine = (s.engine.abort t).1 := rfl
    rw [Engine.abort] at hengine
    rcases onTxn_cases s.engine t fun y => (s.engine.set t (y.close .aborted), .done) with
      ⟨hsame, hclosed⟩ | ⟨y, hy, hactive, heq⟩
    · rw [hsame] at hengine
      exact .keep (by rw [hengine]) (by rw [hengine]) fun _ _ _ h => by cases h
    · rw [heq] at hengine
      exact .close rfl trivial hy (show Transactions.TxnState.aborted ≠ .active by decide)
        (by rw [hengine]; rfl) (by rw [hengine]; rfl)

def Issued (s : Standalone) (t : Nat) : Prop :=
  t ≤ s.engine.manager.nextTxnID ∧ ∀ y, s.engine.txns t = some y → Ordered y

theorem Issued.update {s s' : Standalone} {t t' : Nat} {y : Txn} (h : s.Issued t)
    (hnext : s'.engine.manager.nextTxnID = s.engine.manager.nextTxnID)
    (htxns : s'.engine.txns = update s.engine.txns t' (some y))
    (hy : t' = t → Ordered y) : s'.Issued t := by
  refine ⟨hnext ▸ h.1, fun y' hy' => ?_⟩
  rw [htxns, update_apply] at hy'
  split at hy'
  · cases hy'
    exact hy (Eq.symm ‹_›)
  · exact h.2 y' hy'

theorem issues : Issues model Issued where
  start {s t s'} h := by
    obtain ⟨fault, h⟩ := h
    cases h
    refine ⟨fun hissued => absurd hissued.1 (by simp), le_rfl, fun y hy => ?_⟩
    simp only [Engine.start, Engine.set, update_self, some.injEq] at hy
    subst hy
    exact ordered_empty
  step {s op reply s' t} h hissued := by
    obtain ⟨fault, h⟩ := h
    have htouches := touches_handle fault s op
    rw [h] at htouches
    cases htouches with
    | start htxns hnext =>
      refine ⟨hnext ▸ Nat.le_succ_of_le hissued.1, fun y hy => ?_⟩
      rw [htxns, update_apply] at hy
      split at hy
      · cases hy
        exact ordered_empty
      · exact hissued.2 y hy
    | keep htxns hnext hwrite => exact ⟨hnext ▸ hissued.1, fun y hy => hissued.2 y (htxns ▸ hy)⟩
    | write hy hactive htxns hnext =>
      refine hissued.update hnext htxns ?_
      rintro rfl
      exact (hissued.2 _ hy).recordWrite _ _
    | close hop hends hy hclosed htxns hnext =>
      exact hissued.update hnext htxns fun _ => ordered_empty
  environment h := h.elim

theorem ready_iff {s : Standalone} {t : Nat} :
    model.Ready s t ↔ ∃ y, s.engine.txns t = some y ∧ y.state = .active ∧ y.localWrites ≠ [] := by
  constructor
  · intro h
    have h := h []
    simp only [model, command] at h
    split at h
    · cases h
    rename_i y hy
    split at h
    · exact ⟨y, hy, ‹_›⟩
    · cases h
  · rintro ⟨y, hy, hactive, hne⟩ id
    simp [model, command, hy, hactive, hne]

theorem buffers : Buffers model Issued where
  write {s t key value s'} h hissued := by
    obtain ⟨fault, h⟩ := h
    have htouches := touches_handle fault s (.write t key value)
    rw [h] at htouches
    cases htouches with
    | keep htxns hnext hwrite =>
      -- Then the reply would be an error.
      have hreply : doneReply (s.engine.write t key value).2 = .ok () := congrArg Prod.snd h
      rw [Engine.write, Engine.onTxn] at hreply
      split at hreply
      · cases hreply
      · rename_i y hy
        rw [if_neg (hwrite t key value rfl y hy)] at hreply
        cases hreply
    | @write _ y _ _ _ hy hactive htxns hnext =>
      refine ready_iff.mpr ⟨y.recordWriteLocked key value, ?_, hactive, ?_⟩
      · rw [htxns, update_self]
      · exact (hissued.2 y hy).localWrites_recordWrite key value
    | close hop hends => exact hends.elim
  step {s op reply s' t} h hissued hends hready := by
    obtain ⟨fault, h⟩ := h
    have htouches := touches_handle fault s op
    rw [h] at htouches
    obtain ⟨y, hy, hactive, hne⟩ := ready_iff.mp hready
    rw [ready_iff]
    cases htouches with
    | start htxns hnext =>
      refine ⟨y, ?_, hactive, hne⟩
      have hold : t ≠ s.engine.manager.nextTxnID + 1 := by
        have := hissued.1
        omega
      rw [htxns, update_of_ne hold]
      exact hy
    | keep htxns hnext hwrite => exact ⟨y, htxns ▸ hy, hactive, hne⟩
    | @write t' y' _ _ _ hy' hactive' htxns hnext =>
      rw [htxns, update_apply]
      split
      · rename_i heq
        subst heq
        obtain rfl : y' = y := some.inj (hy'.symm.trans hy)
        exact ⟨_, rfl, hactive, localWrites_recordWrite hne _ _⟩
      · exact ⟨y, hy, hactive, hne⟩
    | @close _ t' y' state _ hop hclose hy' hclosed htxns hnext =>
      have hother : t ≠ t' := by
        rintro rfl
        exact hends hop hclose
      exact ⟨y, by rw [htxns, update_of_ne hother, hy], hactive, hne⟩
  environment h := h.elim

end Standalone

/-! ## The replicated engine -/

/-- `txnIDFromRequestID`: FNV-1a in 64 bits. -/
def txnIDFromRequestID (id : RequestID) : Nat :=
  id.foldl (fun h c => (h ^^^ c.toNat) * 1099511628211 % 2 ^ 64) 14695981039346656037

def carried (e : Entry) : Option CommitTxnCommand :=
  match e.type with
  | .config => none
  | .normal => if isControlCommand e.data then none else (decodeCommitTxn e.data).toOption

/-- A node and the open transactions on it, which keep their writes as those of the manager
do. `waiting` has the proposal of a transaction and how many entries were applied before;
`results` has the entries applied since the node was opened, with what their waiters get. -/
structure Replicated where
  applier : Applier
  txns : Nat → Option Txn
  nextTxn : Nat
  waiting : Nat → Option (CommitTxnCommand × Nat)
  results : List (Entry × Option (RequestID × Outcome))

namespace Replicated

def command (s : Replicated) : Op → Option CommitTxnCommand
  | .submit t id =>
    match s.txns t with
    | none => none
    | some y =>
      if y.localWrites ≠ [] then
        some ⟨id, txnIDFromRequestID id, y.startSeq, y.localWrites⟩
      else none
  | _ => none

def setTxn (s : Replicated) (t : Nat) (y : Txn) : Replicated :=
  { s with txns := Function.update s.txns t (some y) }

theorem txns_setTxn (s : Replicated) (t : Nat) (y : Txn) (t' : Nat) :
    (s.setTxn t y).txns t' = if t' = t then some y else s.txns t' := by
  simp only [setTxn, update_apply]

/-- The end of `Commit`, with the outcome of `Propose`. -/
def conclude (startSeq : Nat) (o : Outcome) : Except EngineError Nat :=
  if o.status = .aborted then .error (.conflict o.conflictKey o.conflictLatestSeq startSeq)
  else .ok o.commitSeq

def readResult (s : Replicated) (y : Txn) (key : Bytes) : Except EngineError (Option Bytes) :=
  match y.writes.get key with
  | some m => .ok m.value
  | none =>
    match s.applier.fsm.store.visible key y.startSeq with
    | .error e => .error (.store e)
    | .ok v => .ok v

def scanResult (s : Replicated) (y : Txn) (stem : Bytes) :
    Except EngineError (List (Bytes × Bytes)) :=
  match s.applier.fsm.store.scanVisible stem y.startSeq with
  | .error e => .error (.store e)
  | .ok committed => .ok (mergeLocalWrites stem committed y.localWrites)

inductive Step (s : Replicated) : (op : Op) → op.Reply → Replicated → Prop
  | start (startSeq : Nat) (hseq : startSeq ≤ s.applier.appliedIndex) :
      Step s .start (.ok s.nextTxn)
        { s.setTxn s.nextTxn ⟨0, startSeq, .active, .empty, []⟩ with nextTxn := s.nextTxn + 1 }
  | startFailed (e : NodeError) : Step s .start (.error (.node e)) s
  | lookup (id : RequestID) :
      Step s (.lookup id) ((s.applier.fsm.getOutcome id).map requestOutcome) s
  | read {t : Nat} {y : Txn} (ht : s.txns t = some y) (key : Bytes) :
      Step s (.read t key) (s.readResult y key) s
  | scan {t : Nat} {y : Txn} (ht : s.txns t = some y) (stem : Bytes) :
      Step s (.scan t stem) (s.scanResult y stem) s
  | write {t : Nat} {y : Txn} (ht : s.txns t = some y) (key : Bytes) (value : Option Bytes) :
      Step s (.write t key value) (.ok ()) (s.setTxn t (y.recordWriteLocked key value))
  | submitEmpty {t : Nat} {y : Txn} (ht : s.txns t = some y) (id : RequestID)
      (hempty : s.command (.submit t id) = none) :
      Step s (.submit t id) (some (.ok y.startSeq)) s
  | submitFailed (t : Nat) (id : RequestID) (e : NodeError) :
      Step s (.submit t id) (some (.error (.node e))) s
  | submitKnown {t : Nat} {id : RequestID} {cmd : CommitTxnCommand} {o : Outcome}
      (hcmd : s.command (.submit t id) = some cmd)
      (hcheck : s.applier.fsm.precheck cmd = .ok o) :
      Step s (.submit t id) (some (conclude cmd.startSeq o)) s
  | submitMismatch {t : Nat} {id : RequestID} {cmd : CommitTxnCommand} {e : ApplyError}
      (hcmd : s.command (.submit t id) = some cmd)
      (hcheck : s.applier.fsm.precheck cmd = .error e) (hne : e ≠ .requestIDUnknown) :
      Step s (.submit t id) (some (.error (.requestID e))) s
  | submitWait {t : Nat} {id : RequestID} {cmd : CommitTxnCommand}
      (hcmd : s.command (.submit t id) = some cmd)
      (hcheck : s.applier.fsm.precheck cmd = .error .requestIDUnknown) :
      Step s (.submit t id) none
        { s with waiting := Function.update s.waiting t (some (cmd, s.results.length)) }
  | awaitFailed (t : Nat) (id : RequestID) (e : NodeError) :
      Step s (.await t id) (.error (.node e)) s
  | await {t n : Nat} {cmd : CommitTxnCommand} {e : Entry} {o : Outcome}
      (hwaiting : s.waiting t = some (cmd, n))
      (hresult : (e, some (cmd.requestID, o)) ∈ s.results.drop n) :
      Step s (.await t cmd.requestID) (conclude cmd.startSeq o) s
  | abort {t : Nat} {y : Txn} (ht : s.txns t = some y) :
      Step s (.abort t) (.ok ()) (s.setTxn t { y with writes := .empty, order := [] })

/-- The next entry is applied. A commit that it carries was handed in somewhere. A snapshot
that is installed stands for the entries it covers. -/
def Applies (commands : List CommitTxnCommand) (s s' : Replicated) : Prop :=
  ∃ e a r, e.index = s.applier.appliedIndex + 1 ∧ s.applier.applyEntry e = .ok (a, r) ∧
    (∀ cmd, carried e = some cmd → cmd ∈ commands) ∧
    s' = { s with applier := a, results := s.results ++ [(e, r)] }

def model : Model Replicated where
  step := Step
  command := command
  environment := Applies

def fresh : Replicated := ⟨.fresh, fun _ => none, 0, fun _ => none, []⟩

/-- One call on a node on which nothing fails, and which reads all that it has applied. -/
def handle (s : Replicated) : (op : Op) → Option (Replicated × op.Reply)
  | .start => some
      ({ s.setTxn s.nextTxn ⟨0, s.applier.appliedIndex, .active, .empty, []⟩ with
          nextTxn := s.nextTxn + 1 }, .ok s.nextTxn)
  | .lookup id => some (s, (s.applier.fsm.getOutcome id).map requestOutcome)
  | .read t key => (s.txns t).map fun y => (s, s.readResult y key)
  | .scan t stem => (s.txns t).map fun y => (s, s.scanResult y stem)
  | .write t key value =>
    (s.txns t).map fun y => (s.setTxn t (y.recordWriteLocked key value), .ok ())
  | .submit t id =>
    match s.command (.submit t id) with
    | none => (s.txns t).map fun y => (s, some (.ok y.startSeq))
    | some cmd =>
      match s.applier.fsm.precheck cmd with
      | .ok o => some (s, some (conclude cmd.startSeq o))
      | .error .requestIDUnknown => some
          ({ s with waiting := Function.update s.waiting t (some (cmd, s.results.length)) },
            none)
      | .error e => some (s, some (.error (.requestID e)))
  | .await t id =>
    match s.waiting t with
    | none => none
    | some (cmd, n) =>
      if cmd.requestID = id then
        (((s.results.drop n).filterMap (·.2)).find? (·.1 = id)).map fun found =>
          (s, conclude cmd.startSeq found.2)
      else none
  | .abort t =>
    (s.txns t).map fun y => (s.setTxn t { y with writes := .empty, order := [] }, .ok ())

variable {s : Replicated} {t : Nat}

theorem step_of_handle {s' : Replicated} {op : Op} {reply : op.Reply}
    (h : s.handle op = some (s', reply)) : Step s op reply s' := by
  cases op with
  | start =>
    cases h
    exact .start _ le_rfl
  | lookup id =>
    cases h
    exact .lookup id
  | read t key =>
    obtain ⟨y, hy, heq⟩ := map_eq_some_iff.mp h
    cases heq
    exact .read hy key
  | scan t stem =>
    obtain ⟨y, hy, heq⟩ := map_eq_some_iff.mp h
    cases heq
    exact .scan hy stem
  | write t key value =>
    obtain ⟨y, hy, heq⟩ := map_eq_some_iff.mp h
    cases heq
    exact .write hy key value
  | submit t id =>
    simp only [handle] at h
    split at h
    · rename_i hnone
      obtain ⟨y, hy, heq⟩ := map_eq_some_iff.mp h
      cases heq
      exact .submitEmpty hy id hnone
    · rename_i cmd hcmd
      split at h
      · rename_i o hcheck
        cases h
        exact .submitKnown hcmd hcheck
      · rename_i hcheck
        cases h
        exact .submitWait hcmd hcheck
      · rename_i e hne hcheck
        cases h
        exact .submitMismatch hcmd hcheck hne
  | await t id =>
    simp only [handle] at h
    split at h
    · cases h
    rename_i cmd n hwaiting
    split at h
    · rename_i hid
      subst hid
      obtain ⟨⟨id', o⟩, hfind, heq⟩ := map_eq_some_iff.mp h
      cases heq
      have hid : id' = cmd.requestID := by simpa using List.find?_some hfind
      subst hid
      obtain ⟨⟨e, r⟩, hmem, rfl⟩ := List.mem_filterMap.mp (List.mem_of_find?_eq_some hfind)
      exact .await hwaiting hmem
    · cases h
  | abort t =>
    obtain ⟨y, hy, heq⟩ := map_eq_some_iff.mp h
    cases heq
    exact .abort hy

def applyNext (commands : List CommitTxnCommand) (s : Replicated) (e : Entry) :
    Option Replicated :=
  if e.index = s.applier.appliedIndex + 1 ∧ ∀ cmd ∈ (carried e).toList, cmd ∈ commands then
    match s.applier.applyEntry e with
    | .error _ => none
    | .ok (a, r) => some { s with applier := a, results := s.results ++ [(e, r)] }
  else none

theorem applies_of_applyNext {commands : List CommitTxnCommand} {s s' : Replicated} {e : Entry}
    (h : s.applyNext commands e = some s') : Applies commands s s' := by
  rw [applyNext] at h
  split at h
  · rename_i hguard
    split at h
    · cases h
    · rename_i a r happly
      cases h
      exact ⟨e, a, r, hguard.1, happly, fun cmd hcmd => hguard.2 cmd (by simp [hcmd]), rfl⟩
  · cases h

def player : World.Player model Entry where
  handle := handle
  handle_step := step_of_handle
  act := applyNext
  act_environment := applies_of_applyNext

/-! ### Transactions of a node -/

def Issued (s : Replicated) (t : Nat) : Prop :=
  t < s.nextTxn ∧ ∀ y, s.txns t = some y → Ordered y

theorem Issued.setTxn (h : s.Issued t) {t' : Nat} {y : Txn} (hy : t' = t → Ordered y) :
    (s.setTxn t' y).Issued t := by
  refine ⟨h.1, fun y' hy' => ?_⟩
  rw [txns_setTxn] at hy'
  split at hy'
  · cases hy'
    exact hy (Eq.symm ‹_›)
  · exact h.2 y' hy'

theorem issues : Issues model Issued where
  start {e t e'} h := by
    cases h with
    | start startSeq hseq =>
      refine ⟨fun hissued => Nat.lt_irrefl _ hissued.1, Nat.lt_succ_self _, fun y hy => ?_⟩
      simp only [setTxn, update_self, some.injEq] at hy
      subst hy
      exact ordered_empty
  step {e op reply e' t} h hissued := by
    cases h with
    | start startSeq hseq =>
      have hold := @Issued.setTxn e t hissued e.nextTxn ⟨0, startSeq, .active, .empty, []⟩
        fun _ => ordered_empty
      exact ⟨Nat.lt_succ_of_lt hold.1, hold.2⟩
    | write ht key value =>
      refine hissued.setTxn fun heq => ?_
      subst heq
      exact (hissued.2 _ ht).recordWrite key value
    | abort ht => exact hissued.setTxn fun _ => ordered_empty
    | startFailed | lookup | read | scan | submitEmpty | submitFailed | submitKnown
    | submitMismatch | submitWait | awaitFailed | await => exact hissued
  environment {cmds e e' t} h hissued := by
    obtain ⟨_, _, _, _, _, _, rfl⟩ := h
    exact hissued

theorem ready_iff : model.Ready s t ↔ ∃ y, s.txns t = some y ∧ y.localWrites ≠ [] := by
  constructor
  · intro h
    have h := h []
    simp only [model, command] at h
    split at h
    · cases h
    rename_i y hy
    split at h
    · exact ⟨y, hy, ‹_›⟩
    · cases h
  · rintro ⟨y, hy, hne⟩ id
    simp [model, command, hy, hne]

theorem ready_setTxn {t' : Nat} {y : Txn} (h : model.Ready s t) (hy : t' = t → y.localWrites ≠ []) :
    model.Ready (s.setTxn t' y) t := by
  rw [ready_iff] at h ⊢
  rw [txns_setTxn]
  split
  · exact ⟨y, rfl, hy (Eq.symm ‹_›)⟩
  · exact h

theorem buffers : Buffers model Issued where
  write {e t key value e'} h hissued := by
    cases h with
    | write ht key value =>
      refine ready_iff.mpr ⟨_, (txns_setTxn _ _ _ _).trans (if_pos rfl), ?_⟩
      exact (hissued.2 _ ht).localWrites_recordWrite key value
  step {e op reply e' t} h hissued hends hready := by
    cases h with
    | start startSeq hseq =>
      refine ready_setTxn (s := e) hready fun heq => ?_
      exact absurd hissued.1 (by omega)
    | write ht key value =>
      refine ready_setTxn hready fun heq => ?_
      subst heq
      obtain ⟨y, hy, hne⟩ := ready_iff.mp hready
      rw [ht] at hy
      cases hy
      exact localWrites_recordWrite hne key value
    | abort ht => exact ready_setTxn hready fun heq => absurd trivial (hends (by rw [heq]; rfl))
    | startFailed | lookup | read | scan | submitEmpty | submitFailed | submitKnown
    | submitMismatch | submitWait | awaitFailed | await => exact hready
  environment {cmds e e' t} h hready := by
    obtain ⟨_, _, _, _, _, _, rfl⟩ := h
    exact hready

end Replicated

end ChronicleDB.Sql
