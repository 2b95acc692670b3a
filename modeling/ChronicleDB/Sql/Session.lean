import ChronicleDB.Foundation.Programs
import ChronicleDB.Sql.Plan
import ChronicleDB.Transactions.Manager

/-!
# Sessions

`exec.go` of `internal/sql`: the execution of a statement as a program over the
interfaces `Engine` and `Txn`, which know a transaction by a number.  A commit is
handed in and then, if the engine has not answered at once, waited for.  The
admission gate is left out.
-/

namespace ChronicleDB.Sql

open Foundation List Except
open Fsm (RequestID ApplyError)
open Mvcc (StoreError)

/-! ## The interface of an engine -/

/-- Why a node has not answered. -/
inductive NodeError where
  | notLeader
  | removed
  | leadershipLost
  | superseded
  | rejected
  | canceled
  | stopped
  deriving DecidableEq, Repr

inductive EngineError where
  | store (e : StoreError)
  | terminal
  | conflict (key : Bytes) (latest startSeq : Nat)
  | commit (e : Transactions.CommitError)
  | requestID (e : ApplyError)
  | node (e : NodeError)
  deriving DecidableEq, Repr

structure RequestOutcome where
  committed : Bool
  commitSeq : Nat
  deriving DecidableEq, Repr

inductive Op where
  | start
  | lookup (id : RequestID)
  | read (t : Nat) (key : Bytes)
  | scan (t : Nat) (stem : Bytes)
  | write (t : Nat) (key : Bytes) (value : Option Bytes)
  | submit (t : Nat) (id : RequestID)
  | await (t : Nat) (id : RequestID)
  | abort (t : Nat)
  deriving DecidableEq, Repr

/-- `submit` replies `none` if the answer is to be waited for. -/
abbrev Op.Reply : Op → Type
  | .start => Except EngineError Nat
  | .lookup _ => Option RequestOutcome
  | .read _ _ => Except EngineError (Option Bytes)
  | .scan _ _ => Except EngineError (List (Bytes × Bytes))
  | .write _ _ _ => Except EngineError Unit
  | .submit _ _ => Option (Except EngineError Nat)
  | .await _ _ => Except EngineError Nat
  | .abort _ => Except EngineError Unit

abbrev Script := Program Op Op.Reply

def perform (op : Op) : Script op.Reply := Program.perform op

/-! ## Results -/

inductive SqlError where
  | parse (e : ParseError)
  | plan (e : PlanError)
  | schema (e : SchemaError)
  | row (e : RowError)
  | engine (e : EngineError)
  | unknownTable (table : Bytes)
  | duplicateTable (table : Bytes)
  | duplicatePrimaryKey (table : Bytes) (pk : Value)
  | rowNotFound (table : Bytes) (pk : Value)
  | transactionAlreadyActive
  | noActiveTransaction
  | previouslyAborted
  deriving DecidableEq

structure Rows where
  columns : List Bytes
  rows : List (List Value)
  deriving DecidableEq

/-- `rows` is set for a SELECT only. -/
structure Result where
  rowsAffected : Nat
  rows : Option Rows
  commitSeq : Nat
  deriving DecidableEq

def Result.ok : Result := ⟨0, none, 0⟩

def Result.affected : Result := ⟨1, none, 0⟩

/-! ## Statements -/

/-- A part of a statement, which may fail. -/
abbrev Exec := ExceptT SqlError Script

def ask {α : Type} (p : Script (Except EngineError α)) : Exec α := do
  match ← (p : Script _) with
  | .error e => throw (.engine e)
  | .ok a => pure a

def liftPlan {α : Type} : Except PlanError α → Exec α
  | .error e => throw (.plan e)
  | .ok a => pure a

def read (t : Nat) (key : Bytes) : Exec (Option Bytes) := ask (perform (.read t key))

def write (t : Nat) (key : Bytes) (value : Option Bytes) : Exec Unit :=
  ask (perform (.write t key value))

def scanPrefix (t : Nat) (stem : Bytes) : Exec (List (Bytes × Bytes)) :=
  ask (perform (.scan t stem))

def getSchema (t : Nat) (table : Bytes) : Exec Schema := do
  match ← read t (schemaKey table) with
  | none => throw (.unknownTable table)
  | some b =>
    match decodeSchema b with
    | .error e => throw (.schema e)
    | .ok schema => pure schema

def rowValues (schema : Schema) (b : Bytes) : Exec (List Value) :=
  match decodeRow schema b with
  | .error e => throw (.row e)
  | .ok values => pure values

def execCreateTable (t : Nat) (table : Bytes) (columns : List ColumnDef) : Exec Result := do
  let schema ← liftPlan (buildSchema table columns)
  match ← read t (schemaKey schema.table) with
  | some _ => throw (.duplicateTable schema.table)
  | none =>
    write t (schemaKey schema.table) (some (encodeSchema schema))
    pure .ok

def execInsert (t : Nat) (table : Bytes) (columns : Option (List Bytes))
    (literals : List Literal) : Exec Result := do
  let schema ← getSchema t table
  let plan ← liftPlan (planInsert schema columns literals)
  match ← read t (rowKey schema.table plan.pk) with
  | some _ => throw (.duplicatePrimaryKey schema.table plan.pk)
  | none =>
    write t (rowKey schema.table plan.pk) (some (encodeRow plan.values))
    pure .affected

def getRows (schema : Schema) (idx : List Nat) : List (Bytes × Bytes) → Exec (List (List Value))
  | [] => pure []
  | kv :: kvs => do
      let values ← rowValues schema kv.2
      let rows ← getRows schema idx kvs
      pure (projectRow values idx :: rows)

def execSelect (t : Nat) (table : Bytes) (columns : Option (List Bytes))
    (pred : Option Predicate) : Exec Result := do
  let schema ← getSchema t table
  let plan ← liftPlan (planSelect schema columns pred)
  let names := plan.columnIdx.map schema.nameAt
  match plan.pkPredicate with
  | some pk =>
    match ← read t (rowKey schema.table pk) with
    | none => pure ⟨0, some ⟨names, []⟩, 0⟩
    | some b =>
      let values ← rowValues schema b
      pure ⟨0, some ⟨names, [projectRow values plan.columnIdx]⟩, 0⟩
  | none =>
    let kvs ← scanPrefix t (rowKeyPrefix schema.table)
    let rows ← getRows schema plan.columnIdx kvs
    pure ⟨0, some ⟨names, rows⟩, 0⟩

def execUpdate (t : Nat) (table : Bytes) (assignments : List Assignment) (pred : Predicate) :
    Exec Result := do
  let schema ← getSchema t table
  let plan ← liftPlan (planUpdate schema assignments pred)
  match ← read t (rowKey schema.table plan.pk) with
  | none => throw (.rowNotFound schema.table plan.pk)
  | some b =>
    let values ← rowValues schema b
    write t (rowKey schema.table plan.pk) (some (encodeRow (assign values plan.assignments)))
    pure .affected

def execDelete (t : Nat) (table : Bytes) (pred : Predicate) : Exec Result := do
  let schema ← getSchema t table
  let pk ← liftPlan (planDelete schema pred)
  match ← read t (rowKey schema.table pk) with
  | none => throw (.rowNotFound schema.table pk)
  | some _ =>
    write t (rowKey schema.table pk) none
    pure .affected

/-- The other statements do not get here. -/
def execOne (t : Nat) : Statement → Exec Result
  | .createTable table columns => execCreateTable t table columns
  | .insert table columns literals => execInsert t table columns literals
  | .select table columns pred => execSelect t table columns pred
  | .update table assignments pred => execUpdate t table assignments pred
  | .delete table pred => execDelete t table pred
  | .start | .commit | .rollback => pure .ok

/-! ## Sessions -/

def isMutatingStatement : Statement → Bool
  | .createTable _ _ | .insert _ _ _ | .update _ _ _ | .delete _ _ => true
  | _ => false

def mutationRetryResult (stmt : Statement) (outcome : RequestOutcome) : Except SqlError Result :=
  if !outcome.committed then .error .previouslyAborted
  else match stmt with
    | .createTable _ _ => .ok { Result.ok with commitSeq := outcome.commitSeq }
    | _ => .ok { Result.affected with commitSeq := outcome.commitSeq }

def commitTxn (t : Nat) (id : RequestID) : Script (Except EngineError Nat) := do
  match ← perform (.submit t id) with
  | some answer => pure answer
  | none => perform (.await t id)

/-- What a statement returns, and the open transaction of the session after it. -/
abbrev Reply := Except SqlError Result × Option Nat

def execBegin (txn : Option Nat) : Script Reply :=
  match txn with
  | some t => pure (.error .transactionAlreadyActive, some t)
  | none => do
      match ← perform .start with
      | .error e => pure (.error (.engine e), none)
      | .ok t => pure (.ok .ok, some t)

def execCommit (txn : Option Nat) (id : RequestID) : Script Reply :=
  match txn with
  | none => pure (.error .noActiveTransaction, none)
  | some t => do
      match ← commitTxn t id with
      | .error e => pure (.error (.engine e), none)
      | .ok seq => pure (.ok { Result.ok with commitSeq := seq }, none)

def execRollback (txn : Option Nat) : Script Reply :=
  match txn with
  | none => pure (.error .noActiveTransaction, none)
  | some t => do
      match ← perform (.abort t) with
      | .error e => pure (.error (.engine e), none)
      | .ok () => pure (.ok .ok, none)

def lookupRetry (stmt : Statement) (id : RequestID) : Script (Option RequestOutcome) :=
  if id ≠ [] ∧ isMutatingStatement stmt then perform (.lookup id) else pure none

/-- A statement in the open transaction `t`: an error ends it. -/
def executeInTxn (t : Nat) (stmt : Statement) : Script Reply := do
  match ← (execOne t stmt).run with
  | .ok result => pure (.ok result, some t)
  | .error e =>
    let _ ← perform (.abort t)
    pure (.error e, none)

/-- A statement in a transaction `t` of its own, up to its commit. -/
def autoCommit (t : Nat) (stmt : Statement) (id : RequestID) : Script Reply := do
  match ← lookupRetry stmt id with
  | some outcome =>
    let _ ← perform (.abort t)
    pure (mutationRetryResult stmt outcome, none)
  | none =>
    match ← (execOne t stmt).run with
    | .error e =>
      let _ ← perform (.abort t)
      pure (.error e, none)
    | .ok result =>
      match ← commitTxn t id with
      | .error e => pure (.error (.engine e), none)
      | .ok seq => pure (.ok { result with commitSeq := seq }, none)

def executeDML (txn : Option Nat) (stmt : Statement) (id : RequestID) : Script Reply :=
  match txn with
  | some t => executeInTxn t stmt
  | none => do
      match ← perform .start with
      | .error e => pure (.error (.engine e), none)
      | .ok t => autoCommit t stmt id

def dispatch (txn : Option Nat) (stmt : Statement) (id : RequestID) : Script Reply :=
  match stmt with
  | .start => execBegin txn
  | .commit => execCommit txn id
  | .rollback => execRollback txn
  | stmt => executeDML txn stmt id

def execute (txn : Option Nat) (text : Bytes) (id : RequestID) : Script Reply :=
  match parse text with
  | .error e => pure (.error (.parse e), txn)
  | .ok stmt => dispatch txn stmt id

/-! ## The calls of a statement -/

def Op.Local (t : Nat) : Op → Prop
  | .read t' _ | .scan t' _ | .write t' _ _ => t' = t
  | _ => False

def Op.IsSubmit : Op → Prop
  | .submit _ _ => True
  | _ => False

def Op.Ends : Op → Prop
  | .submit _ _ | .abort _ => True
  | _ => False

theorem Op.Local.not_ends {t : Nat} {op : Op} (h : op.Local t) : ¬op.Ends := by
  cases op <;> simp_all [Op.Local, Op.Ends]

theorem Op.IsSubmit.ends {op : Op} (h : op.IsSubmit) : op.Ends := by
  cases op <;> simp_all [Op.IsSubmit, Op.Ends]

section Local

open Program (Only)

variable {α β : Type} {t : Nat}

theorem only_bind {P : Op → Prop} {x : Exec α} {f : α → Exec β} (hx : Only P x.run)
    (hf : ∀ a, Only P (f a).run) : Only P (x >>= f).run := by
  refine Only.bind hx fun r => ?_
  cases r with
  | error e => trivial
  | ok a => exact hf a

theorem only_ask {P : Op → Prop} {p : Script (Except EngineError α)} (hp : Only P p) :
    Only P (ask p).run := by
  refine Only.bind (hp.bind fun _ => trivial) fun r => ?_
  cases r with
  | error e => trivial
  | ok r => cases r <;> trivial

theorem read_local (key : Bytes) : Only (Op.Local t) (read t key).run :=
  only_ask ⟨rfl, fun _ => trivial⟩

theorem write_local (key : Bytes) (value : Option Bytes) :
    Only (Op.Local t) (write t key value).run := only_ask ⟨rfl, fun _ => trivial⟩

theorem scanPrefix_local (stem : Bytes) : Only (Op.Local t) (scanPrefix t stem).run :=
  only_ask ⟨rfl, fun _ => trivial⟩

theorem liftPlan_local (x : Except PlanError α) : Only (Op.Local t) (liftPlan x).run := by
  cases x <;> trivial

theorem rowValues_local (schema : Schema) (b : Bytes) :
    Only (Op.Local t) (rowValues schema b).run := by
  rw [rowValues]
  split <;> trivial

theorem getSchema_local (table : Bytes) : Only (Op.Local t) (getSchema t table).run := by
  refine only_bind (read_local _) fun r => ?_
  cases r with
  | none => trivial
  | some b =>
    dsimp only
    split <;> trivial

theorem getRows_local (schema : Schema) (idx : List Nat) (kvs : List (Bytes × Bytes)) :
    Only (Op.Local t) (getRows schema idx kvs).run := by
  induction kvs with
  | nil => trivial
  | cons kv kvs ih =>
    exact only_bind (rowValues_local _ _) fun _ => only_bind ih fun _ => trivial

theorem execOne_local (t : Nat) (stmt : Statement) : Only (Op.Local t) (execOne t stmt).run := by
  cases stmt with
  | createTable table columns =>
    refine only_bind (liftPlan_local _) fun _ => only_bind (read_local _) fun r => ?_
    cases r with
    | none => exact only_bind (write_local _ _) fun _ => trivial
    | some b => trivial
  | insert table columns literals =>
    refine only_bind (getSchema_local _) fun _ => only_bind (liftPlan_local _) fun _ =>
      only_bind (read_local _) fun r => ?_
    cases r with
    | none => exact only_bind (write_local _ _) fun _ => trivial
    | some b => trivial
  | select table columns pred =>
    refine only_bind (getSchema_local _) fun _ => only_bind (liftPlan_local _) fun _ => ?_
    dsimp only
    split
    · refine only_bind (read_local _) fun r => ?_
      cases r with
      | none => trivial
      | some b => exact only_bind (rowValues_local _ _) fun _ => trivial
    · exact only_bind (scanPrefix_local _) fun _ => only_bind (getRows_local _ _ _) fun _ => trivial
  | update table assignments pred =>
    refine only_bind (getSchema_local _) fun _ => only_bind (liftPlan_local _) fun _ =>
      only_bind (read_local _) fun r => ?_
    cases r with
    | none => trivial
    | some b =>
      exact only_bind (rowValues_local _ _) fun _ => only_bind (write_local _ _) fun _ => trivial
  | delete table pred =>
    refine only_bind (getSchema_local _) fun _ => only_bind (liftPlan_local _) fun _ =>
      only_bind (read_local _) fun r => ?_
    cases r with
    | none => trivial
    | some b => exact only_bind (write_local _ _) fun _ => trivial
  | start | commit | rollback => trivial

end Local

/-! ## Statements that succeed -/

section Success

open Program (Leads Exchange leads_bind leads_call leads_done)

variable {t : Nat} {id : RequestID} {txn txn' : Option Nat} {stmt : Statement} {result : Result}
  {trace : List (Exchange Op.Reply)}

theorem leads_exec {α β : Type} {x : Exec α} {f : α → Exec β} {b : β}
    (h : Leads (x >>= f).run trace (.done (.ok b))) :
    ∃ first rest a, trace = first ++ rest ∧ Leads x.run first (.done (.ok a)) ∧
      Leads (f a).run rest (.done (.ok b)) := by
  obtain ⟨first, rest, r, rfl, hfirst, hrest⟩ := leads_bind h
  cases r with
  | error e =>
    obtain ⟨-, heq⟩ := leads_done hrest
    cases heq
  | ok a => exact ⟨first, rest, a, rfl, hfirst, hrest⟩

theorem write_ok {key : Bytes} {value : Option Bytes}
    (h : Leads (write t key value).run trace (.done (.ok ()))) :
    ⟨.write t key value, .ok ()⟩ ∈ trace := by
  obtain ⟨reply, rest, rfl, hrest⟩ := leads_call h
  cases reply with
  | error e =>
    obtain ⟨-, heq⟩ := leads_done hrest
    cases heq
  | ok u => exact mem_cons_self

theorem execOne_wrote (hmutating : isMutatingStatement stmt = true)
    (h : Leads (execOne t stmt).run trace (.done (.ok result))) :
    ∃ key value, ⟨.write t key value, .ok ()⟩ ∈ trace := by
  -- Whatever comes before the write only grows the trace on the left.
  have hlast : ∀ {key value} {r : Result} {pre rest : List (Exchange Op.Reply)},
      Leads (write t key value >>= fun _ => (pure r : Exec Result)).run rest (.done (.ok result)) →
        ∃ key value, ⟨.write t key value, .ok ()⟩ ∈ pre ++ rest := by
    intro key value r pre rest h
    obtain ⟨first, last, _, rfl, hwrite, -⟩ := leads_exec h
    exact ⟨key, value, by simp [write_ok hwrite]⟩
  have hthrow : ∀ {e : SqlError} {rest : List (Exchange Op.Reply)},
      ¬Leads (throw e : Exec Result).run rest (.done (.ok result)) := by
    intro e rest h
    obtain ⟨-, heq⟩ := leads_done h
    cases heq
  cases stmt with
  | createTable table columns =>
    obtain ⟨_, rest, schema, rfl, -, h⟩ := leads_exec h
    obtain ⟨_, rest, found, rfl, -, h⟩ := leads_exec h
    rw [← append_assoc]
    cases found with
    | some b => exact absurd h hthrow
    | none => exact hlast h
  | insert table columns literals =>
    obtain ⟨_, rest, schema, rfl, -, h⟩ := leads_exec h
    obtain ⟨_, rest, plan, rfl, -, h⟩ := leads_exec h
    obtain ⟨_, rest, found, rfl, -, h⟩ := leads_exec h
    rw [← append_assoc, ← append_assoc]
    cases found with
    | some b => exact absurd h hthrow
    | none => exact hlast h
  | update table assignments pred =>
    obtain ⟨_, rest, schema, rfl, -, h⟩ := leads_exec h
    obtain ⟨_, rest, plan, rfl, -, h⟩ := leads_exec h
    obtain ⟨_, rest, found, rfl, -, h⟩ := leads_exec h
    cases found with
    | none => exact absurd h hthrow
    | some b =>
      obtain ⟨_, rest, values, rfl, -, h⟩ := leads_exec h
      rw [← append_assoc, ← append_assoc, ← append_assoc]
      exact hlast h
  | delete table pred =>
    obtain ⟨_, rest, schema, rfl, -, h⟩ := leads_exec h
    obtain ⟨_, rest, plan, rfl, -, h⟩ := leads_exec h
    obtain ⟨_, rest, found, rfl, -, h⟩ := leads_exec h
    rw [← append_assoc, ← append_assoc]
    cases found with
    | none => exact absurd h hthrow
    | some b => exact hlast h
  | select | start | commit | rollback => cases hmutating

def Answers (t : Nat) (id : RequestID) (seq : Nat) (trace : List (Exchange Op.Reply)) : Prop :=
  trace = [⟨.submit t id, some (.ok seq)⟩] ∨
    trace = [⟨.submit t id, none⟩, ⟨.await t id, .ok seq⟩]

theorem commitTxn_ok {seq : Nat} (h : Leads (commitTxn t id) trace (.done (.ok seq))) :
    Answers t id seq trace := by
  obtain ⟨reply, rest, rfl, hrest⟩ := leads_call h
  cases reply with
  | some answer =>
    obtain ⟨rfl, heq⟩ := leads_done hrest
    obtain rfl : ok seq = answer := by simpa using heq
    exact .inl rfl
  | none =>
    obtain ⟨answer, rest, rfl, hdone⟩ := leads_call hrest
    obtain ⟨rfl, heq⟩ := leads_done hdone
    obtain rfl : ok seq = answer := by simpa using heq
    exact .inr rfl

/-- What a commit of `t` as the last thing of a statement has answered. -/
theorem commit_result_ok {f : Nat → Reply} (hf : ∀ seq r, (f seq).1 = .ok r → r.commitSeq = seq)
    (h : Leads (do
      match ← commitTxn t id with
      | .error e => pure (.error (.engine e), none)
      | .ok seq => pure (f seq)) trace (.done (.ok result, txn'))) :
    Answers t id result.commitSeq trace := by
  obtain ⟨first, rest, answer, rfl, hfirst, hrest⟩ := leads_bind h
  cases answer with
  | error e =>
    obtain ⟨-, heq⟩ := leads_done hrest
    cases heq
  | ok seq =>
    obtain ⟨rfl, heq⟩ := leads_done hrest
    have hpair : (ok result, txn') = f seq := Program.done.inj heq
    rw [append_nil, hf seq result (by rw [← hpair])]
    exact commitTxn_ok hfirst

theorem lookupRetry_leads {found : Option RequestOutcome}
    (h : Leads (lookupRetry stmt id) trace (.done found)) :
    (∀ x ∈ trace, ¬x.op.Ends) ∧
      ∀ outcome, found = some outcome → ⟨.lookup id, some outcome⟩ ∈ trace := by
  rw [lookupRetry] at h
  split at h
  · obtain ⟨reply, rest, rfl, hdone⟩ := leads_call h
    obtain ⟨rfl, heq⟩ := leads_done hdone
    obtain rfl : found = reply := by simpa using heq
    refine ⟨by simp [Op.Ends], ?_⟩
    rintro outcome rfl
    exact mem_singleton_self _
  · obtain ⟨rfl, heq⟩ := leads_done h
    obtain rfl : found = none := by simpa using heq
    simp

theorem mutationRetryResult_ok {outcome : RequestOutcome}
    (h : mutationRetryResult stmt outcome = .ok result) :
    outcome.committed = true ∧ result.commitSeq = outcome.commitSeq := by
  unfold mutationRetryResult at h
  split at h
  case isTrue => cases h
  case isFalse hcommitted =>
    refine ⟨by simpa using hcommitted, ?_⟩
    cases stmt <;> cases h <;> rfl

/-- A statement that succeeds in a transaction of its own has found its RequestID decided, or
its commit was answered. -/
theorem autoCommit_ok (h : Leads (autoCommit t stmt id) trace (.done (.ok result, txn'))) :
    ((∀ x ∈ trace, ¬x.op.IsSubmit) ∧ ∃ outcome, ⟨.lookup id, some outcome⟩ ∈ trace ∧
      outcome.committed = true ∧ result.commitSeq = outcome.commitSeq) ∨
    ∃ pre answer, trace = pre ++ answer ∧ (∀ x ∈ pre, ¬x.op.Ends) ∧
      (isMutatingStatement stmt = true → ∃ key value, ⟨.write t key value, .ok ()⟩ ∈ pre) ∧
      Answers t id result.commitSeq answer := by
  obtain ⟨first, rest, found, rfl, hfirst, hrest⟩ := leads_bind h
  obtain ⟨hquiet, hlookup⟩ := lookupRetry_leads hfirst
  cases found with
  | some outcome =>
    obtain ⟨reply, rest, rfl, hdone⟩ := leads_call hrest
    obtain ⟨rfl, heq⟩ := leads_done hdone
    have hpair : (ok result, txn') = (mutationRetryResult stmt outcome, none) :=
      Program.done.inj heq
    obtain ⟨hcommitted, hseq⟩ := mutationRetryResult_ok (congrArg Prod.fst hpair).symm
    refine .inl ⟨fun x hx => ?_, outcome, mem_append_left _ (hlookup outcome rfl), hcommitted, hseq⟩
    rcases mem_append.mp hx with hx | hx
    · exact fun hsubmit => hquiet x hx hsubmit.ends
    · obtain rfl := mem_singleton.mp hx
      exact fun hsubmit => hsubmit
  | none =>
    obtain ⟨body, rest, r, rfl, hbody, hend⟩ := leads_bind hrest
    have hlocal := (execOne_local t stmt).leads hbody
    cases r with
    | error e =>
      obtain ⟨reply, rest, rfl, hdone⟩ := leads_call hend
      obtain ⟨-, heq⟩ := leads_done hdone
      cases heq
    | ok r =>
      refine .inr ⟨first ++ body, rest, by simp, fun x hx => ?_, fun hmutating => ?_, ?_⟩
      · rcases mem_append.mp hx with hx | hx
        · exact hquiet x hx
        · exact (hlocal x hx).not_ends
      · obtain ⟨key, value, hwrote⟩ := execOne_wrote hmutating hbody
        exact ⟨key, value, mem_append_right _ hwrote⟩
      · refine commit_result_ok (f := fun seq => (.ok { r with commitSeq := seq }, none)) ?_ hend
        rintro seq r' ⟨⟩
        rfl

/-- The last calls are those of a commit that was answered with `seq`, the only one; `wrote`
if something was written before. -/
def EndsInCommit (wrote : Prop) (id : RequestID) (seq : Nat) (trace : List (Exchange Op.Reply)) :
    Prop :=
  ∃ pre t answer, trace = pre ++ answer ∧ (∀ x ∈ pre, ¬x.op.Ends) ∧
    (wrote → ∃ key value, ⟨.write t key value, .ok ()⟩ ∈ pre) ∧ Answers t id seq answer

def FoundCommitted (id : RequestID) (seq : Nat) (trace : List (Exchange Op.Reply)) : Prop :=
  ∃ outcome, ⟨.lookup id, some outcome⟩ ∈ trace ∧ outcome.committed = true ∧
    seq = outcome.commitSeq

theorem executeInTxn_ok (h : Leads (executeInTxn t stmt) trace (.done (.ok result, txn'))) :
    ∀ x ∈ trace, ¬x.op.IsSubmit := by
  obtain ⟨body, rest, r, rfl, hbody, hend⟩ := leads_bind h
  have hlocal := (execOne_local t stmt).leads hbody
  cases r with
  | error e =>
    obtain ⟨reply, rest, rfl, hdone⟩ := leads_call hend
    obtain ⟨-, heq⟩ := leads_done hdone
    cases heq
  | ok r =>
    obtain ⟨rfl, -⟩ := leads_done hend
    rw [append_nil]
    exact fun x hx hsubmit => (hlocal x hx).not_ends hsubmit.ends

theorem executeDML_ok (h : Leads (executeDML txn stmt id) trace (.done (.ok result, txn'))) :
    EndsInCommit (isMutatingStatement stmt = true) id result.commitSeq trace ∨
      ((∀ x ∈ trace, ¬x.op.IsSubmit) ∧
        (txn = none → FoundCommitted id result.commitSeq trace)) := by
  cases txn with
  | some t => exact .inr ⟨executeInTxn_ok h, fun hnone => by cases hnone⟩
  | none =>
    obtain ⟨reply, rest, rfl, hrest⟩ := leads_call h
    cases reply with
    | error e =>
      obtain ⟨-, heq⟩ := leads_done hrest
      cases heq
    | ok t =>
      rcases autoCommit_ok hrest with ⟨hquiet, outcome, hmem, hfound⟩ |
        ⟨pre, answer, rfl, hpre, hwrote, ha⟩
      · exact .inr ⟨forall_mem_cons.mpr ⟨fun hsubmit => hsubmit, hquiet⟩,
          fun _ => ⟨outcome, mem_cons_of_mem _ hmem, hfound⟩⟩
      · refine .inl ⟨⟨.start, .ok t⟩ :: pre, t, answer, rfl,
          forall_mem_cons.mpr ⟨fun hends => hends, hpre⟩, fun hmutating => ?_, ha⟩
        obtain ⟨key, value, hmem⟩ := hwrote hmutating
        exact ⟨key, value, mem_cons_of_mem _ hmem⟩

/-- A statement that succeeds has had its commit answered as the last thing, or has committed
nothing; then a mutating one without an open transaction has found its RequestID decided. -/
theorem dispatch_ok (h : Leads (dispatch txn stmt id) trace (.done (.ok result, txn'))) :
    EndsInCommit (isMutatingStatement stmt = true) id result.commitSeq trace ∨
      ((∀ x ∈ trace, ¬x.op.IsSubmit) ∧ (txn = none → isMutatingStatement stmt = true →
        FoundCommitted id result.commitSeq trace)) := by
  have hdml : Leads (executeDML txn stmt id) trace (.done (.ok result, txn')) →
      EndsInCommit (isMutatingStatement stmt = true) id result.commitSeq trace ∨
        ((∀ x ∈ trace, ¬x.op.IsSubmit) ∧ (txn = none → isMutatingStatement stmt = true →
          FoundCommitted id result.commitSeq trace)) := fun h =>
    (executeDML_ok h).imp_right fun hr => ⟨hr.1, fun htxn _ => hr.2 htxn⟩
  cases stmt with
  | createTable | insert | select | update | delete => exact hdml h
  | start =>
    refine .inr ⟨?_, fun _ hmut => by cases hmut⟩
    cases txn with
    | some t =>
      obtain ⟨-, heq⟩ := leads_done h
      cases heq
    | none =>
      obtain ⟨reply, rest, rfl, hrest⟩ := leads_call h
      have hnil : rest = [] := by
        cases reply <;> exact (leads_done hrest).1
      subst hnil
      exact forall_mem_singleton.mpr fun hsubmit => hsubmit
  | commit =>
    cases txn with
    | none =>
      obtain ⟨-, heq⟩ := leads_done h
      cases heq
    | some t =>
      refine .inl ⟨[], t, trace, rfl, by simp, fun hmut => (by cases hmut), ?_⟩
      refine commit_result_ok (f := fun seq => (.ok { Result.ok with commitSeq := seq }, none)) ?_ h
      rintro seq r ⟨⟩
      rfl
  | rollback =>
    refine .inr ⟨?_, fun _ hmut => by cases hmut⟩
    cases txn with
    | none =>
      obtain ⟨-, heq⟩ := leads_done h
      cases heq
    | some t =>
      obtain ⟨reply, rest, rfl, hrest⟩ := leads_call h
      have hnil : rest = [] := by
        cases reply <;> exact (leads_done hrest).1
      subst hnil
      exact forall_mem_singleton.mpr fun hsubmit => hsubmit

theorem execute_ok {text : Bytes}
    (h : Leads (execute txn text id) trace (.done (.ok result, txn'))) :
    EndsInCommit (∃ stmt, parse text = .ok stmt ∧ isMutatingStatement stmt = true) id
        result.commitSeq trace ∨
      ((∀ x ∈ trace, ¬x.op.IsSubmit) ∧ ∀ stmt, parse text = .ok stmt → txn = none →
        isMutatingStatement stmt = true → FoundCommitted id result.commitSeq trace) := by
  rw [execute] at h
  split at h
  case h_1 =>
    obtain ⟨-, heq⟩ := leads_done h
    cases heq
  case h_2 stmt hparse =>
    have hstmt : ∀ {stmt'}, parse text = .ok stmt' → stmt = stmt' := by
      intro stmt' hparse'
      rw [hparse] at hparse'
      exact ok.inj hparse'
    refine (dispatch_ok h).imp (fun hr => ?_) fun hr => ⟨hr.1, fun stmt' hparse' => ?_⟩
    · obtain ⟨pre, t, answer, htrace, hpre, hwrote, ha⟩ := hr
      refine ⟨pre, t, answer, htrace, hpre, ?_, ha⟩
      rintro ⟨stmt', hparse', hmutating⟩
      exact hwrote (hstmt hparse' ▸ hmutating)
    · exact hstmt hparse' ▸ hr.2

end Success

end ChronicleDB.Sql
