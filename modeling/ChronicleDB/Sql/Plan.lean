import ChronicleDB.Sql.Codec

/-!
# Binding statements to schemas

`buildSchema` of `schema.go`, and `plan.go`, of `internal/sql`: the checks of a
statement against the schema of its table, and what is left to execute.
-/

namespace ChronicleDB.Sql

open Foundation

/-- The errors of the binder, with the data of their texts. -/
inductive PlanError where
  | noColumns (table : Bytes)
  | tooManyColumns (table : Bytes) (columns : Nat)
  | columnDeclaredTwice (name : Bytes)
  | multiplePrimaryKeys (first second : Bytes)
  | missingPrimaryKey (table : Bytes)
  | typeMismatch (lit : Literal) (want : ColumnType)
  | columnTypeMismatch (column : Bytes) (lit : Literal) (want : ColumnType)
  | invalidPredicate (primaryKey column : Bytes)
  | valueCount (table : Bytes) (values columns : Nat)
  | columnCount (table : Bytes) (columns values : Nat)
  | columnNamedTwice (name : Bytes)
  | unknownColumn (name : Bytes)
  | columnsMissing (table : Bytes)
  | valueMissing (table column : Bytes)
  | columnAssignedTwice (name : Bytes)
  | primaryKeyAssigned (name : Bytes)
  deriving DecidableEq

/-! ## CREATE TABLE -/

def buildColumns : List Column → Option Nat → List ColumnDef →
    Except PlanError (List Column × Option Nat)
  | done, pk, [] => .ok (done, pk)
  | done, pk, c :: cs =>
    if done.any (·.name = c.name) then .error (.columnDeclaredTwice c.name)
    else if c.primaryKey then
      match pk with
      | some i =>
        .error (.multiplePrimaryKeys ((done[i]?.map Column.name).getD []) c.name)
      | none => buildColumns (done ++ [⟨c.name, c.type⟩]) (some done.length) cs
    else buildColumns (done ++ [⟨c.name, c.type⟩]) pk cs

def buildSchema (table : Bytes) (columns : List ColumnDef) : Except PlanError Schema :=
  if columns = [] then .error (.noColumns table)
  else if columns.length > maxColumns then .error (.tooManyColumns table columns.length)
  else match buildColumns [] none columns with
    | .error e => .error e
    | .ok (_, none) => .error (.missingPrimaryKey table)
    | .ok (cols, some pk) => .ok ⟨table, cols, pk⟩

/-! ## Names, literals, predicates -/

namespace Schema

def column (s : Schema) (name : Bytes) : Option Nat := s.columns.findIdx? (·.name = name)

def primaryKeyColumn (s : Schema) : Column := s.columns[s.primaryKey]?.getD ⟨[], .integer⟩

def typeAt (s : Schema) (i : Nat) : ColumnType := (s.columns[i]?.map Column.type).getD .integer

def nameAt (s : Schema) (i : Nat) : Bytes := (s.columns[i]?.map Column.name).getD []

end Schema

def bindLiteral (lit : Literal) (want : ColumnType) : Except PlanError Value :=
  match lit, want with
  | .int i, .integer => .ok (.int i)
  | .str s, .text => .ok (.text s)
  | .bool b, .boolean => .ok (.bool b)
  | _, _ => .error (.typeMismatch lit want)

def bindColumn (schema : Schema) (i : Nat) (lit : Literal) : Except PlanError Value :=
  match bindLiteral lit (schema.typeAt i) with
  | .ok v => .ok v
  | .error _ => .error (.columnTypeMismatch (schema.nameAt i) lit (schema.typeAt i))

def bindPredicate (schema : Schema) (pred : Predicate) : Except PlanError Value :=
  if pred.column ≠ schema.primaryKeyColumn.name then
    .error (.invalidPredicate schema.primaryKeyColumn.name pred.column)
  else bindLiteral pred.value schema.primaryKeyColumn.type

/-! ## INSERT -/

def targetColumns (schema : Schema) : List Bytes → List Bytes → Except PlanError (List Nat)
  | _, [] => .ok []
  | seen, name :: names =>
    if name ∈ seen then .error (.columnNamedTwice name)
    else match schema.column name with
      | none => .error (.unknownColumn name)
      | some i =>
        match targetColumns schema (name :: seen) names with
        | .error e => .error e
        | .ok is => .ok (i :: is)

def fillValues (schema : Schema) : List (Option Value) → List (Nat × Literal) →
    Except PlanError (List (Option Value))
  | values, [] => .ok values
  | values, (i, lit) :: rest =>
    match bindColumn schema i lit with
    | .error e => .error e
    | .ok v => fillValues schema (values.set i (some v)) rest

def filledValues (schema : Schema) : Nat → List (Option Value) → Except PlanError (List Value)
  | _, [] => .ok []
  | i, none :: _ => .error (.valueMissing schema.table (schema.nameAt i))
  | i, some v :: vs =>
    match filledValues schema (i + 1) vs with
    | .error e => .error e
    | .ok values => .ok (v :: values)

structure InsertPlan where
  pk : Value
  values : List Value
  deriving DecidableEq

def insertTargets (schema : Schema) (columns : Option (List Bytes)) (values : List Literal) :
    Except PlanError (List Nat) :=
  match columns with
  | none =>
    if values.length ≠ schema.columns.length then
      .error (.valueCount schema.table values.length schema.columns.length)
    else .ok (List.range schema.columns.length)
  | some names =>
    if names.length ≠ values.length then
      .error (.columnCount schema.table names.length values.length)
    else match targetColumns schema [] names with
      | .error e => .error e
      | .ok targets =>
        if targets.length ≠ schema.columns.length then .error (.columnsMissing schema.table)
        else .ok targets

def planInsert (schema : Schema) (columns : Option (List Bytes)) (literals : List Literal) :
    Except PlanError InsertPlan :=
  match insertTargets schema columns literals with
  | .error e => .error e
  | .ok targets =>
    let empty := List.replicate schema.columns.length none
    match fillValues schema empty (targets.zip literals) with
    | .error e => .error e
    | .ok slots =>
      match filledValues schema 0 slots with
      | .error e => .error e
      | .ok values => .ok ⟨values[schema.primaryKey]?.getD (.int 0), values⟩

/-! ## SELECT -/

structure SelectPlan where
  columnIdx : List Nat
  pkPredicate : Option Value
  deriving DecidableEq

def selectColumns (schema : Schema) : List Bytes → Except PlanError (List Nat)
  | [] => .ok []
  | name :: names =>
    match schema.column name with
    | none => .error (.unknownColumn name)
    | some i =>
      match selectColumns schema names with
      | .error e => .error e
      | .ok is => .ok (i :: is)

def projection (schema : Schema) : Option (List Bytes) → Except PlanError (List Nat)
  | none => .ok (List.range schema.columns.length)
  | some names => selectColumns schema names

def planSelect (schema : Schema) (columns : Option (List Bytes)) (pred : Option Predicate) :
    Except PlanError SelectPlan :=
  match projection schema columns with
  | .error e => .error e
  | .ok idx =>
    match pred with
    | none => .ok ⟨idx, none⟩
    | some pred =>
      match bindPredicate schema pred with
      | .error e => .error e
      | .ok v => .ok ⟨idx, some v⟩

/-! ## UPDATE and DELETE -/

def bindAssignments (schema : Schema) : List Nat → List Assignment →
    Except PlanError (List (Nat × Value))
  | _, [] => .ok []
  | seen, a :: as =>
    match schema.column a.column with
    | none => .error (.unknownColumn a.column)
    | some i =>
      if i ∈ seen then .error (.columnAssignedTwice a.column)
      else if i = schema.primaryKey then .error (.primaryKeyAssigned a.column)
      else match bindColumn schema i a.value with
        | .error e => .error e
        | .ok v =>
          match bindAssignments schema (i :: seen) as with
          | .error e => .error e
          | .ok rest => .ok ((i, v) :: rest)

structure UpdatePlan where
  pk : Value
  assignments : List (Nat × Value)
  deriving DecidableEq

def planUpdate (schema : Schema) (assignments : List Assignment) (pred : Predicate) :
    Except PlanError UpdatePlan :=
  match bindPredicate schema pred with
  | .error e => .error e
  | .ok pk =>
    match bindAssignments schema [] assignments with
    | .error e => .error e
    | .ok assignments => .ok ⟨pk, assignments⟩

def planDelete (schema : Schema) (pred : Predicate) : Except PlanError Value :=
  bindPredicate schema pred

def assign (values : List Value) (assignments : List (Nat × Value)) : List Value :=
  assignments.foldl (fun vs a => vs.set a.1 a.2) values

def projectRow (values : List Value) (idx : List Nat) : List Value :=
  idx.map fun i => values[i]?.getD (.int 0)

end ChronicleDB.Sql
