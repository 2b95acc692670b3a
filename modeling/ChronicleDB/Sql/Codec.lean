import ChronicleDB.Foundation.Decoder
import ChronicleDB.Sql.Syntax

/-!
# Schemas, rows and keys as bytes

`value.go`, `row.go` and the codec of `schema.go` of `internal/sql`.  A value of
one of the three column types is a constructor of its own.
-/

namespace ChronicleDB.Sql

open Foundation Foundation.Decoder List

def ColumnType.tag : ColumnType → UInt8
  | .integer => 1
  | .text => 2
  | .boolean => 3

def ColumnType.ofTag (b : UInt8) : Option ColumnType :=
  if b = 1 then some .integer
  else if b = 2 then some .text
  else if b = 3 then some .boolean
  else none

@[simp] theorem ColumnType.ofTag_tag (t : ColumnType) : ColumnType.ofTag t.tag = some t := by
  cases t <;> rfl

theorem ColumnType.tag_of_ofTag {b : UInt8} {t : ColumnType} (h : ofTag b = some t) :
    b = t.tag := by
  unfold ofTag at h
  split at h
  · cases h; assumption
  split at h
  · cases h; assumption
  split at h
  · cases h; assumption
  · cases h

inductive Value where
  | int (i : Int64)
  | text (s : Bytes)
  | bool (b : Bool)
  deriving DecidableEq

def Value.type : Value → ColumnType
  | .int _ => .integer
  | .text _ => .text
  | .bool _ => .boolean

structure Column where
  name : Bytes
  type : ColumnType
  deriving DecidableEq, Repr

structure Schema where
  table : Bytes
  columns : List Column
  primaryKey : Nat
  deriving DecidableEq, Repr

/-! ## Schemas -/

def schemaRecordVersion : UInt8 := 1

def putName (name : Bytes) : Bytes := putUint 2 name.length ++ name

def putColumn (c : Column) : Bytes := putName c.name ++ [c.type.tag]

def encodeSchema (s : Schema) : Bytes :=
  schemaRecordVersion :: (putName s.table ++ (putUint 2 s.columns.length ++
    (putUint 2 s.primaryKey ++ s.columns.flatMap putColumn)))

inductive SchemaError where
  | tooShort (length : Nat)
  | version (version : UInt8)
  | truncatedTable (declared remaining : Nat)
  | truncatedHeader
  | columnCount (declared remaining : Nat)
  | primaryKeyRange (index columns : Nat)
  | truncatedNameLength (i : Nat)
  | truncatedName (i : Nat)
  | truncatedType (i : Nat)
  | unrecognizedType (name : Bytes) (tag : UInt8)
  | trailingBytes (extra : Nat)
  deriving DecidableEq, Repr

def getColumn (i : Nat) : Decoder SchemaError Column := do
  need 2 fun _ => .truncatedNameLength i
  let nameLen ← uint 2
  need nameLen fun _ => .truncatedName i
  let name ← bytes nameLen
  need 1 fun _ => .truncatedType i
  let tag ← byte
  match ColumnType.ofTag tag with
  | none => throw (.unrecognizedType name tag)
  | some type => pure ⟨name, type⟩

def schemaDecoder : Decoder SchemaError Schema := do
  need 3 .tooShort
  let version ← byte
  check (version = schemaRecordVersion) (.version version)
  let tableLen ← uint 2
  need tableLen (.truncatedTable tableLen)
  let table ← bytes tableLen
  need 4 fun _ => .truncatedHeader
  let numCols ← uint 2
  let pkIndex ← uint 2
  let remaining ← fun b => .ok (b.length, b)
  check (numCols ≤ remaining / 3) (.columnCount numCols remaining)
  check (pkIndex < numCols) (.primaryKeyRange pkIndex numCols)
  let columns ← times getColumn numCols 0
  finished .trailingBytes
  pure ⟨table, columns, pkIndex⟩

def decodeSchema (b : Bytes) : Except SchemaError Schema := (schemaDecoder b).map (·.1)

/-! ## Rows -/

def rowRecordVersion : UInt8 := 1

def putInt (i : Int64) : Bytes := putUint 8 i.toUInt64.toNat

def putBool (b : Bool) : Bytes := [if b then 1 else 0]

def putScalar : Value → Bytes
  | .int i => putInt i
  | .text s => putUint 4 s.length ++ s
  | .bool b => putBool b

def putTagged (v : Value) : Bytes := v.type.tag :: putScalar v

def encodeRow (values : List Value) : Bytes :=
  rowRecordVersion :: (putUint 2 values.length ++ values.flatMap putTagged)

inductive RowError where
  | tooShort (length : Nat)
  | version (version : UInt8)
  | columnCount (columns : Nat) (table : Bytes) (declared : Nat)
  | truncatedType (i : Nat)
  | typeMismatch (i : Nat) (name : Bytes) (tag : UInt8) (declared : ColumnType)
  | truncatedInteger (i : Nat)
  | truncatedBoolean (i : Nat)
  | truncatedTextLength (i : Nat)
  | truncatedText (i declared remaining : Nat)
  | trailingBytes (extra : Nat)
  deriving DecidableEq, Repr

def getScalar (i : Nat) : ColumnType → Decoder RowError Value
  | .integer => do
      need 8 fun _ => .truncatedInteger i
      let n ← uint 8
      pure (.int (UInt64.ofNat n).toInt64)
  | .boolean => do
      need 1 fun _ => .truncatedBoolean i
      let b ← byte
      pure (.bool (b ≠ 0))
  | .text => do
      need 4 fun _ => .truncatedTextLength i
      let s ← string (.truncatedText i)
      pure (.text s)

def getValues : Nat → List Column → Decoder RowError (List Value)
  | _, [] => pure []
  | i, c :: cs => do
      need 1 fun _ => .truncatedType i
      let tag ← byte
      check (tag = c.type.tag) (.typeMismatch i c.name tag c.type)
      let v ← getScalar i c.type
      let vs ← getValues (i + 1) cs
      pure (v :: vs)

def rowDecoder (schema : Schema) : Decoder RowError (List Value) := do
  need 3 .tooShort
  let version ← byte
  check (version = rowRecordVersion) (.version version)
  let numCols ← uint 2
  check (numCols = schema.columns.length)
    (.columnCount numCols schema.table schema.columns.length)
  let values ← getValues 0 schema.columns
  finished .trailingBytes
  pure values

def decodeRow (schema : Schema) (b : Bytes) : Except RowError (List Value) :=
  (rowDecoder schema b).map (·.1)

/-! ## Keys -/

def schemaKeyTag : UInt8 := 1
def rowKeyTag : UInt8 := 2

def schemaKey (table : Bytes) : Bytes := schemaKeyTag :: table

def rowKeyPrefix (table : Bytes) : Bytes := rowKeyTag :: (table ++ [0])

def encodePKValue : Value → Bytes
  | .int i => ColumnType.integer.tag :: putInt i
  | .text s => ColumnType.text.tag :: s
  | .bool b => ColumnType.boolean.tag :: putBool b

def rowKey (table : Bytes) (pk : Value) : Bytes := rowKeyPrefix table ++ encodePKValue pk

/-! ## Round trips -/

/-- The lengths fit their fields, and the primary key is a column. -/
structure Schema.Fits (s : Schema) : Prop where
  table : s.table.length < 2 ^ 16
  columns : s.columns.length < 2 ^ 16
  names : ∀ c ∈ s.columns, c.name.length < 2 ^ 16
  primaryKey : s.primaryKey < s.columns.length

theorem getColumn_put {c : Column} (h : c.name.length < 2 ^ 16) (i : Nat) (rest : Bytes) :
    getColumn i (putColumn c ++ rest) = .ok (c, rest) := by
  rw [getColumn, putColumn, putName, append_assoc, append_assoc,
    bind_ok (need_ok (by simp)), bind_ok (uint_put (show c.name.length < 256 ^ 2 from h) _),
    bind_ok (need_ok (by simp)), bind_ok (bytes_append rfl _), bind_ok (need_ok (by simp)),
    singleton_append, bind_ok (byte_cons _ _)]
  simp

theorem times_getColumn_put {cs : List Column} (h : ∀ c ∈ cs, c.name.length < 2 ^ 16) (i : Nat)
    (rest : Bytes) :
    times getColumn cs.length i (cs.flatMap putColumn ++ rest) = .ok (cs, rest) := by
  induction cs generalizing i with
  | nil => rfl
  | cons c cs ih =>
    rw [length_cons, times, flatMap_cons, append_assoc, bind_ok (getColumn_put (h c (by simp)) i _),
      bind_ok (ih (fun c hc => h c (mem_cons_of_mem _ hc)) (i + 1))]
    rfl

theorem length_flatMap_putColumn (cs : List Column) :
    3 * cs.length ≤ (cs.flatMap putColumn).length := by
  induction cs with
  | nil => simp
  | cons c cs ih =>
    simp only [flatMap_cons, length_append, length_cons, putColumn, putName,
      length_putUint, length_nil]
    omega

theorem decodeSchema_encode {s : Schema} (h : s.Fits) : decodeSchema (encodeSchema s) = .ok s := by
  obtain ⟨htable, hcolumns, hnames, hpk⟩ := h
  have hlen := length_flatMap_putColumn s.columns
  have hcols := times_getColumn_put hnames 0 []
  rw [append_nil] at hcols
  rw [decodeSchema, schemaDecoder, encodeSchema, putName, append_assoc,
    bind_ok (need_ok (by simp)), bind_ok (byte_cons _ _), bind_ok (check_ok rfl),
    bind_ok (uint_put (show s.table.length < 256 ^ 2 from htable) _),
    bind_ok (need_ok (by simp)), bind_ok (bytes_append rfl _),
    bind_ok (need_ok (by simp only [length_append, length_putUint]; omega)),
    bind_ok (uint_put (show s.columns.length < 256 ^ 2 from hcolumns) _),
    bind_ok (uint_put (show s.primaryKey < 256 ^ 2 by omega) _),
    bind_ok (show (fun b : Bytes => Except.ok (b.length, b)) _ = _ from rfl),
    bind_ok (check_ok (by omega)), bind_ok (check_ok hpk), bind_ok hcols,
    bind_ok (finished_nil _)]
  rfl

def Value.Fits : Value → Prop
  | .text s => s.length < 2 ^ 32
  | _ => True

theorem getScalar_put {v : Value} (h : v.Fits) (i : Nat) (rest : Bytes) :
    getScalar i v.type (putScalar v ++ rest) = .ok (v, rest) := by
  cases v with
  | int n =>
    have hlt : n.toUInt64.toNat < 256 ^ 8 := n.toUInt64.toNat_lt
    rw [Value.type, getScalar, putScalar, putInt, bind_ok (need_ok (by simp)),
      bind_ok (uint_put hlt _)]
    simp
  | text s =>
    rw [Value.type, getScalar, putScalar, append_assoc, bind_ok (need_ok (by simp)),
      bind_ok (string_put h _ _)]
    rfl
  | bool b => cases b <;> rfl

theorem getValues_put {cs : List Column} {vs : List Value}
    (htypes : vs.map Value.type = cs.map Column.type) (hfits : ∀ v ∈ vs, v.Fits) (i : Nat)
    (rest : Bytes) : getValues i cs (vs.flatMap putTagged ++ rest) = .ok (vs, rest) := by
  induction cs generalizing vs i with
  | nil =>
    obtain rfl : vs = [] := by simpa using htypes
    rfl
  | cons c cs ih =>
    cases vs with
    | nil => simp at htypes
    | cons v vs =>
      obtain ⟨htype, htypes⟩ := cons.inj htypes
      rw [getValues, flatMap_cons, putTagged, append_assoc, cons_append,
        bind_ok (need_ok (by simp)), bind_ok (byte_cons _ _), bind_ok (check_ok (by rw [htype])),
        ← htype, bind_ok (getScalar_put (hfits v (by simp)) i _),
        bind_ok (ih htypes (fun v hv => hfits v (mem_cons_of_mem _ hv)) (i + 1))]
      rfl

theorem decodeRow_encode {schema : Schema} {values : List Value}
    (htypes : values.map Value.type = schema.columns.map Column.type)
    (hlen : schema.columns.length < 2 ^ 16) (hfits : ∀ v ∈ values, v.Fits) :
    decodeRow schema (encodeRow values) = .ok values := by
  have hcount : values.length = schema.columns.length := by
    simpa using congrArg length htypes
  have hvalues := getValues_put htypes hfits 0 []
  rw [append_nil] at hvalues
  rw [decodeRow, rowDecoder, encodeRow, bind_ok (need_ok (by simp)), bind_ok (byte_cons _ _),
    bind_ok (check_ok rfl), bind_ok (uint_put (show values.length < 256 ^ 2 by omega) _),
    bind_ok (check_ok hcount), bind_ok hvalues, bind_ok (finished_nil _)]
  rfl

theorem putInt_inj {i j : Int64} (h : putInt i = putInt j) : i = j := by
  have hlt : ∀ n : Int64, n.toUInt64.toNat < 256 ^ 8 := fun n => n.toUInt64.toNat_lt
  have heq := congrArg getUint h
  rw [putInt, putInt, getUint_putUint_of_lt (hlt i), getUint_putUint_of_lt (hlt j)] at heq
  simpa using congrArg UInt64.toInt64 (UInt64.toNat_inj.mp heq)

theorem encodePKValue_inj {v w : Value} (h : encodePKValue v = encodePKValue w) : v = w := by
  cases v with
  | int i =>
    cases w with
    | int j => rw [putInt_inj (cons.inj h).2]
    | text | bool => cases h
  | text s =>
    cases w with
    | text t => rw [(cons.inj h).2]
    | int | bool => cases h
  | bool b =>
    cases w with
    | bool b' =>
      cases b <;> cases b'
      case false.false | true.true => rfl
      all_goals cases h
    | int | text => cases h

/-- A table name, which has no zero byte, ends at the first one. -/
theorem append_zero_inj {s t u v : Bytes} (hs : 0 ∉ s) (ht : 0 ∉ t)
    (h : s ++ (0 :: u) = t ++ (0 :: v)) : s = t ∧ u = v := by
  induction s generalizing t with
  | nil =>
    cases t with
    | nil => exact ⟨rfl, (cons.inj h).2⟩
    | cons b t =>
      obtain ⟨rfl, -⟩ := cons.inj h
      simp at ht
  | cons a s ih =>
    cases t with
    | nil =>
      obtain ⟨rfl, -⟩ := cons.inj h
      simp at hs
    | cons b t =>
      obtain ⟨rfl, hrest⟩ := cons.inj h
      simp only [mem_cons, not_or] at hs ht
      obtain ⟨rfl, rfl⟩ := ih hs.2 ht.2 hrest
      exact ⟨rfl, rfl⟩

theorem rowKey_inj {s t : Bytes} {v w : Value} (hs : 0 ∉ s) (ht : 0 ∉ t)
    (h : rowKey s v = rowKey t w) : s = t ∧ v = w := by
  have h' : s ++ 0 :: encodePKValue v = t ++ 0 :: encodePKValue w := by
    simpa [rowKey, rowKeyPrefix] using h
  obtain ⟨rfl, hpk⟩ := append_zero_inj hs ht h'
  exact ⟨rfl, encodePKValue_inj hpk⟩

theorem schemaKey_ne_rowKey (s t : Bytes) (v : Value) : schemaKey s ≠ rowKey t v := fun h =>
  absurd (cons.inj h).1 (by decide)

theorem rowKeyPrefix_isPrefix_rowKey {s t : Bytes} {v : Value} (hs : 0 ∉ s) (ht : 0 ∉ t) :
    rowKeyPrefix s <+: rowKey t v ↔ s = t := by
  constructor
  · rintro ⟨u, hu⟩
    have h' : s ++ 0 :: u = t ++ 0 :: encodePKValue v := by
      simpa [rowKey, rowKeyPrefix] using hu
    exact (append_zero_inj hs ht h').1
  · rintro rfl
    exact ⟨_, rfl⟩

theorem not_rowKeyPrefix_isPrefix_schemaKey (s t : Bytes) : ¬rowKeyPrefix s <+: schemaKey t := by
  rintro ⟨u, hu⟩
  exact absurd (cons.inj hu).1 (by decide)

end ChronicleDB.Sql
