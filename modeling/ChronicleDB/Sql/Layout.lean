import ChronicleDB.Sql.Plan

/-!
# The layout of tables

What `CREATE TABLE` stores, what a row record says about its schema, and the keys
of different tables (`schema.go` and `row.go` of `internal/sql`).
-/

namespace ChronicleDB.Sql

open Foundation Foundation.Decoder

/-! ## Schemas -/

theorem buildColumns_spec {done cols : List Column} {pk pk' : Option Nat} {defs : List ColumnDef}
    (h : buildColumns done pk defs = .ok (cols, pk')) (hpk : ∀ i ∈ pk, i < done.length) :
    cols = done ++ defs.map (fun c => ⟨c.name, c.type⟩) ∧ ∀ i ∈ pk', i < cols.length := by
  induction defs generalizing done pk with
  | nil =>
    cases h
    exact ⟨by simp, hpk⟩
  | cons c defs ih =>
    rw [buildColumns.eq_def] at h
    dsimp only at h
    by_cases hseen : done.any (·.name = c.name) = true
    · rw [if_pos hseen] at h
      cases h
    rw [if_neg hseen] at h
    have hgrow : ∀ i ∈ pk, i < (done ++ [(⟨c.name, c.type⟩ : Column)]).length := fun i hi => by
      have := hpk i hi
      simp only [List.length_append, List.length_singleton]
      omega
    by_cases hkey : c.primaryKey = true
    · rw [if_pos hkey] at h
      cases pk with
      | some i => cases h
      | none =>
        obtain ⟨hcols, hbound⟩ := ih h fun i hi => by cases hi; simp
        exact ⟨by simpa using hcols, hbound⟩
    · rw [if_neg hkey] at h
      obtain ⟨hcols, hbound⟩ := ih h hgrow
      exact ⟨by simpa using hcols, hbound⟩

theorem buildSchema_spec {table : Bytes} {defs : List ColumnDef} {schema : Schema}
    (h : buildSchema table defs = .ok schema) :
    schema.table = table ∧ schema.columns = defs.map (fun c => ⟨c.name, c.type⟩) ∧
      schema.columns.length ≤ maxColumns ∧ schema.primaryKey < schema.columns.length := by
  rw [buildSchema] at h
  split at h
  · cases h
  split at h
  · cases h
  rename_i hmax
  cases hcols : buildColumns [] none defs with
  | error e => rw [hcols] at h; cases h
  | ok r =>
    obtain ⟨cols, pk⟩ := r
    obtain ⟨rfl, hbound⟩ := buildColumns_spec hcols (by simp)
    rw [hcols] at h
    cases pk with
    | none => cases h
    | some pk =>
      cases h
      exact ⟨rfl, by simp, by simpa using hmax, hbound pk rfl⟩

theorem eq_putColumn_of_getColumn {i : Nat} {b b' : Bytes} {c : Column}
    (h : getColumn i b = .ok (c, b')) : b = putColumn c ++ b' ∧ c.name.length < 2 ^ 16 := by
  obtain ⟨_, _, hneed, h₁⟩ := bind_eq_ok h
  obtain ⟨hlen, rfl⟩ := need_eq_ok hneed
  obtain ⟨nameLen, _, huint, h₂⟩ := bind_eq_ok h₁
  obtain ⟨hb, hlt⟩ := uint_eq_ok hlen huint
  obtain ⟨_, _, hneed, h₃⟩ := bind_eq_ok h₂
  obtain ⟨hlen, rfl⟩ := need_eq_ok hneed
  obtain ⟨name, _, hname, h₄⟩ := bind_eq_ok h₃
  obtain ⟨rfl, rfl⟩ := bytes_eq_ok hlen hname
  obtain ⟨_, _, hneed, h₅⟩ := bind_eq_ok h₄
  obtain ⟨hlen, rfl⟩ := need_eq_ok hneed
  obtain ⟨tag, _, htag, h₆⟩ := bind_eq_ok h₅
  obtain rfl := byte_eq_ok hlen htag
  cases htype : ColumnType.ofTag tag with
  | none => rw [htype] at h₆; cases h₆
  | some type =>
    rw [htype] at h₆
    obtain ⟨rfl, rfl⟩ := pure_eq_ok h₆
    exact ⟨by simp [hb, putColumn, putName, ColumnType.tag_of_ofTag htype], hlt⟩

theorem eq_encodeSchema_of_decode {b : Bytes} {s : Schema} (h : decodeSchema b = .ok s) :
    b = encodeSchema s ∧ s.Fits := by
  cases hdecoder : schemaDecoder b with
  | error e => rw [decodeSchema, hdecoder] at h; cases h
  | ok r =>
    rw [decodeSchema, hdecoder] at h
    obtain ⟨s, b'⟩ := r
    cases h
    obtain ⟨_, _, hneed, h₁⟩ := bind_eq_ok hdecoder
    obtain ⟨hlen, rfl⟩ := need_eq_ok hneed
    obtain ⟨version, _, hversion, h₂⟩ := bind_eq_ok h₁
    obtain rfl := byte_eq_ok (by omega) hversion
    obtain ⟨_, _, hcheck, h₃⟩ := bind_eq_ok h₂
    obtain ⟨rfl, rfl⟩ := check_eq_ok hcheck
    obtain ⟨tableLen, _, huint, h₄⟩ := bind_eq_ok h₃
    obtain ⟨hb, htable⟩ := uint_eq_ok (by simpa using hlen) huint
    obtain ⟨_, _, hneed, h₅⟩ := bind_eq_ok h₄
    obtain ⟨hlen, rfl⟩ := need_eq_ok hneed
    obtain ⟨table, _, hbytes, h₆⟩ := bind_eq_ok h₅
    obtain ⟨rfl, rfl⟩ := bytes_eq_ok hlen hbytes
    obtain ⟨_, _, hneed, h₇⟩ := bind_eq_ok h₆
    obtain ⟨hlen, rfl⟩ := need_eq_ok hneed
    obtain ⟨numCols, _, huint, h₈⟩ := bind_eq_ok h₇
    obtain ⟨rfl, hnumCols⟩ := uint_eq_ok (by omega) huint
    obtain ⟨pkIndex, _, huint, h₉⟩ := bind_eq_ok h₈
    rw [List.length_append, length_putUint] at hlen
    obtain ⟨rfl, -⟩ := uint_eq_ok (by omega) huint
    obtain ⟨remaining, _, hget, h₁₀⟩ := bind_eq_ok h₉
    cases hget
    obtain ⟨_, _, hcheck, h₁₁⟩ := bind_eq_ok h₁₀
    obtain ⟨-, rfl⟩ := check_eq_ok hcheck
    obtain ⟨_, _, hcheck, h₁₂⟩ := bind_eq_ok h₁₁
    obtain ⟨hpk, rfl⟩ := check_eq_ok hcheck
    obtain ⟨columns, _, htimes, h₁₃⟩ := bind_eq_ok h₁₂
    obtain ⟨rfl, rfl, hnames⟩ := times_eq_ok (fun _ _ _ _ => eq_putColumn_of_getColumn) htimes
    obtain ⟨_, _, hfinished, h₁₄⟩ := bind_eq_ok h₁₃
    obtain ⟨rfl, rfl⟩ := finished_eq_ok hfinished
    obtain ⟨rfl, rfl⟩ := pure_eq_ok h₁₄
    exact ⟨by simp [encodeSchema, putName, hb], htable, hnumCols, hnames, hpk⟩

theorem decodeSchema_encode_iff {s : Schema} (hcolumns : s.columns.length < 2 ^ 16)
    (hpk : s.primaryKey < s.columns.length) :
    decodeSchema (encodeSchema s) = .ok s ↔
      s.table.length < 2 ^ 16 ∧ ∀ c ∈ s.columns, c.name.length < 2 ^ 16 := by
  constructor
  · intro h
    obtain ⟨-, hfits⟩ := eq_encodeSchema_of_decode h
    exact ⟨hfits.table, hfits.names⟩
  · rintro ⟨htable, hnames⟩
    exact decodeSchema_encode ⟨htable, hcolumns, hnames, hpk⟩

/-! ## Rows -/

theorem getScalar_spec {i : Nat} {t : ColumnType} {b b' : Bytes} {v : Value}
    (h : getScalar i t b = .ok (v, b')) : v.type = t ∧ v.Fits := by
  cases t with
  | integer =>
    obtain ⟨_, _, -, h₁⟩ := bind_eq_ok h
    obtain ⟨n, _, -, h₂⟩ := bind_eq_ok h₁
    obtain ⟨rfl, -⟩ := pure_eq_ok h₂
    exact ⟨rfl, trivial⟩
  | boolean =>
    obtain ⟨_, _, -, h₁⟩ := bind_eq_ok h
    obtain ⟨n, _, -, h₂⟩ := bind_eq_ok h₁
    obtain ⟨rfl, -⟩ := pure_eq_ok h₂
    exact ⟨rfl, trivial⟩
  | text =>
    obtain ⟨_, _, hneed, h₁⟩ := bind_eq_ok h
    obtain ⟨hlen, rfl⟩ := need_eq_ok hneed
    obtain ⟨s, _, hstring, h₂⟩ := bind_eq_ok h₁
    obtain ⟨rfl, -⟩ := pure_eq_ok h₂
    exact ⟨rfl, (string_eq_ok hlen hstring).2⟩

theorem getValues_spec {i : Nat} {cs : List Column} {b b' : Bytes} {vs : List Value}
    (h : getValues i cs b = .ok (vs, b')) :
    vs.map Value.type = cs.map Column.type ∧ ∀ v ∈ vs, v.Fits := by
  induction cs generalizing i b b' vs with
  | nil =>
    obtain ⟨rfl, -⟩ := pure_eq_ok h
    exact ⟨rfl, nofun⟩
  | cons c cs ih =>
    obtain ⟨_, _, -, h₁⟩ := bind_eq_ok h
    obtain ⟨tag, _, -, h₂⟩ := bind_eq_ok h₁
    obtain ⟨_, _, -, h₃⟩ := bind_eq_ok h₂
    obtain ⟨v, _, hscalar, h₄⟩ := bind_eq_ok h₃
    obtain ⟨rest, _, hrest, h₅⟩ := bind_eq_ok h₄
    obtain ⟨rfl, -⟩ := pure_eq_ok h₅
    obtain ⟨htype, hfits⟩ := getScalar_spec hscalar
    obtain ⟨htypes, hall⟩ := ih hrest
    exact ⟨by simp [htype, htypes], by simpa using ⟨hfits, hall⟩⟩

theorem decodeRow_spec {schema : Schema} {b : Bytes} {values : List Value}
    (h : decodeRow schema b = .ok values) :
    values.map Value.type = schema.columns.map Column.type ∧ ∀ v ∈ values, v.Fits := by
  cases hdecoder : rowDecoder schema b with
  | error e => rw [decodeRow, hdecoder] at h; cases h
  | ok r =>
    rw [decodeRow, hdecoder] at h
    obtain ⟨values, b'⟩ := r
    cases h
    obtain ⟨_, _, -, h₁⟩ := bind_eq_ok hdecoder
    obtain ⟨version, _, -, h₂⟩ := bind_eq_ok h₁
    obtain ⟨_, _, -, h₃⟩ := bind_eq_ok h₂
    obtain ⟨numCols, _, -, h₄⟩ := bind_eq_ok h₃
    obtain ⟨_, _, -, h₅⟩ := bind_eq_ok h₄
    obtain ⟨values, _, hvalues, h₆⟩ := bind_eq_ok h₅
    obtain ⟨_, _, -, h₇⟩ := bind_eq_ok h₆
    obtain ⟨rfl, -⟩ := pure_eq_ok h₇
    exact getValues_spec hvalues

theorem decodeRow_encode_iff {schema : Schema} {values : List Value}
    (htypes : values.map Value.type = schema.columns.map Column.type)
    (hlen : schema.columns.length < 2 ^ 16) :
    decodeRow schema (encodeRow values) = .ok values ↔ ∀ v ∈ values, v.Fits :=
  ⟨fun h => (decodeRow_spec h).2, decodeRow_encode htypes hlen⟩

/-! ## Keys and the whole layout -/

theorem rowKey_eq_iff {s t : Bytes} (hs : IsWord s) (ht : IsWord t) {v w : Value} :
    rowKey s v = rowKey t w ↔ s = t ∧ v = w :=
  ⟨rowKey_inj hs.not_mem_zero ht.not_mem_zero, fun ⟨hst, hvw⟩ => by rw [hst, hvw]⟩

/-- What is stored for a table is read back if its names are shorter than 64 KiB and the texts
of its rows shorter than 4 GiB, which those of parsed statements are; what is accepted has the
shape of its schema; and keys tell tables, rows and schemas apart. -/
theorem layout_faithful (table : Bytes) (defs : List ColumnDef) (schema : Schema)
    (h : buildSchema table defs = .ok schema) :
    (decodeSchema (encodeSchema schema) = .ok schema ↔
      table.length < 2 ^ 16 ∧ ∀ c ∈ defs, c.name.length < 2 ^ 16) ∧
    (∀ src, parse src = .ok (.createTable table defs) →
      decodeSchema (encodeSchema schema) = .ok schema) ∧
    (∀ values : List Value, values.map Value.type = schema.columns.map Column.type →
      (decodeRow schema (encodeRow values) = .ok values ↔
        ∀ s, Value.text s ∈ values → s.length < 2 ^ 32)) ∧
    (∀ b s, decodeSchema b = .ok s → encodeSchema s = b ∧ s.primaryKey < s.columns.length) ∧
    (∀ s b values, decodeRow s b = .ok values →
      values.map Value.type = s.columns.map Column.type) ∧
    (∀ s t v w, IsWord s → IsWord t →
      (rowKey s v = rowKey t w ↔ s = t ∧ v = w) ∧ (rowKeyPrefix s <+: rowKey t v ↔ s = t)) ∧
    ∀ s t v, schemaKey s ≠ rowKey t v ∧ ¬rowKeyPrefix s <+: schemaKey t := by
  obtain ⟨htable, hcolumns, hmax, hpk⟩ := buildSchema_spec h
  have hlen : schema.columns.length < 2 ^ 16 := lt_of_le_of_lt hmax (by decide)
  have hschema : decodeSchema (encodeSchema schema) = .ok schema ↔
      table.length < 2 ^ 16 ∧ ∀ c ∈ defs, c.name.length < 2 ^ 16 := by
    rw [decodeSchema_encode_iff hlen hpk, htable, hcolumns]
    simp
  refine ⟨hschema, fun src hsrc => hschema.mpr ?_, fun values htypes => ?_, fun b s hs => ?_,
    fun s b values hrow => (decodeRow_spec hrow).1, fun s t v w hs ht => ?_, fun s t v => ?_⟩
  · obtain ⟨hname, hnames⟩ := parse_wellFormed hsrc
    have hshort : maxIdentifierBytes < 2 ^ 16 := by decide
    exact ⟨lt_of_le_of_lt hname.length_le hshort,
      fun c hc => lt_of_le_of_lt (hnames c hc).length_le hshort⟩
  · rw [decodeRow_encode_iff htypes hlen]
    refine ⟨fun hfits s hs => hfits _ hs, fun htexts v hv => ?_⟩
    cases v with
    | text s => exact htexts s hv
    | int | bool => trivial
  · obtain ⟨hb, hfits⟩ := eq_encodeSchema_of_decode hs
    exact ⟨hb.symm, hfits.primaryKey⟩
  · exact ⟨rowKey_eq_iff hs ht, rowKeyPrefix_isPrefix_rowKey hs.not_mem_zero ht.not_mem_zero⟩
  · exact ⟨schemaKey_ne_rowKey s t v, not_rowKeyPrefix_isPrefix_schemaKey s t⟩

/-- `CREATE TABLE t (k TEXT PRIMARY KEY, b BOOLEAN)`, and a row whose key is a zero byte. -/
theorem layout_faithful_textKey :
    ∃ schema, buildSchema [116] [⟨[107], .text, true⟩, ⟨[98], .boolean, false⟩] = .ok schema ∧
      decodeSchema (encodeSchema schema) = .ok schema ∧
      decodeRow schema (encodeRow [.text [0], .bool true]) = .ok [.text [0], .bool true] := by
  refine ⟨_, rfl, ?_⟩
  obtain ⟨hschema, -, hrow, -⟩ := layout_faithful [116]
    [⟨[107], .text, true⟩, ⟨[98], .boolean, false⟩] _ rfl
  refine ⟨hschema.mpr (by decide), (hrow _ rfl).mpr ?_⟩
  intro s hs
  obtain rfl : s = [0] := by simpa using hs
  decide

/-- A table name of 64 KiB, which only the parser refuses, and a text of 4 GiB are not read
back. -/
theorem layout_longNames :
    (∃ table defs schema, buildSchema table defs = .ok schema ∧
      decodeSchema (encodeSchema schema) ≠ .ok schema) ∧
    ∃ table defs schema values, buildSchema table defs = .ok schema ∧
      values.map Value.type = schema.columns.map Column.type ∧
      decodeRow schema (encodeRow values) ≠ .ok values := by
  refine ⟨⟨List.replicate (2 ^ 16) 97, [⟨[107], .text, true⟩], _, rfl, fun h => ?_⟩,
    [116], [⟨[107], .text, true⟩], _, [.text (List.replicate (2 ^ 32) 97)], rfl, rfl, fun h => ?_⟩
  · have hlen := (eq_encodeSchema_of_decode h).2.table
    rw [List.length_replicate] at hlen
    exact absurd hlen (lt_irrefl _)
  · have hlen : (List.replicate (2 ^ 32) (97 : UInt8)).length < 2 ^ 32 :=
      (decodeRow_spec h).2 _ (List.mem_singleton_self _)
    rw [List.length_replicate] at hlen
    exact absurd hlen (lt_irrefl _)

end ChronicleDB.Sql
