import ChronicleDB.Foundation.Bytes
import Mathlib.Data.List.TakeWhile

/-!
# Statements and their text

`token.go`, `lexer.go`, `ast.go` and `parser.go` of `internal/sql`.  A lexer is
what is left of the statement and its position; a parser runs over the tokens
that are left, of which the last is the end of the input.
-/

namespace ChronicleDB.Sql

open Foundation List

def ascii (s : String) : Bytes := s.toList.map fun c => UInt8.ofNat c.toNat

/-! ## Limits -/

def maxStatementBytes : Nat := 64 * 1024
def maxIdentifierBytes : Nat := 128
def maxStringLiteralBytes : Nat := 64 * 1024
def maxColumns : Nat := 64
def maxIntegerDigits : Nat := 32

/-! ## Tokens -/

inductive TokenKind where
  | eof
  | ident
  | int
  | string
  | lparen
  | rparen
  | comma
  | semicolon
  | equals
  | star
  deriving DecidableEq, Repr

/-- `text` is the folded name, the digits, or the contents of a string. -/
structure Token where
  kind : TokenKind
  text : Bytes
  pos : Nat
  deriving DecidableEq, Repr

def keywords : List Bytes :=
  ["create", "table", "insert", "into", "values", "select", "from", "where", "update", "set",
    "delete", "primary", "key", "integer", "text", "boolean", "true", "false", "begin", "commit",
    "rollback", "null"].map ascii

def isKeyword (folded : Bytes) : Bool := keywords.contains folded

/-- What a list of at most `maxColumns` items is a list of. -/
inductive Listed where
  | tableColumns
  | insertColumns
  | insertValues
  | selectColumns
  | assignments
  deriving DecidableEq, Repr

inductive ParseError where
  | statementTooLong
  | unexpectedCharacter (pos : Nat) (c : UInt8)
  | identifierTooLong (pos : Nat)
  | malformedInteger (pos : Nat)
  | integerTooLong (pos : Nat)
  | unterminatedString (pos : Nat)
  | stringTooLong (pos : Nat)
  | trailingInput (pos : Nat)
  | expected (want : TokenKind) (found : Token)
  | expectedKeyword (keyword : Bytes) (found : Token)
  | expectedIdentifier (found : Token)
  | reservedKeyword (found : Token)
  | expectedStatement (found : Token)
  | unsupportedStatement (text : Bytes)
  | tooMany (pos : Nat) (what : Listed)
  | expectedColumnType (found : Token)
  | unsupportedColumnType (text : Bytes)
  | invalidInteger (found : Token)
  | nullLiteral
  | expectedLiteral (found : Token)
  | updateWithoutWhere
  | deleteWithoutWhere
  deriving DecidableEq, Repr

/-! ## The lexer -/

def quote : UInt8 := 39
def minus : UInt8 := 45

def isSpace (c : UInt8) : Bool := c == 32 || c == 9 || c == 10 || c == 13
def isDigit (c : UInt8) : Bool := 48 ≤ c && c ≤ 57
def isUpper (c : UInt8) : Bool := 65 ≤ c && c ≤ 90
def isIdentStart (c : UInt8) : Bool := c == 95 || (97 ≤ c && c ≤ 122) || isUpper c
def isIdentCont (c : UInt8) : Bool := isIdentStart c || isDigit c

def foldIdent (s : Bytes) : Bytes := s.map fun c => if isUpper c then c - 65 + 97 else c

structure Lexer where
  pos : Nat
  rest : Bytes
  deriving DecidableEq, Repr

namespace Lexer

def advance (l : Lexer) (n : Nat) : Lexer := ⟨l.pos + n, l.rest.drop n⟩

def skipSpace (l : Lexer) : Lexer := l.advance (l.rest.takeWhile isSpace).length

def lexIdent (l : Lexer) : Except ParseError (Token × Lexer) :=
  let text := l.rest.takeWhile isIdentCont
  if text.length > maxIdentifierBytes then .error (.identifierTooLong l.pos)
  else .ok (⟨.ident, foldIdent text, l.pos⟩, l.advance text.length)

def lexInt (l : Lexer) : Except ParseError (Token × Lexer) :=
  let sign := if l.rest.head? = some minus then [minus] else []
  let digits := (l.rest.drop sign.length).takeWhile isDigit
  if digits = [] then .error (.malformedInteger l.pos)
  else if (sign ++ digits).length > maxIntegerDigits then .error (.integerTooLong l.pos)
  else .ok (⟨.int, sign ++ digits, l.pos⟩, l.advance (sign ++ digits).length)

/-- The loop of `lexString` behind the opening quote: the contents, and what is left. -/
def scanString (start : Nat) : Bytes → Bytes → Except ParseError (Bytes × Bytes)
  | _, [] => .error (.unterminatedString start)
  | acc, c :: rest =>
    if c = quote then
      match rest with
      | [] => .ok (acc, [])
      | c' :: rest' =>
        if c' = quote then scanString start (acc ++ [quote]) rest' else .ok (acc, c' :: rest')
    else if (acc ++ [c]).length > maxStringLiteralBytes then .error (.stringTooLong start)
    else scanString start (acc ++ [c]) rest

def lexString (l : Lexer) : Except ParseError (Token × Lexer) :=
  match scanString l.pos [] l.rest.tail with
  | .error e => .error e
  | .ok (text, rest) =>
    .ok (⟨.string, text, l.pos⟩, ⟨l.pos + (l.rest.length - rest.length), rest⟩)

def punctuation (c : UInt8) : Option TokenKind :=
  if c = 40 then some .lparen
  else if c = 41 then some .rparen
  else if c = 44 then some .comma
  else if c = 59 then some .semicolon
  else if c = 61 then some .equals
  else if c = 42 then some .star
  else none

def next (l : Lexer) : Except ParseError (Token × Lexer) :=
  let l := l.skipSpace
  match l.rest with
  | [] => .ok (⟨.eof, [], l.pos⟩, l)
  | c :: rest =>
    match punctuation c with
    | some kind => .ok (⟨kind, [], l.pos⟩, l.advance 1)
    | none =>
      if c = quote then l.lexString
      else if isDigit c || (c == minus && rest.head?.any isDigit) then l.lexInt
      else if isIdentStart c then l.lexIdent
      else .error (.unexpectedCharacter l.pos c)

/-- The loop of `Parse` over the tokens. Every token but the last takes a byte, so that a
number of turns above the length of the input is never used up (`tokens_getLast`). -/
def tokens : Nat → Lexer → Except ParseError (List Token)
  | 0, _ => .ok []
  | turns + 1, l =>
    match l.next with
    | .error e => .error e
    | .ok (t, l) =>
      if t.kind = .eof then .ok [t]
      else match tokens turns l with
        | .error e => .error e
        | .ok ts => .ok (t :: ts)

end Lexer

/-! ## Statements -/

inductive ColumnType where
  | integer
  | text
  | boolean
  deriving DecidableEq, Repr

inductive Literal where
  | int (i : Int64)
  | str (s : Bytes)
  | bool (b : Bool)
  deriving DecidableEq

structure ColumnDef where
  name : Bytes
  type : ColumnType
  primaryKey : Bool
  deriving DecidableEq

structure Predicate where
  column : Bytes
  value : Literal
  deriving DecidableEq

structure Assignment where
  column : Bytes
  value : Literal
  deriving DecidableEq

inductive Statement where
  | createTable (table : Bytes) (columns : List ColumnDef)
  | insert (table : Bytes) (columns : Option (List Bytes)) (values : List Literal)
  | select (table : Bytes) (columns : Option (List Bytes)) (pred : Option Predicate)
  | update (table : Bytes) (assignments : List Assignment) (pred : Predicate)
  | delete (table : Bytes) (pred : Predicate)
  | start
  | commit
  | rollback
  deriving DecidableEq

/-! ## The parser -/

abbrev Parser := StateT (List Token) (Except ParseError)

namespace Parser

def peek : Parser Token := fun toks => .ok (toks.headD ⟨.eof, [], 0⟩, toks)

/-- The last token is never passed. -/
def advance : Parser Unit := fun toks =>
  match toks with
  | _ :: t :: rest => .ok ((), t :: rest)
  | toks => .ok ((), toks)

def expect (kind : TokenKind) : Parser Unit := do
  let t ← peek
  if t.kind = kind then advance else throw (.expected kind t)

def isWord (t : Token) (keyword : String) : Bool := t.kind = .ident && t.text = ascii keyword

def expectKeyword (keyword : String) : Parser Unit := do
  let t ← peek
  if isWord t keyword then advance else throw (.expectedKeyword (ascii keyword) t)

def expectName : Parser Bytes := do
  let t ← peek
  if t.kind ≠ .ident then throw (.expectedIdentifier t)
  else if isKeyword t.text then throw (.reservedKeyword t)
  else do
    advance
    pure t.text

/-- The loops over lists of at most `left + maxColumns` items with commas between them,
of which `maxColumns - left` have been read. -/
def commaList {α : Type} (what : Listed) (item : Parser α) : Nat → Parser (List α)
  | 0 => do
      let _ ← item
      let t ← peek
      throw (.tooMany t.pos what)
  | left + 1 => do
      let a ← item
      let t ← peek
      if t.kind = .comma then do
        advance
        let as ← commaList what item left
        pure (a :: as)
      else pure [a]

def digitsValue (digits : Bytes) : Nat := digits.foldl (fun n c => 10 * n + (c.toNat - 48)) 0

/-- `strconv.ParseInt` in base 10 and 64 bits, on what the lexer takes for an integer. -/
def parseIntLiteral (text : Bytes) : Option Int64 :=
  if text.head? = some minus then
    let n := digitsValue text.tail
    if n ≤ 2 ^ 63 then some (Int64.ofInt (-n)) else none
  else
    let n := digitsValue text
    if n < 2 ^ 63 then some (Int64.ofInt n) else none

def parseLiteral : Parser Literal := do
  let t ← peek
  match t.kind with
  | .int => do
      advance
      match parseIntLiteral t.text with
      | none => throw (.invalidInteger t)
      | some i => pure (.int i)
  | .string => do
      advance
      pure (.str t.text)
  | _ =>
    if isWord t "true" then do
      advance
      pure (.bool true)
    else if isWord t "false" then do
      advance
      pure (.bool false)
    else if isWord t "null" then throw .nullLiteral
    else throw (.expectedLiteral t)

def parsePredicate : Parser Predicate := do
  let column ← expectName
  expect .equals
  let value ← parseLiteral
  pure ⟨column, value⟩

def columnTypeFromKeyword (text : Bytes) : Option ColumnType :=
  if text = ascii "integer" then some .integer
  else if text = ascii "text" then some .text
  else if text = ascii "boolean" then some .boolean
  else none

def parseColumnDef : Parser ColumnDef := do
  let name ← expectName
  let t ← peek
  if t.kind ≠ .ident then throw (.expectedColumnType t)
  else match columnTypeFromKeyword t.text with
    | none => throw (.unsupportedColumnType t.text)
    | some type => do
        advance
        let t ← peek
        if isWord t "primary" then do
          advance
          expectKeyword "key"
          pure ⟨name, type, true⟩
        else pure ⟨name, type, false⟩

def parseCreateTable : Parser Statement := do
  expectKeyword "create"
  expectKeyword "table"
  let table ← expectName
  expect .lparen
  let columns ← commaList .tableColumns parseColumnDef maxColumns
  expect .rparen
  pure (.createTable table columns)

def parseInsertColumns : Parser (Option (List Bytes)) := do
  let t ← peek
  if t.kind = .lparen then do
    advance
    let columns ← commaList .insertColumns expectName maxColumns
    expect .rparen
    pure (some columns)
  else pure none

def parseInsert : Parser Statement := do
  expectKeyword "insert"
  expectKeyword "into"
  let table ← expectName
  let columns ← parseInsertColumns
  expectKeyword "values"
  expect .lparen
  let values ← commaList .insertValues parseLiteral maxColumns
  expect .rparen
  pure (.insert table columns values)

def parseProjection : Parser (Option (List Bytes)) := do
  let t ← peek
  if t.kind = .star then do
    advance
    pure none
  else do
    let columns ← commaList .selectColumns expectName maxColumns
    pure (some columns)

def parseWhere : Parser (Option Predicate) := do
  let t ← peek
  if isWord t "where" then do
    advance
    let pred ← parsePredicate
    pure (some pred)
  else pure none

def parseSelect : Parser Statement := do
  expectKeyword "select"
  let columns ← parseProjection
  expectKeyword "from"
  let table ← expectName
  let pred ← parseWhere
  pure (.select table columns pred)

def parseAssignment : Parser Assignment := do
  let column ← expectName
  expect .equals
  let value ← parseLiteral
  pure ⟨column, value⟩

def requireWhere (missing : ParseError) : Parser Predicate := do
  let t ← peek
  if isWord t "where" then do
    advance
    parsePredicate
  else throw missing

def parseUpdate : Parser Statement := do
  expectKeyword "update"
  let table ← expectName
  expectKeyword "set"
  let assignments ← commaList .assignments parseAssignment maxColumns
  let pred ← requireWhere .updateWithoutWhere
  pure (.update table assignments pred)

def parseDelete : Parser Statement := do
  expectKeyword "delete"
  expectKeyword "from"
  let table ← expectName
  let pred ← requireWhere .deleteWithoutWhere
  pure (.delete table pred)

def parseStatement : Parser Statement := do
  let t ← peek
  if t.kind ≠ .ident then throw (.expectedStatement t)
  else if t.text = ascii "create" then parseCreateTable
  else if t.text = ascii "insert" then parseInsert
  else if t.text = ascii "select" then parseSelect
  else if t.text = ascii "update" then parseUpdate
  else if t.text = ascii "delete" then parseDelete
  else if t.text = ascii "begin" then do
    advance
    pure .start
  else if t.text = ascii "commit" then do
    advance
    pure .commit
  else if t.text = ascii "rollback" then do
    advance
    pure .rollback
  else throw (.unsupportedStatement t.text)

def parseInput : Parser Statement := do
  let stmt ← parseStatement
  let t ← peek
  if t.kind = .semicolon then advance
  let t ← peek
  if t.kind ≠ .eof then throw (.trailingInput t.pos) else pure stmt

end Parser

def parse (src : Bytes) : Except ParseError Statement :=
  if src.length > maxStatementBytes then .error .statementTooLong
  else match Lexer.tokens (src.length + 1) ⟨0, src⟩ with
    | .error e => .error e
    | .ok toks =>
      match Parser.parseInput toks with
      | .error e => .error e
      | .ok (stmt, _) => .ok stmt

/-! ## What is accepted -/

/-- A word of the input: letters, digits and underscores. -/
structure IsWord (text : Bytes) : Prop where
  ne_nil : text ≠ []
  length_le : text.length ≤ maxIdentifierBytes
  cont : ∀ c ∈ text, isIdentCont c = true

def Token.Valid (t : Token) : Prop :=
  match t.kind with
  | .ident => IsWord t.text
  | .string => t.text.length ≤ maxStringLiteralBytes
  | _ => True

theorem isIdentCont_fold (c : UInt8) (h : isIdentCont c = true) :
    isIdentCont (if isUpper c then c - 65 + 97 else c) = true := by
  have hall : ∀ n : Fin 256, isIdentCont (.ofFin n) = true →
      isIdentCont (if isUpper (.ofFin n) then .ofFin n - 65 + 97 else .ofFin n) = true := by
    decide +kernel
  exact hall c.toFin h

theorem IsWord.not_mem_zero {text : Bytes} (h : IsWord text) : 0 ∉ text := fun hmem => by
  have := h.cont 0 hmem
  revert this
  decide

namespace Lexer

variable {l l' : Lexer} {t : Token}

theorem lexIdent_spec {c : UInt8} {rest : Bytes} (hrest : l.rest = c :: rest)
    (hc : isIdentStart c = true) (h : l.lexIdent = .ok (t, l')) :
    t.Valid ∧ l'.rest.length < l.rest.length := by
  have hcont : isIdentCont c = true := by rw [isIdentCont, hc, Bool.true_or]
  rw [lexIdent, hrest] at h
  split at h
  · cases h
  rename_i hlen
  cases h
  refine ⟨⟨?_, ?_, ?_⟩, ?_⟩
  · simp [foldIdent, hcont]
  · simpa [foldIdent] using hlen
  · intro b hb
    obtain ⟨b, hmem, rfl⟩ := mem_map.mp hb
    exact isIdentCont_fold b (mem_takeWhile_imp hmem)
  · simp only [advance, hrest, takeWhile_cons_of_pos hcont, length_drop, length_cons]
    omega

theorem lexInt_spec (h : l.lexInt = .ok (t, l')) : t.Valid ∧ l'.rest.length < l.rest.length := by
  rw [lexInt] at h
  generalize (if l.rest.head? = some minus then [minus] else []) = sign at h
  split at h
  · cases h
  rename_i hdigits
  split at h
  · cases h
  cases h
  refine ⟨trivial, ?_⟩
  cases hrest : l.rest with
  | nil => simp [hrest] at hdigits
  | cons c rest =>
    have hpos := length_pos_iff.mpr hdigits
    simp only [advance, length_append, length_drop, hrest] at hpos ⊢
    simp only [length_cons]
    omega

theorem scanString_spec {start : Nat} {acc src text rest : Bytes}
    (h : scanString start acc src = .ok (text, rest)) :
    text.length ≤ acc.length + src.length ∧ rest.length < src.length := by
  fun_induction scanString start acc src with
  | case1 | case5 => cases h
  | case2 acc =>
    cases h
    simp
  | case3 acc rest' ih =>
    have := ih h
    simp only [length_append, length_cons, length_nil] at this ⊢
    omega
  | case4 acc c' rest' =>
    cases h
    simp only [length_cons]
    omega
  | case6 acc c rest' hc hlen ih =>
    have := ih h
    simp only [length_append, length_cons, length_nil] at this ⊢
    omega

theorem lexString_spec {c : UInt8} {rest : Bytes} (hrest : l.rest = c :: rest)
    (hlen : l.rest.length ≤ maxStringLiteralBytes) (h : l.lexString = .ok (t, l')) :
    t.Valid ∧ l'.rest.length < l.rest.length := by
  rw [lexString] at h
  split at h
  · cases h
  rename_i text rest' hscan
  cases h
  obtain ⟨htext, hrest'⟩ := scanString_spec hscan
  rw [hrest] at hlen htext hrest' ⊢
  simp only [tail_cons, length_cons, length_nil] at hlen htext hrest' ⊢
  exact ⟨Nat.le_trans htext (by omega), by omega⟩

theorem length_skipSpace_le (l : Lexer) : l.skipSpace.rest.length ≤ l.rest.length := by
  simp [skipSpace, advance]

theorem next_spec (hlen : l.rest.length ≤ maxStringLiteralBytes) (h : l.next = .ok (t, l')) :
    t.Valid ∧ l'.rest.length ≤ l.rest.length ∧
      (t.kind ≠ .eof → l'.rest.length < l.rest.length) := by
  have hskip := l.length_skipSpace_le
  suffices t.Valid ∧ (t.kind ≠ .eof → l'.rest.length < l.skipSpace.rest.length) ∧
      l'.rest.length ≤ l.skipSpace.rest.length by
    obtain ⟨hvalid, hlt, hle⟩ := this
    exact ⟨hvalid, Nat.le_trans hle hskip, fun hne => Nat.lt_of_lt_of_le (hlt hne) hskip⟩
  rw [next] at h
  split at h
  case h_1 =>
    cases h
    exact ⟨trivial, fun hne => absurd rfl hne, Nat.le_refl _⟩
  case h_2 c rest hrest =>
    have hshort : ∀ {q : Prop}, q ∧ l'.rest.length < l.skipSpace.rest.length →
        q ∧ (t.kind ≠ .eof → l'.rest.length < l.skipSpace.rest.length) ∧
          l'.rest.length ≤ l.skipSpace.rest.length :=
      fun hq => ⟨hq.1, fun _ => hq.2, Nat.le_of_lt hq.2⟩
    apply hshort
    split at h
    case h_1 kind hkind =>
      cases h
      refine ⟨?_, by simp [advance, hrest]⟩
      unfold punctuation at hkind
      grind [Token.Valid]
    case h_2 =>
      split at h
      · exact lexString_spec hrest (Nat.le_trans hskip hlen) h
      · split at h
        · exact lexInt_spec h
        · split at h
          case isTrue hstart => exact lexIdent_spec hrest hstart h
          case isFalse => cases h

theorem tokens_valid {turns : Nat} {l : Lexer} {ts : List Token}
    (hlen : l.rest.length ≤ maxStringLiteralBytes) (h : tokens turns l = .ok ts) :
    ∀ t ∈ ts, t.Valid := by
  fun_induction tokens turns l generalizing ts with
  | case1 => cases h; simp
  | case2 | case4 => cases h
  | case3 turns l t l' hnext hkind =>
    cases h
    simpa using (next_spec hlen hnext).1
  | case5 turns l t l' hnext hkind ts' hts ih =>
    cases h
    obtain ⟨hvalid, hle, -⟩ := next_spec hlen hnext
    simpa [hvalid] using ih (Nat.le_trans hle hlen) hts

end Lexer

/-- A name that a statement can use: a word that is no keyword. -/
structure IsName (text : Bytes) : Prop extends IsWord text where
  not_keyword : isKeyword text = false

def Literal.Bounded : Literal → Prop
  | .str s => s.length ≤ maxStringLiteralBytes
  | _ => True

structure Predicate.WellFormed (p : Predicate) : Prop where
  column : IsName p.column
  value : p.value.Bounded

structure Assignment.WellFormed (a : Assignment) : Prop where
  column : IsName a.column
  value : a.value.Bounded

/-- What a statement names are names, and its literals are bounded. -/
def Statement.WellFormed : Statement → Prop
  | .createTable table columns => IsName table ∧ ∀ c ∈ columns, IsName c.name
  | .insert table columns values =>
    IsName table ∧ (∀ names ∈ columns, ∀ n ∈ names, IsName n) ∧ ∀ v ∈ values, v.Bounded
  | .select table columns pred =>
    IsName table ∧ (∀ names ∈ columns, ∀ n ∈ names, IsName n) ∧ ∀ p ∈ pred, p.WellFormed
  | .update table assignments pred =>
    IsName table ∧ (∀ a ∈ assignments, a.WellFormed) ∧ pred.WellFormed
  | .delete table pred => IsName table ∧ pred.WellFormed
  | .start | .commit | .rollback => True

namespace Parser

variable {α β : Type}

/-- On valid tokens, what `p` returns satisfies `Q`. -/
def Ensures (p : Parser α) (Q : α → Prop) : Prop :=
  ∀ toks, (∀ t ∈ toks, t.Valid) → ∀ a toks', p toks = .ok (a, toks') →
    Q a ∧ ∀ t ∈ toks', t.Valid

theorem ensures_pure {Q : α → Prop} {a : α} (h : Q a) : Ensures (pure a) Q := by
  rintro toks htoks b toks' heq
  cases heq
  exact ⟨h, htoks⟩

theorem ensures_throw {Q : α → Prop} (e : ParseError) : Ensures (throw e) Q := by
  rintro toks htoks b toks' heq
  cases heq

theorem Ensures.bind {p : Parser α} {f : α → Parser β} {Q : α → Prop} {R : β → Prop}
    (hp : Ensures p Q) (hf : ∀ a, Q a → Ensures (f a) R) : Ensures (p >>= f) R := by
  intro toks htoks b toks' heq
  change (p toks >>= fun r => f r.1 r.2) = _ at heq
  cases hrun : p toks with
  | error e =>
    rw [hrun] at heq
    cases heq
  | ok r =>
    rw [hrun] at heq
    obtain ⟨hQ, hvalid⟩ := hp toks htoks r.1 r.2 hrun
    exact hf r.1 hQ r.2 hvalid b toks' heq

theorem ensures_ite {c : Prop} [Decidable c] {p q : Parser α} {Q : α → Prop}
    (hp : c → Ensures p Q) (hq : ¬c → Ensures q Q) : Ensures (if c then p else q) Q := by
  split
  case isTrue h => exact hp h
  case isFalse h => exact hq h

theorem ensures_peek : Ensures peek Token.Valid := by
  rintro toks htoks t toks' heq
  cases heq
  refine ⟨?_, htoks⟩
  cases toks with
  | nil => trivial
  | cons t toks => exact htoks t (by simp)

theorem ensures_advance : Ensures advance fun _ => True := by
  intro toks htoks u toks' heq
  refine ⟨trivial, fun t ht => ?_⟩
  unfold advance at heq
  split at heq
  · cases heq
    exact htoks t (mem_cons_of_mem _ ht)
  · cases heq
    exact htoks t ht

theorem ensures_expect (kind : TokenKind) : Ensures (expect kind) fun _ => True :=
  ensures_peek.bind fun _ _ => ensures_ite (fun _ => ensures_advance) fun _ => ensures_throw _

theorem ensures_expectKeyword (keyword : String) :
    Ensures (expectKeyword keyword) fun _ => True :=
  ensures_peek.bind fun _ _ => ensures_ite (fun _ => ensures_advance) fun _ => ensures_throw _

theorem ensures_expectName : Ensures expectName IsName := by
  refine ensures_peek.bind fun t ht => ensures_ite (fun _ => ensures_throw _) fun hkind =>
    ensures_ite (fun _ => ensures_throw _) fun hword => ensures_advance.bind fun _ _ => ?_
  have hident : t.kind = .ident := not_not.mp hkind
  rw [Token.Valid, hident] at ht
  exact ensures_pure ⟨ht, by simpa using hword⟩

theorem ensures_commaList {what : Listed} {item : Parser α} {Q : α → Prop}
    (h : Ensures item Q) (left : Nat) :
    Ensures (commaList what item left) fun as => ∀ a ∈ as, Q a := by
  induction left with
  | zero => exact h.bind fun _ _ => ensures_peek.bind fun _ _ => ensures_throw _
  | succ left ih =>
    refine h.bind fun a ha => ensures_peek.bind fun t _ => ensures_ite (fun _ => ?_) fun _ => ?_
    · refine ensures_advance.bind fun _ _ => ih.bind fun as has => ensures_pure ?_
      simpa [ha] using has
    · exact ensures_pure (by simpa using ha)

theorem ensures_parseLiteral : Ensures parseLiteral Literal.Bounded := by
  refine ensures_peek.bind fun t ht => ?_
  split
  case h_1 =>
    refine ensures_advance.bind fun _ _ => ?_
    split
    · exact ensures_throw _
    · exact ensures_pure trivial
  case h_2 hkind =>
    rw [Token.Valid, hkind] at ht
    exact ensures_advance.bind fun _ _ => ensures_pure ht
  case h_3 =>
    refine ensures_ite (fun _ => ensures_advance.bind fun _ _ => ensures_pure trivial) fun _ => ?_
    refine ensures_ite (fun _ => ensures_advance.bind fun _ _ => ensures_pure trivial) fun _ => ?_
    exact ensures_ite (fun _ => ensures_throw _) fun _ => ensures_throw _

theorem ensures_parsePredicate : Ensures parsePredicate Predicate.WellFormed :=
  ensures_expectName.bind fun _ hname => (ensures_expect _).bind fun _ _ =>
    ensures_parseLiteral.bind fun _ hvalue => ensures_pure ⟨hname, hvalue⟩

theorem ensures_parseAssignment : Ensures parseAssignment Assignment.WellFormed :=
  ensures_expectName.bind fun _ hname => (ensures_expect _).bind fun _ _ =>
    ensures_parseLiteral.bind fun _ hvalue => ensures_pure ⟨hname, hvalue⟩

theorem ensures_parseColumnDef : Ensures parseColumnDef fun c => IsName c.name := by
  refine ensures_expectName.bind fun name hname => ensures_peek.bind fun t _ =>
    ensures_ite (fun _ => ensures_throw _) fun _ => ?_
  split
  · exact ensures_throw _
  · refine ensures_advance.bind fun _ _ => ensures_peek.bind fun t _ =>
      ensures_ite (fun _ => ?_) fun _ => ensures_pure hname
    exact ensures_advance.bind fun _ _ => (ensures_expectKeyword _).bind fun _ _ =>
      ensures_pure hname

theorem ensures_parseInsertColumns :
    Ensures parseInsertColumns fun columns => ∀ names ∈ columns, ∀ n ∈ names, IsName n := by
  refine ensures_peek.bind fun t _ => ensures_ite (fun _ => ?_) fun _ => ensures_pure (by simp)
  refine ensures_advance.bind fun _ _ => (ensures_commaList ensures_expectName _).bind
    fun names hnames => (ensures_expect _).bind fun _ _ => ensures_pure ?_
  simpa using hnames

theorem ensures_parseProjection :
    Ensures parseProjection fun columns => ∀ names ∈ columns, ∀ n ∈ names, IsName n := by
  refine ensures_peek.bind fun t _ => ensures_ite (fun _ => ?_) fun _ => ?_
  · exact ensures_advance.bind fun _ _ => ensures_pure (by simp)
  · refine (ensures_commaList ensures_expectName _).bind fun names hnames => ensures_pure ?_
    simpa using hnames

theorem ensures_parseWhere : Ensures parseWhere fun pred => ∀ p ∈ pred, p.WellFormed := by
  refine ensures_peek.bind fun t _ => ensures_ite (fun _ => ?_) fun _ => ensures_pure (by simp)
  refine ensures_advance.bind fun _ _ => ensures_parsePredicate.bind fun p hp => ensures_pure ?_
  simpa using hp

theorem ensures_requireWhere (missing : ParseError) :
    Ensures (requireWhere missing) Predicate.WellFormed :=
  ensures_peek.bind fun _ _ => ensures_ite
    (fun _ => ensures_advance.bind fun _ _ => ensures_parsePredicate) fun _ => ensures_throw _

theorem ensures_parseCreateTable : Ensures parseCreateTable Statement.WellFormed :=
  (ensures_expectKeyword _).bind fun _ _ => (ensures_expectKeyword _).bind fun _ _ =>
    ensures_expectName.bind fun _ htable => (ensures_expect _).bind fun _ _ =>
    (ensures_commaList ensures_parseColumnDef _).bind fun _ hcolumns =>
    (ensures_expect _).bind fun _ _ => ensures_pure ⟨htable, hcolumns⟩

theorem ensures_parseInsert : Ensures parseInsert Statement.WellFormed :=
  (ensures_expectKeyword _).bind fun _ _ => (ensures_expectKeyword _).bind fun _ _ =>
    ensures_expectName.bind fun _ htable => ensures_parseInsertColumns.bind fun _ hcolumns =>
    (ensures_expectKeyword _).bind fun _ _ => (ensures_expect _).bind fun _ _ =>
    (ensures_commaList ensures_parseLiteral _).bind fun _ hvalues =>
    (ensures_expect _).bind fun _ _ => ensures_pure ⟨htable, hcolumns, hvalues⟩

theorem ensures_parseSelect : Ensures parseSelect Statement.WellFormed :=
  (ensures_expectKeyword _).bind fun _ _ => ensures_parseProjection.bind fun _ hcolumns =>
    (ensures_expectKeyword _).bind fun _ _ => ensures_expectName.bind fun _ htable =>
    ensures_parseWhere.bind fun _ hpred => ensures_pure ⟨htable, hcolumns, hpred⟩

theorem ensures_parseUpdate : Ensures parseUpdate Statement.WellFormed :=
  (ensures_expectKeyword _).bind fun _ _ => ensures_expectName.bind fun _ htable =>
    (ensures_expectKeyword _).bind fun _ _ =>
    (ensures_commaList ensures_parseAssignment _).bind fun _ hassignments =>
    (ensures_requireWhere _).bind fun _ hpred => ensures_pure ⟨htable, hassignments, hpred⟩

theorem ensures_parseDelete : Ensures parseDelete Statement.WellFormed :=
  (ensures_expectKeyword _).bind fun _ _ => (ensures_expectKeyword _).bind fun _ _ =>
    ensures_expectName.bind fun _ htable =>
    (ensures_requireWhere _).bind fun _ hpred => ensures_pure ⟨htable, hpred⟩

theorem ensures_parseStatement : Ensures parseStatement Statement.WellFormed :=
  ensures_peek.bind fun _ _ =>
    ensures_ite (fun _ => ensures_throw _) fun _ =>
    ensures_ite (fun _ => ensures_parseCreateTable) fun _ =>
    ensures_ite (fun _ => ensures_parseInsert) fun _ =>
    ensures_ite (fun _ => ensures_parseSelect) fun _ =>
    ensures_ite (fun _ => ensures_parseUpdate) fun _ =>
    ensures_ite (fun _ => ensures_parseDelete) fun _ =>
    ensures_ite (fun _ => ensures_advance.bind fun _ _ => ensures_pure trivial) fun _ =>
    ensures_ite (fun _ => ensures_advance.bind fun _ _ => ensures_pure trivial) fun _ =>
    ensures_ite (fun _ => ensures_advance.bind fun _ _ => ensures_pure trivial) fun _ =>
    ensures_throw _

theorem ensures_parseInput : Ensures parseInput Statement.WellFormed := by
  refine ensures_parseStatement.bind fun stmt hstmt => ensures_peek.bind fun t _ => ?_
  have hend : ∀ u : PUnit, True → Ensures (do
      let t ← peek
      if t.kind ≠ .eof then throw (.trailingInput t.pos) else pure stmt) Statement.WellFormed :=
    fun _ _ => ensures_peek.bind fun _ _ =>
      ensures_ite (fun _ => ensures_throw _) fun _ => ensures_pure hstmt
  dsimp only
  exact ensures_ite (fun _ => ensures_advance.bind hend) fun _ => hend () trivial

end Parser

theorem parse_wellFormed {src : Bytes} {stmt : Statement} (h : parse src = .ok stmt) :
    stmt.WellFormed := by
  rw [parse] at h
  split at h
  · cases h
  rename_i hlen
  split at h
  · cases h
  rename_i toks htoks
  split at h
  · cases h
  rename_i stmt' toks' hparse
  cases h
  have hshort : src.length ≤ maxStringLiteralBytes := Nat.not_lt.mp hlen
  have hvalid := Lexer.tokens_valid hshort htoks
  exact (Parser.ensures_parseInput toks hvalid _ _ hparse).1

example : parse (ascii "INSERT INTO T (a, b) VALUES (-12, 'it''s');") =
    .ok (.insert (ascii "t") (some [ascii "a", ascii "b"]) [.int (-12), .str (ascii "it's")]) := by
  decide +kernel

end ChronicleDB.Sql
