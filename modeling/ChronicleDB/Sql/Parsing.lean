import ChronicleDB.Sql.Lexing

/-!
# Statements and their tokens

The grammar of `internal/sql/parser.go` as the lexemes of each statement, and that
the parser accepts exactly them.  `Exact` says of a parser which tokens it takes for
which result; its rules follow the parser's own structure.
-/

namespace ChronicleDB.Sql

open Foundation List

variable {rest toks : List Token} {xs ys : List Lexeme} {x : Lexeme} {s : String}
    {stmt : Statement}

/-! ## The grammar -/

def keyword (s : String) : Lexeme := .word (ascii s)

def Literal.lexeme : Literal → Lexeme
  | .int i => .int i
  | .str s => .str s
  | .bool true => keyword "true"
  | .bool false => keyword "false"

def ColumnType.lexeme : ColumnType → Lexeme
  | .integer => keyword "integer"
  | .text => keyword "text"
  | .boolean => keyword "boolean"

def ColumnDef.lexemes (c : ColumnDef) : List Lexeme :=
  [.word c.name, c.type.lexeme] ++ if c.primaryKey then [keyword "primary", keyword "key"] else []

def Predicate.lexemes (p : Predicate) : List Lexeme :=
  [.word p.column, .punct .equals, p.value.lexeme]

def Assignment.lexemes (a : Assignment) : List Lexeme :=
  [.word a.column, .punct .equals, a.value.lexeme]

def nameLexemes (name : Bytes) : List Lexeme := [.word name]

def valueLexemes (value : Literal) : List Lexeme := [value.lexeme]

def commaSeparated {α : Type} (item : α → List Lexeme) : List α → List Lexeme
  | [] => []
  | [a] => item a
  | a :: as => item a ++ .punct .comma :: commaSeparated item as

def parenthesized (xs : List Lexeme) : List Lexeme := .punct .lparen :: (xs ++ [.punct .rparen])

def whereLexemes (pred : Predicate) : List Lexeme := keyword "where" :: pred.lexemes

def Statement.keyword : Statement → String
  | .createTable .. => "create"
  | .insert .. => "insert"
  | .select .. => "select"
  | .update .. => "update"
  | .delete .. => "delete"
  | .start => "begin"
  | .commit => "commit"
  | .rollback => "rollback"

def Statement.clauses : Statement → List Lexeme
  | .createTable table columns =>
    Sql.keyword "table" :: .word table ::
      parenthesized (commaSeparated ColumnDef.lexemes columns)
  | .insert table columns values =>
    Sql.keyword "into" :: .word table ::
      ((columns.elim [] fun names => parenthesized (commaSeparated nameLexemes names)) ++
        Sql.keyword "values" :: parenthesized (commaSeparated valueLexemes values))
  | .select table columns pred =>
    (columns.elim [.punct .star] fun names => commaSeparated nameLexemes names) ++
      Sql.keyword "from" :: .word table :: pred.elim [] whereLexemes
  | .update table assignments pred =>
    .word table :: Sql.keyword "set" ::
      (commaSeparated Assignment.lexemes assignments ++ whereLexemes pred)
  | .delete table pred => Sql.keyword "from" :: .word table :: whereLexemes pred
  | .start | .commit | .rollback => []

def Statement.lexemes (stmt : Statement) : List Lexeme :=
  Sql.keyword stmt.keyword :: stmt.clauses

/-- A word of the text, folded to lower case. -/
structure IsFoldedWord (text : Bytes) : Prop where
  start : ∃ c ∈ text.head?, isIdentStart c = true
  cont : ∀ c ∈ text, isIdentCont c = true
  length_le : text.length ≤ maxIdentifierBytes
  folded : foldIdent text = text

structure IsIdentifier (text : Bytes) : Prop extends IsFoldedWord text where
  not_keyword : isKeyword text = false

structure IsListOf {α : Type} (P : α → Prop) (as : List α) : Prop where
  ne_nil : as ≠ []
  length_le : as.length ≤ maxColumns
  forall_mem : ∀ a ∈ as, P a

/-- The statements of the subset: their names are identifiers, and their lists have at least one
and at most `maxColumns` items. -/
def Statement.Supported : Statement → Prop
  | .createTable table columns =>
    IsIdentifier table ∧ IsListOf (fun c => IsIdentifier c.name) columns
  | .insert table columns values =>
    IsIdentifier table ∧ (∀ names ∈ columns, IsListOf IsIdentifier names) ∧
      IsListOf (fun _ => True) values
  | .select table columns pred =>
    IsIdentifier table ∧ (∀ names ∈ columns, IsListOf IsIdentifier names) ∧
      ∀ p ∈ pred, IsIdentifier p.column
  | .update table assignments pred =>
    IsIdentifier table ∧ IsListOf (fun a => IsIdentifier a.column) assignments ∧
      IsIdentifier pred.column
  | .delete table pred => IsIdentifier table ∧ IsIdentifier pred.column
  | .start | .commit | .rollback => True

/-! ## Spans of tokens -/

theorem spans_append :
    Spans (xs ++ ys) toks rest ↔ ∃ mid, Spans xs toks mid ∧ Spans ys mid rest := by
  induction xs generalizing toks with
  | nil => simp [Spans]
  | cons x xs ih =>
    simp only [cons_append, Spans, ih]
    constructor
    · rintro ⟨t, toks', rfl, ht, mid, hmid, hrest⟩
      exact ⟨mid, ⟨t, toks', rfl, ht, hmid⟩, hrest⟩
    · rintro ⟨mid, ⟨t, toks', rfl, ht, hmid⟩, hrest⟩
      exact ⟨t, toks', rfl, ht, mid, hmid, hrest⟩

theorem Spans.append {mid : List Token} (h : Spans xs toks mid)
    (h' : Spans ys mid rest) : Spans (xs ++ ys) toks rest :=
  spans_append.mpr ⟨mid, h, h'⟩

theorem Spans.uncons (h : Spans (x :: xs) toks rest) : ∃ mid, Spans [x] toks mid ∧ Spans xs mid rest :=
  spans_append.mp (show Spans ([x] ++ xs) toks rest from h)

theorem spans_singleton :
    Spans [x] toks rest ↔ ∃ t, toks = t :: rest ∧ t.Is x := by
  constructor
  · rintro ⟨t, _, rfl, ht, rfl⟩
    exact ⟨t, rfl, ht⟩
  · rintro ⟨t, rfl, ht⟩
    exact ⟨t, rest, rfl, ht, rfl⟩

/-- Tokens as the lexer leaves them: the end is the last and only the last, and words are
folded. -/
structure Good (toks : List Token) : Prop where
  ends : ∃ front e, toks = front ++ [e] ∧ e.kind = .eof ∧ ∀ t ∈ front, t.kind ≠ .eof
  words : ∀ t ∈ toks, t.kind = .ident → IsFoldedWord t.text

theorem Good.tail {t : Token} (h : Good (t :: toks)) (ht : t.kind ≠ .eof) :
    Good toks := by
  obtain ⟨front, e, heq, he, hfront⟩ := h.ends
  refine ⟨?_, fun s hs => h.words s (mem_cons_of_mem _ hs)⟩
  cases front with
  | nil =>
    obtain ⟨rfl, -⟩ := cons.inj heq
    exact absurd he ht
  | cons s front =>
    obtain ⟨-, rfl⟩ := cons.inj heq
    exact ⟨front, e, rfl, he, fun t ht => hfront t (mem_cons_of_mem _ ht)⟩

theorem Good.eq_singleton {t : Token} (h : Good (t :: toks)) (ht : t.kind = .eof) : toks = [] := by
  obtain ⟨front, e, heq, -, hfront⟩ := h.ends
  cases front with
  | nil => exact (cons.inj heq).2
  | cons s front =>
    obtain ⟨rfl, -⟩ := cons.inj heq
    exact absurd ht (hfront t (by simp))

theorem Good.ne_nil (h : Good toks) : ∃ t tail, toks = t :: tail := by
  obtain ⟨front, e, rfl, -⟩ := h.ends
  cases front with
  | nil => exact ⟨e, [], rfl⟩
  | cons t front => exact ⟨t, front ++ [e], rfl⟩

/-! ## Exact parsers -/

namespace Parser

variable {α β : Type}

/-- On tokens that begin with `t`, the parser takes the tokens up to `rest` for `a` exactly if
`R` says so. -/
structure ExactAt (t : Token) (p : Parser α) (R : α → List Token → List Token → Prop) : Prop where
  iff : ∀ {tail}, Good (t :: tail) → ∀ {a rest},
    p (t :: tail) = .ok (a, rest) ↔ R a (t :: tail) rest
  good : ∀ {tail}, Good (t :: tail) → ∀ {a rest}, R a (t :: tail) rest → Good rest

def Exact (p : Parser α) (R : α → List Token → List Token → Prop) : Prop := ∀ t, ExactAt t p R

variable {t : Token} {p : Parser α} {R R' : α → List Token → List Token → Prop}

theorem ExactAt.congr (h : ExactAt t p R)
    (hR : ∀ {tail}, Good (t :: tail) → ∀ {a rest}, R a (t :: tail) rest ↔ R' a (t :: tail) rest) :
    ExactAt t p R' where
  iff hgood := (h.iff hgood).trans (hR hgood)
  good hgood _ _ hr := h.good hgood ((hR hgood).mpr hr)

theorem Exact.congr (h : Exact p R) (hR : ∀ a toks rest, R a toks rest ↔ R' a toks rest) :
    Exact p R' := fun t => (h t).congr fun _ => hR _ _ _

theorem exactAt_pure (a : α) : ExactAt t (pure a) fun b toks rest => b = a ∧ toks = rest where
  iff hgood b rest := by
    constructor
    · intro h
      cases h
      exact ⟨rfl, rfl⟩
    · rintro ⟨rfl, rfl⟩
      rfl
  good hgood _ _ := fun ⟨_, h⟩ => h ▸ hgood

theorem exactAt_throw (e : ParseError)
    (hR : ∀ {tail a rest}, Good (t :: tail) → ¬R a (t :: tail) rest) : ExactAt t (throw e) R where
  iff hgood _ _ := ⟨nofun, fun h => absurd h (hR hgood)⟩
  good hgood _ _ h := absurd h (hR hgood)

theorem exactAt_advance (ht : t.kind ≠ .eof) :
    ExactAt t advance fun _ toks rest => toks = t :: rest where
  iff hgood a rest := by
    obtain ⟨t', tail', rfl⟩ := (hgood.tail ht).ne_nil
    constructor
    · intro h
      cases h
      rfl
    · intro h
      cases h
      rfl
  good hgood a rest h := by
    cases h
    exact hgood.tail ht

theorem ExactAt.bind {f : α → Parser β} {S : α → β → List Token → List Token → Prop}
    (hp : ExactAt t p R) (hf : ∀ a, Exact (f a) (S a)) :
    ExactAt t (p >>= f) fun b toks rest => ∃ a mid, R a toks mid ∧ S a b mid rest where
  iff {tail} hgood b rest := by
    have hbind : (p >>= f) (t :: tail) = (p (t :: tail) >>= fun r => f r.1 r.2) := rfl
    rw [hbind]
    constructor
    · intro h
      cases hrun : p (t :: tail) with
      | error e => rw [hrun] at h; cases h
      | ok r =>
        rw [hrun] at h
        have hR := (hp.iff hgood).mp hrun
        obtain ⟨t', tail', hmid⟩ := (hp.good hgood hR).ne_nil
        have hgood' := hp.good hgood hR
        rw [hmid] at hgood'
        refine ⟨r.1, r.2, hR, ?_⟩
        rw [hmid]
        refine ((hf r.1 t').iff hgood').mp ?_
        rw [← hmid]
        exact h
    · rintro ⟨a, mid, hR, hS⟩
      obtain ⟨t', tail', rfl⟩ := (hp.good hgood hR).ne_nil
      rw [(hp.iff hgood).mpr hR]
      exact ((hf a t').iff (hp.good hgood hR)).mpr hS
  good hgood b rest := by
    rintro ⟨a, mid, hR, hS⟩
    have hmid := hp.good hgood hR
    obtain ⟨t', tail', rfl⟩ := hmid.ne_nil
    exact (hf a t').good hmid hS

theorem Exact.bind {f : α → Parser β} {S : α → β → List Token → List Token → Prop}
    (hp : Exact p R) (hf : ∀ a, Exact (f a) (S a)) :
    Exact (p >>= f) fun b toks rest => ∃ a mid, R a toks mid ∧ S a b mid rest :=
  fun t => (hp t).bind hf

theorem exact_pure (a : α) : Exact (pure a) fun b toks rest => b = a ∧ toks = rest :=
  fun _ => exactAt_pure a

theorem exact_peek {f : Token → Parser β} {S : β → List Token → List Token → Prop}
    (hf : ∀ t, ExactAt t (f t) S) : Exact (peek >>= f) S := fun t =>
  { iff := fun hgood => (hf t).iff hgood, good := (hf t).good }

theorem exactAt_ite {c : Prop} [Decidable c] {q : Parser α} (hp : c → ExactAt t p R)
    (hq : ¬c → ExactAt t q R) : ExactAt t (if c then p else q) R := by
  split
  case isTrue h => exact hp h
  case isFalse h => exact hq h

/-! ## Tokens, names and literals -/

theorem exactAt_take (ht : t.kind ≠ .eof) (hx : t.Is x) :
    ExactAt t advance fun _ => Spans [x] :=
  (exactAt_advance ht).congr fun _ _ rest => by
    rw [spans_singleton]
    constructor
    · intro h
      exact ⟨t, h, hx⟩
    · rintro ⟨s, h, -⟩
      cases h
      rfl

theorem not_spans {tail : List Token} (hx : ¬t.Is x) :
    ¬Spans (x :: xs) (t :: tail) rest := by
  rintro ⟨s, toks, heq, hs, -⟩
  cases heq
  exact hx hs

theorem exact_expect (kind : TokenKind) (hkind : kind ≠ .eof) :
    Exact (expect kind) fun _ => Spans [.punct kind] :=
  exact_peek fun _ => exactAt_ite
    (fun ht => exactAt_take (x := .punct kind) (ht ▸ hkind) ht)
    fun ht => exactAt_throw _ fun _ => not_spans (x := .punct kind) ht

theorem isWord_iff : isWord t s = true ↔ t.Is (keyword s) := by
  simp [isWord, Token.Is, keyword]

theorem kind_eq_iff {kind : TokenKind} : t.kind = kind ↔ t.Is (.punct kind) := Iff.rfl

theorem exact_expectKeyword (s : String) :
    Exact (expectKeyword s) fun _ => Spans [keyword s] :=
  exact_peek fun _ => exactAt_ite
    (fun ht => exactAt_take (by rw [(isWord_iff.mp ht).1]; decide) (isWord_iff.mp ht))
    fun ht => exactAt_throw _ fun _ => not_spans fun hs => ht (isWord_iff.mpr hs)

theorem exact_expectName :
    Exact expectName fun name toks rest => IsIdentifier name ∧ Spans [.word name] toks rest := by
  refine exact_peek fun t => exactAt_ite (fun ht => ?_) fun ht => exactAt_ite (fun hkey => ?_)
    fun hkey => ?_
  · exact exactAt_throw _ fun _ h => not_spans (fun hs : t.Is (.word _) => ht hs.1) h.2
  · refine exactAt_throw _ fun {tail name rest} _ h => ?_
    obtain ⟨s, toks, heq, hs, -⟩ := h.2
    cases heq
    have := h.1.not_keyword
    rw [← hs.2, hkey] at this
    cases this
  · have hkind : t.kind = .ident := Decidable.not_not.mp ht
    refine ((exactAt_advance (by rw [hkind]; decide)).bind fun _ => exact_pure t.text).congr
      fun {tail} hgood {name rest} => ?_
    rw [spans_singleton]
    constructor
    · rintro ⟨_, mid, hmid, rfl, rfl⟩
      exact ⟨⟨hgood.words t (by simp) hkind, by simpa using hkey⟩, t, hmid, hkind, rfl⟩
    · rintro ⟨-, s, hs, hword⟩
      cases hs
      exact ⟨(), tail, rfl, hword.2.symm, rfl⟩

theorem lexeme_inj {v w : Literal} (hv : t.Is v.lexeme) (hw : t.Is w.lexeme) : v = w := by
  have hkind := hv.kind_eq.symm.trans hw.kind_eq
  cases v with
  | int i =>
    cases w with
    | int j => rw [Option.some.inj (hv.2.symm.trans hw.2)]
    | str => cases hkind
    | bool b => cases b <;> cases hkind
  | str s =>
    cases w with
    | str s' => rw [← hv.2, ← hw.2]
    | int => cases hkind
    | bool b => cases b <;> cases hkind
  | bool b =>
    cases w with
    | int | str => cases b <;> cases hkind
    | bool b' =>
      cases b <;> cases b'
      case false.false | true.true => rfl
      all_goals exact absurd (hv.2.symm.trans hw.2) (by decide)

theorem exactAt_literal {v : Literal} (hv : t.Is v.lexeme) :
    ExactAt t (do advance; pure v) fun w => Spans [w.lexeme] := by
  have ht : t.kind ≠ .eof := by
    rw [hv.kind_eq]
    cases v with
    | int | str => nofun
    | bool b => cases b <;> nofun
  refine ((exactAt_advance ht).bind fun _ => exact_pure v).congr fun {tail} _ {w rest} => ?_
  rw [spans_singleton]
  constructor
  · rintro ⟨_, mid, hmid, rfl, rfl⟩
    exact ⟨t, hmid, hv⟩
  · rintro ⟨s, hs, hw⟩
    cases hs
    exact ⟨(), tail, rfl, lexeme_inj hw hv, rfl⟩

theorem exact_parseLiteral : Exact parseLiteral fun v => Spans [v.lexeme] := by
  refine exact_peek fun t => ?_
  -- what no literal is refused
  have hnot : ∀ {tail rest} {v : Literal}, (∀ w : Literal, ¬t.Is w.lexeme) →
      ¬Spans [v.lexeme] (t :: tail) rest := fun h => not_spans (h _)
  split
  case h_1 hkind =>
    cases hparse : parseIntLiteral t.text with
    | some i => exact exactAt_literal (v := .int i) ⟨hkind, hparse⟩
    | none =>
      refine ((exactAt_advance (by rw [hkind]; decide)).bind fun _ _ =>
        exactAt_throw (R := fun _ _ _ => False) _ fun _ h => h).congr fun _ => ?_
      refine ⟨fun ⟨_, _, _, h⟩ => h.elim, fun h => (hnot (fun w hw => ?_) h).elim⟩
      have hk := hw.kind_eq.symm.trans hkind
      cases w with
      | int j => rw [hw.2] at hparse; cases hparse
      | str => cases hk
      | bool b => cases b <;> cases hk
  case h_2 hkind => exact exactAt_literal (v := .str t.text) ⟨hkind, rfl⟩
  case h_3 hint hstring =>
    refine exactAt_ite (fun htrue => exactAt_literal (v := .bool true) (isWord_iff.mp htrue))
      fun htrue => exactAt_ite (fun hfalse => exactAt_literal (v := .bool false)
        (isWord_iff.mp hfalse)) fun hfalse => ?_
    have hno : ∀ w : Literal, ¬t.Is w.lexeme := fun w hw => by
      cases w with
      | int => exact hint hw.1
      | str => exact hstring hw.1
      | bool b =>
        cases b
        · exact hfalse (isWord_iff.mpr hw)
        · exact htrue (isWord_iff.mpr hw)
    exact exactAt_ite (fun _ => exactAt_throw _ fun _ => hnot hno)
      fun _ => exactAt_throw _ fun _ => hnot hno

theorem exact_equation {γ : Type} (mk : Bytes → Literal → γ) :
    Exact (do let column ← expectName; expect .equals; let value ← parseLiteral; pure (mk column value))
      fun c toks rest => ∃ column value, c = mk column value ∧ IsIdentifier column ∧
        Spans [.word column, .punct .equals, value.lexeme] toks rest := by
  refine (exact_expectName.bind fun column => (exact_expect .equals (by decide)).bind fun _ =>
    exact_parseLiteral.bind fun value => exact_pure (mk column value)).congr fun c toks rest => ?_
  constructor
  · rintro ⟨column, m₁, ⟨hcolumn, h₁⟩, _, m₂, h₂, value, m₃, h₃, rfl, rfl⟩
    exact ⟨column, value, rfl, hcolumn, h₁.append (h₂.append h₃)⟩
  · rintro ⟨column, value, rfl, hcolumn, h⟩
    obtain ⟨m₁, h₁, h⟩ := h.uncons
    obtain ⟨m₂, h₂, h₃⟩ := h.uncons
    exact ⟨column, m₁, ⟨hcolumn, h₁⟩, (), m₂, h₂, value, rest, h₃, rfl, rfl⟩

theorem exact_parsePredicate :
    Exact parsePredicate fun p toks rest => IsIdentifier p.column ∧ Spans p.lexemes toks rest :=
  (exact_equation Predicate.mk).congr fun p _ _ =>
    ⟨fun ⟨_, _, hp, h⟩ => hp ▸ h, fun h => ⟨p.column, p.value, rfl, h⟩⟩

theorem exact_parseAssignment :
    Exact parseAssignment fun a toks rest => IsIdentifier a.column ∧ Spans a.lexemes toks rest :=
  (exact_equation Assignment.mk).congr fun a _ _ =>
    ⟨fun ⟨_, _, ha, h⟩ => ha ▸ h, fun h => ⟨a.column, a.value, rfl, h⟩⟩

/-! ## Lists -/

def NextIsNot (x : Lexeme) (rest : List Token) : Prop := ∀ t ∈ rest.head?, ¬t.Is x

theorem NextIsNot.of_spans {y : Lexeme}
    (h : Spans (y :: ys) toks rest) (hne : ∀ t : Token, t.Is y → ¬t.Is x) : NextIsNot x toks := by
  obtain ⟨t, tail, rfl, ht, -⟩ := h
  rintro _ ⟨rfl⟩
  exact hne t ht

/-- An optional part: behind an `x` it is what `q` takes, and `a` takes no token where no `x` is
next. -/
theorem exact_optional {test : Token → Prop} [DecidablePred test] (htest : ∀ {t}, test t ↔ t.Is x)
    (hx : x.kind ≠ .eof) (hp : Exact p R) (a : α) :
    Exact (do
      let t ← peek
      if test t then do
        advance
        p
      else pure a) fun b toks rest =>
        (∃ mid, Spans [x] toks mid ∧ R b mid rest) ∨ (b = a ∧ toks = rest ∧ NextIsNot x rest) := by
  refine exact_peek fun t => exactAt_ite (fun ht => ?_) fun ht => ?_
  · have his := htest.mp ht
    refine ((exactAt_take (his.kind_eq ▸ hx) his).bind fun _ => hp).congr
      fun {tail} _ {b rest} => ?_
    constructor
    · rintro ⟨_, mid, hmid, hrest⟩
      exact .inl ⟨mid, hmid, hrest⟩
    · rintro (⟨mid, hmid, hrest⟩ | ⟨-, rfl, hnext⟩)
      · exact ⟨(), mid, hmid, hrest⟩
      · exact absurd his (hnext t rfl)
  · refine (exactAt_pure a).congr fun {tail} _ {b rest} => ?_
    constructor
    · rintro ⟨rfl, rfl⟩
      refine .inr ⟨rfl, rfl, ?_⟩
      rintro _ ⟨rfl⟩
      exact fun his => ht (htest.mpr his)
    · rintro (⟨mid, hmid, -⟩ | ⟨rfl, rfl, -⟩)
      · exact absurd hmid (not_spans fun his => ht (htest.mpr his))
      · exact ⟨rfl, rfl⟩

/-- What a list of at most `left` items takes: its items with commas between them.  An item may
depend on the token behind it, by `F`, but not on a comma. -/
theorem exact_commaList {P : α → Prop} {out : α → List Lexeme} {F : α → List Token → Prop}
    {item : Parser α}
    (hitem : Exact item fun a toks rest => P a ∧ Spans (out a) toks rest ∧ F a rest)
    (hF : ∀ a t rest, t.kind = .comma → F a (t :: rest)) (what : Listed) (left : Nat) :
    Exact (commaList what item left) fun as toks rest =>
      (as ≠ [] ∧ as.length ≤ left ∧ ∀ a ∈ as, P a) ∧ Spans (commaSeparated out as) toks rest ∧
        (∀ a ∈ as.getLast?, F a rest) ∧ NextIsNot (.punct .comma) rest := by
  induction left with
  | zero =>
    refine (hitem.bind fun _ => exact_peek (S := fun _ _ _ => False) fun t =>
      exactAt_throw _ fun _ h => h).congr fun as toks rest => ?_
    constructor
    · rintro ⟨_, _, _, h⟩
      exact h.elim
    · rintro ⟨⟨hne, hlen, -⟩, -⟩
      exact absurd (eq_nil_of_length_eq_zero (Nat.le_zero.mp hlen)) hne
  | succ left ih =>
    refine (hitem.bind fun a => exact_optional kind_eq_iff (by decide)
      (ih.bind fun as => exact_pure (a :: as)) [a]).congr fun as toks rest => ?_
    constructor
    · rintro ⟨a, mid, ⟨hP, hspans, hnext⟩, ⟨mid', hcomma, as', _, ⟨⟨hne, hlen, hall⟩, hrest,
        hlast, hend⟩, rfl, rfl⟩ | ⟨rfl, rfl, hend⟩⟩
      · obtain ⟨b, bs, rfl⟩ := exists_cons_of_ne_nil hne
        refine ⟨⟨by simp, by simpa using hlen, by simpa using ⟨hP, by simpa using hall⟩⟩, ?_,
          by simpa using hlast, hend⟩
        exact hspans.append (hcomma.append hrest)
      · exact ⟨⟨by simp, by simp, by simpa using hP⟩, hspans, by simpa using hnext, hend⟩
    · rintro ⟨⟨hne, hlen, hall⟩, hspans, hlast, hend⟩
      obtain ⟨a, as, rfl⟩ := exists_cons_of_ne_nil hne
      cases as with
      | nil =>
        exact ⟨a, rest, ⟨hall a (by simp), hspans, hlast a rfl⟩, .inr ⟨rfl, rfl, hend⟩⟩
      | cons b bs =>
        obtain ⟨mid, ha, hrest⟩ := spans_append.mp
          (show Spans (out a ++ .punct .comma :: commaSeparated out (b :: bs)) toks rest from hspans)
        obtain ⟨mid', hcomma, hitems⟩ := hrest.uncons
        obtain ⟨t, rfl, ht⟩ := spans_singleton.mp hcomma
        exact ⟨a, t :: mid', ⟨hall a (by simp), ha, hF a t mid' ht⟩, .inl ⟨mid', hcomma, b :: bs,
          rest, ⟨⟨by simp, by simpa using hlen, fun c hc => hall c (mem_cons_of_mem _ hc)⟩,
            hitems, by simpa using hlast, hend⟩, rfl, rfl⟩⟩

theorem exact_list {P : α → Prop} {out : α → List Lexeme} {item : Parser α}
    (hitem : Exact item fun a toks rest => P a ∧ Spans (out a) toks rest) (what : Listed) :
    Exact (commaList what item maxColumns) fun as toks rest =>
      IsListOf P as ∧ Spans (commaSeparated out as) toks rest ∧
        NextIsNot (.punct .comma) rest :=
  (exact_commaList (F := fun _ _ => True) (hitem.congr fun _ _ _ => by rw [and_true])
    (fun _ _ _ _ => trivial) what maxColumns).congr fun as toks rest =>
      ⟨fun ⟨⟨h₁, h₂, h₃⟩, hspans, _, hend⟩ => ⟨⟨h₁, h₂, h₃⟩, hspans, hend⟩,
        fun ⟨⟨h₁, h₂, h₃⟩, hspans, hend⟩ => ⟨⟨h₁, h₂, h₃⟩, hspans, fun _ _ => trivial, hend⟩⟩

theorem exact_names (what : Listed) :
    Exact (commaList what expectName maxColumns) fun names toks rest =>
      IsListOf IsIdentifier names ∧ Spans (commaSeparated nameLexemes names) toks rest ∧
        NextIsNot (.punct .comma) rest :=
  exact_list exact_expectName what

theorem exact_values :
    Exact (commaList .insertValues parseLiteral maxColumns) fun values toks rest =>
      IsListOf (fun _ => True) values ∧ Spans (commaSeparated valueLexemes values) toks rest ∧
        NextIsNot (.punct .comma) rest :=
  exact_list (exact_parseLiteral.congr fun v toks rest => by rw [true_and]; rfl) .insertValues

theorem columnTypeFromKeyword_iff {type : ColumnType} (ht : t.kind = .ident) :
    columnTypeFromKeyword t.text = some type ↔ t.Is type.lexeme := by
  constructor
  · intro h
    unfold columnTypeFromKeyword at h
    split at h
    · cases h; exact ⟨ht, by assumption⟩
    split at h
    · cases h; exact ⟨ht, by assumption⟩
    split at h
    · cases h; exact ⟨ht, by assumption⟩
    · cases h
  · intro h
    cases type with
    | integer => rw [show t.text = ascii "integer" from h.2]; decide
    | text => rw [show t.text = ascii "text" from h.2]; decide
    | boolean => rw [show t.text = ascii "boolean" from h.2]; decide

theorem exact_primaryKey (name : Bytes) (type : ColumnType) :
    Exact (do
      let t ← peek
      if isWord t "primary" then do
        advance
        expectKeyword "key"
        pure (⟨name, type, true⟩ : ColumnDef)
      else pure ⟨name, type, false⟩) fun c toks rest =>
        ∃ primaryKey : Bool, c = ⟨name, type, primaryKey⟩ ∧
          Spans (if primaryKey then [keyword "primary", keyword "key"] else []) toks rest ∧
          (primaryKey = false → NextIsNot (keyword "primary") rest) := by
  refine (exact_optional isWord_iff (by decide)
    ((exact_expectKeyword "key").bind fun _ => exact_pure _) _).congr fun c toks rest => ?_
  constructor
  · rintro (⟨mid, h₁, _, mid', h₂, rfl, rfl⟩ | ⟨rfl, rfl, hnext⟩)
    · exact ⟨true, rfl, h₁.append h₂, nofun⟩
    · exact ⟨false, rfl, rfl, fun _ => hnext⟩
  · rintro ⟨primaryKey, rfl, hspans, hnext⟩
    cases primaryKey with
    | true =>
      obtain ⟨mid, h₁, h₂⟩ := hspans.uncons
      exact .inl ⟨mid, h₁, (), rest, h₂, rfl, rfl⟩
    | false => exact .inr ⟨rfl, hspans, hnext rfl⟩

theorem exact_parseColumnDef :
    Exact parseColumnDef fun c toks rest => IsIdentifier c.name ∧ Spans c.lexemes toks rest ∧
      (c.primaryKey = false → NextIsNot (keyword "primary") rest) := by
  refine (exact_expectName.bind (S := fun name c toks rest => c.name = name ∧
    ∃ mid, Spans [c.type.lexeme] toks mid ∧
      Spans (if c.primaryKey then [keyword "primary", keyword "key"] else []) mid rest ∧
      (c.primaryKey = false → NextIsNot (keyword "primary") rest)) fun name => ?_).congr
    fun c toks rest => ?_
  · refine exact_peek fun t => exactAt_ite (fun ht => ?_) fun ht => ?_
    · refine exactAt_throw _ fun {tail c rest} _ h => ?_
      obtain ⟨-, mid, hspans, -⟩ := h
      refine not_spans (fun hs => ht ?_) hspans
      rw [hs.kind_eq]
      cases c.type <;> rfl
    have hident : t.kind = .ident := Decidable.not_not.mp ht
    cases hcolumn : columnTypeFromKeyword t.text with
    | none =>
      refine exactAt_throw _ fun {tail c rest} _ h => ?_
      obtain ⟨-, mid, hspans, -⟩ := h
      refine not_spans (fun hs => ?_) hspans
      rw [(columnTypeFromKeyword_iff hident).mpr hs] at hcolumn
      cases hcolumn
    | some type =>
      have hword := (columnTypeFromKeyword_iff hident).mp hcolumn
      refine ((exactAt_take (by rw [hident]; decide) hword).bind fun _ =>
        exact_primaryKey name type).congr fun {tail} _ {c rest} => ?_
      constructor
      · rintro ⟨_, mid, hmid, primaryKey, rfl, hspans, hnext⟩
        exact ⟨rfl, mid, hmid, hspans, hnext⟩
      · rintro ⟨rfl, mid, hmid, hspans, hnext⟩
        obtain ⟨s, hs, hctype⟩ := spans_singleton.mp hmid
        cases hs
        obtain rfl : c.type = type := Option.some.inj
          (((columnTypeFromKeyword_iff hident).mpr hctype).symm.trans hcolumn)
        exact ⟨(), tail, hmid, c.primaryKey, rfl, hspans, hnext⟩
  · constructor
    · rintro ⟨name, m₁, ⟨hname, h₁⟩, rfl, m₂, h₂, h₃, hnext⟩
      exact ⟨hname, h₁.append (h₂.append h₃), hnext⟩
    · rintro ⟨hname, hspans, hnext⟩
      obtain ⟨m₁, h₁, hspans⟩ := hspans.uncons
      obtain ⟨m₂, h₂, h₃⟩ := hspans.uncons
      exact ⟨c.name, m₁, ⟨hname, h₁⟩, rfl, m₂, h₂, h₃, hnext⟩

/-! ## Statements -/

theorem spans_parenthesized :
    Spans (parenthesized xs) toks rest ↔ ∃ m₁ m₂, Spans [.punct .lparen] toks m₁ ∧
      Spans xs m₁ m₂ ∧ Spans [.punct .rparen] m₂ rest := by
  constructor
  · intro h
    obtain ⟨m₁, h₁, h⟩ := Spans.uncons h
    obtain ⟨m₂, h₂, h₃⟩ := spans_append.mp h
    exact ⟨m₁, m₂, h₁, h₂, h₃⟩
  · rintro ⟨m₁, m₂, h₁, h₂, h₃⟩
    exact h₁.append (h₂.append h₃)

theorem nextIsNot_of_kind {y : Lexeme} (h : Spans [y] toks rest)
    (hne : y.kind ≠ x.kind) : NextIsNot x toks :=
  NextIsNot.of_spans h fun _ hy hx => hne (hy.kind_eq.symm.trans hx.kind_eq)

theorem exact_parseInsertColumns :
    Exact parseInsertColumns fun columns toks rest =>
      (∀ names ∈ columns, IsListOf IsIdentifier names) ∧
      Spans (columns.elim [] fun names => parenthesized (commaSeparated nameLexemes names))
        toks rest ∧
      (columns = none → NextIsNot (.punct .lparen) rest) := by
  refine (exact_optional kind_eq_iff (by decide)
    ((exact_names .insertColumns).bind fun names => (exact_expect .rparen (by decide)).bind fun _ =>
      exact_pure (some names)) none).congr fun columns toks rest => ?_
  constructor
  · rintro (⟨m₁, h₁, names, m₂, ⟨hnames, h₂, -⟩, _, m₃, h₃, rfl, rfl⟩ | ⟨rfl, rfl, hnext⟩)
    · exact ⟨by simpa using hnames, h₁.append (h₂.append h₃), nofun⟩
    · exact ⟨nofun, rfl, fun _ => hnext⟩
  · rintro ⟨hnames, hspans, hnext⟩
    cases columns with
    | none => exact .inr ⟨rfl, hspans, hnext rfl⟩
    | some names =>
      obtain ⟨m₁, m₂, h₁, h₂, h₃⟩ := spans_parenthesized.mp hspans
      exact .inl ⟨m₁, h₁, names, m₂, ⟨hnames names rfl, h₂, nextIsNot_of_kind h₃ (by decide)⟩,
        (), rest, h₃, rfl, rfl⟩

theorem commaSeparated_names {names : List Bytes} (h : names ≠ []) :
    ∃ name xs, commaSeparated nameLexemes names = .word name :: xs := by
  cases names with
  | nil => exact absurd rfl h
  | cons name names =>
    cases names with
    | nil => exact ⟨name, [], rfl⟩
    | cons => exact ⟨name, _, rfl⟩

theorem exact_parseProjection :
    Exact parseProjection fun columns toks rest =>
      (∀ names ∈ columns, IsListOf IsIdentifier names) ∧
      Spans (columns.elim [.punct .star] fun names => commaSeparated nameLexemes names)
        toks rest ∧
      (columns ≠ none → NextIsNot (.punct .comma) rest) := by
  refine exact_peek fun t => exactAt_ite (fun ht => ?_) fun ht => ?_
  · refine ((exactAt_take (x := .punct .star) (by rw [ht]; decide) ht).bind fun _ =>
      exact_pure none).congr fun {tail} _ {columns rest} => ?_
    constructor
    · rintro ⟨_, mid, h, rfl, rfl⟩
      exact ⟨nofun, h, fun hne => absurd rfl hne⟩
    · rintro ⟨hnames, hspans, -⟩
      cases columns with
      | none => exact ⟨(), rest, hspans, rfl, rfl⟩
      | some names =>
        obtain ⟨name, xs, hword⟩ := commaSeparated_names (hnames names rfl).ne_nil
        rw [Option.elim_some, hword] at hspans
        refine absurd hspans (not_spans fun hs => ?_)
        cases ht.symm.trans hs.1
  · refine (((exact_names .selectColumns).bind fun names => exact_pure (some names)) t).congr
      fun {tail} _ {columns rest} => ?_
    constructor
    · rintro ⟨names, mid, ⟨hnames, hspans, hnext⟩, rfl, rfl⟩
      exact ⟨by simpa using hnames, hspans, fun _ => hnext⟩
    · rintro ⟨hnames, hspans, hnext⟩
      cases columns with
      | none => exact absurd hspans (not_spans ht)
      | some names =>
        exact ⟨names, rest, ⟨hnames names rfl, hspans, hnext nofun⟩, rfl, rfl⟩

theorem exact_parseWhere :
    Exact parseWhere fun pred toks rest =>
      (∀ p ∈ pred, IsIdentifier p.column) ∧ Spans (pred.elim [] whereLexemes) toks rest ∧
      (pred = none → NextIsNot (keyword "where") rest) := by
  refine (exact_optional isWord_iff (by decide)
    (exact_parsePredicate.bind fun pred => exact_pure (some pred)) none).congr
      fun pred toks rest => ?_
  constructor
  · rintro (⟨m₁, h₁, pred, m₂, ⟨hpred, h₂⟩, rfl, rfl⟩ | ⟨rfl, rfl, hnext⟩)
    · exact ⟨by simpa using hpred, h₁.append h₂, nofun⟩
    · exact ⟨nofun, rfl, fun _ => hnext⟩
  · rintro ⟨hpred, hspans, hnext⟩
    cases pred with
    | none => exact .inr ⟨rfl, hspans, hnext rfl⟩
    | some pred =>
      obtain ⟨m₁, h₁, h₂⟩ := Spans.uncons hspans
      exact .inl ⟨m₁, h₁, pred, rest, ⟨hpred pred rfl, h₂⟩, rfl, rfl⟩

theorem exact_requireWhere (missing : ParseError) :
    Exact (requireWhere missing) fun pred toks rest =>
      IsIdentifier pred.column ∧ Spans (whereLexemes pred) toks rest := by
  refine exact_peek fun t => exactAt_ite (fun ht => ?_) fun ht => ?_
  · have hword := isWord_iff.mp ht
    refine ((exactAt_take (by rw [hword.1]; decide) hword).bind fun _ =>
      exact_parsePredicate).congr fun {tail} _ {pred rest} => ?_
    constructor
    · rintro ⟨_, m₁, h₁, hpred, h₂⟩
      exact ⟨hpred, h₁.append h₂⟩
    · rintro ⟨hpred, hspans⟩
      obtain ⟨m₁, h₁, h₂⟩ := Spans.uncons hspans
      exact ⟨(), m₁, h₁, hpred, h₂⟩
  · exact exactAt_throw _ fun _ h => not_spans (fun hword => ht (isWord_iff.mpr hword)) h.2

/-- A SELECT without WHERE goes on if a WHERE is behind it. -/
def StatementEnds : Statement → List Token → Prop
  | .select _ _ none, rest => NextIsNot (keyword "where") rest
  | _, _ => True

structure Takes (stmt : Statement) (toks rest : List Token) : Prop where
  supported : stmt.Supported
  spans : Spans stmt.lexemes toks rest
  ends : StatementEnds stmt rest

theorem exact_parseCreateTable :
    Exact parseCreateTable fun stmt toks rest =>
      stmt.keyword = "create" ∧ Takes stmt toks rest := by
  have hcomma : ∀ (c : ColumnDef) (t : Token) rest, t.kind = .comma → c.primaryKey = false →
      NextIsNot (keyword "primary") (t :: rest) := by
    rintro c t rest ht - _ ⟨rfl⟩ hword
    cases ht.symm.trans hword.1
  refine ((exact_expectKeyword "create").bind fun _ => (exact_expectKeyword "table").bind fun _ =>
    exact_expectName.bind fun table => (exact_expect .lparen (by decide)).bind fun _ =>
    (exact_commaList exact_parseColumnDef hcomma .tableColumns maxColumns).bind fun columns =>
    (exact_expect .rparen (by decide)).bind fun _ =>
    exact_pure (Statement.createTable table columns)).congr
      fun stmt toks rest => ?_
  constructor
  · rintro ⟨_, m₁, h₁, _, m₂, h₂, table, m₃, ⟨htable, h₃⟩, _, m₄, h₄, columns, m₅,
      ⟨⟨hne, hlen, hall⟩, h₅, -, -⟩, _, m₆, h₆, rfl, rfl⟩
    exact ⟨rfl, ⟨htable, hne, hlen, hall⟩, h₁.append (h₂.append (h₃.append (h₄.append
      (h₅.append h₆)))), trivial⟩
  · rintro ⟨hkeyword, hsupported, hspans, -⟩
    cases stmt with
    | createTable table columns =>
      obtain ⟨htable, hne, hlen, hall⟩ := hsupported
      obtain ⟨m₁, h₁, hspans⟩ := Spans.uncons hspans
      obtain ⟨m₂, h₂, hspans⟩ := Spans.uncons hspans
      obtain ⟨m₃, h₃, hspans⟩ := hspans.uncons
      obtain ⟨m₄, m₅, h₄, h₅, h₆⟩ := spans_parenthesized.mp hspans
      exact ⟨(), m₁, h₁, (), m₂, h₂, table, m₃, ⟨htable, h₃⟩, (), m₄, h₄, columns, m₅,
        ⟨⟨hne, hlen, hall⟩, h₅, fun _ _ _ => nextIsNot_of_kind h₆ (by decide),
          nextIsNot_of_kind h₆ (by decide)⟩, (), rest, h₆, rfl, rfl⟩
    | insert | select | update | delete | start | commit | rollback =>
      simp [Statement.keyword] at hkeyword

theorem exact_parseInsert :
    Exact parseInsert fun stmt toks rest =>
      stmt.keyword = "insert" ∧ Takes stmt toks rest := by
  refine ((exact_expectKeyword "insert").bind fun _ => (exact_expectKeyword "into").bind fun _ =>
    exact_expectName.bind fun table => exact_parseInsertColumns.bind fun columns =>
    (exact_expectKeyword "values").bind fun _ => (exact_expect .lparen (by decide)).bind fun _ =>
    exact_values.bind fun values => (exact_expect .rparen (by decide)).bind fun _ =>
    exact_pure (Statement.insert table columns values)).congr fun stmt toks rest => ?_
  constructor
  · rintro ⟨_, m₁, h₁, _, m₂, h₂, table, m₃, ⟨htable, h₃⟩, columns, m₄, ⟨hcolumns, h₄, -⟩, _, m₅,
      h₅, _, m₆, h₆, values, m₇, ⟨hvalues, h₇, -⟩, _, m₈, h₈, rfl, rfl⟩
    exact ⟨rfl, ⟨htable, hcolumns, hvalues⟩, h₁.append (h₂.append (h₃.append (h₄.append
      (h₅.append (h₆.append (h₇.append h₈)))))), trivial⟩
  · rintro ⟨hkeyword, hsupported, hspans, -⟩
    cases stmt with
    | insert table columns values =>
      obtain ⟨htable, hcolumns, hvalues⟩ := hsupported
      obtain ⟨m₁, h₁, hspans⟩ := Spans.uncons hspans
      obtain ⟨m₂, h₂, hspans⟩ := Spans.uncons hspans
      obtain ⟨m₃, h₃, hspans⟩ := hspans.uncons
      obtain ⟨m₄, h₄, hspans⟩ := spans_append.mp hspans
      obtain ⟨m₅, h₅, hspans⟩ := hspans.uncons
      obtain ⟨m₆, m₇, h₆, h₇, h₈⟩ := spans_parenthesized.mp hspans
      exact ⟨(), m₁, h₁, (), m₂, h₂, table, m₃, ⟨htable, h₃⟩, columns, m₄,
        ⟨hcolumns, h₄, fun _ => nextIsNot_of_kind h₅ (by decide)⟩, (), m₅, h₅, (), m₆, h₆, values,
        m₇, ⟨hvalues, h₇, nextIsNot_of_kind h₈ (by decide)⟩, (), rest, h₈, rfl, rfl⟩
    | createTable | select | update | delete | start | commit | rollback =>
      simp [Statement.keyword] at hkeyword

theorem exact_parseSelect :
    Exact parseSelect fun stmt toks rest =>
      stmt.keyword = "select" ∧ Takes stmt toks rest := by
  refine ((exact_expectKeyword "select").bind fun _ => exact_parseProjection.bind fun columns =>
    (exact_expectKeyword "from").bind fun _ => exact_expectName.bind fun table =>
    exact_parseWhere.bind fun pred => exact_pure (Statement.select table columns pred)).congr
      fun stmt toks rest => ?_
  constructor
  · rintro ⟨_, m₁, h₁, columns, m₂, ⟨hcolumns, h₂, -⟩, _, m₃, h₃, table, m₄, ⟨htable, h₄⟩, pred,
      m₅, ⟨hpred, h₅, hnext⟩, rfl, rfl⟩
    refine ⟨rfl, ⟨htable, hcolumns, hpred⟩, h₁.append (h₂.append (h₃.append (h₄.append h₅))), ?_⟩
    cases pred with
    | none => exact hnext rfl
    | some => trivial
  · rintro ⟨hkeyword, hsupported, hspans, hends⟩
    cases stmt with
    | select table columns pred =>
      obtain ⟨htable, hcolumns, hpred⟩ := hsupported
      obtain ⟨m₁, h₁, hspans⟩ := Spans.uncons hspans
      obtain ⟨m₂, h₂, hspans⟩ := spans_append.mp hspans
      obtain ⟨m₃, h₃, hspans⟩ := hspans.uncons
      obtain ⟨m₄, h₄, h₅⟩ := hspans.uncons
      have hnext : pred = none → NextIsNot (keyword "where") rest := by
        rintro rfl
        exact hends
      exact ⟨(), m₁, h₁, columns, m₂, ⟨hcolumns, h₂, fun _ => nextIsNot_of_kind h₃ (by decide)⟩,
        (), m₃, h₃, table, m₄, ⟨htable, h₄⟩, pred, rest, ⟨hpred, h₅, hnext⟩, rfl, rfl⟩
    | createTable | insert | update | delete | start | commit | rollback =>
      simp [Statement.keyword] at hkeyword

theorem exact_parseUpdate :
    Exact parseUpdate fun stmt toks rest =>
      stmt.keyword = "update" ∧ Takes stmt toks rest := by
  refine ((exact_expectKeyword "update").bind fun _ => exact_expectName.bind fun table =>
    (exact_expectKeyword "set").bind fun _ =>
    (exact_list exact_parseAssignment .assignments).bind fun assignments =>
    (exact_requireWhere .updateWithoutWhere).bind fun pred =>
    exact_pure (Statement.update table assignments pred)).congr fun stmt toks rest => ?_
  constructor
  · rintro ⟨_, m₁, h₁, table, m₂, ⟨htable, h₂⟩, _, m₃, h₃, assignments, m₄, ⟨hassign, h₄, -⟩, pred,
      m₅, ⟨hpred, h₅⟩, rfl, rfl⟩
    exact ⟨rfl, ⟨htable, hassign, hpred⟩, h₁.append (h₂.append (h₃.append (h₄.append h₅))), trivial⟩
  · rintro ⟨hkeyword, hsupported, hspans, -⟩
    cases stmt with
    | update table assignments pred =>
      obtain ⟨htable, hassign, hpred⟩ := hsupported
      obtain ⟨m₁, h₁, hspans⟩ := Spans.uncons hspans
      obtain ⟨m₂, h₂, hspans⟩ := Spans.uncons hspans
      obtain ⟨m₃, h₃, hspans⟩ := hspans.uncons
      obtain ⟨m₄, h₄, h₅⟩ := spans_append.mp hspans
      obtain ⟨m₅, hwhere, -⟩ := Spans.uncons h₅
      exact ⟨(), m₁, h₁, table, m₂, ⟨htable, h₂⟩, (), m₃, h₃, assignments, m₄,
        ⟨hassign, h₄, nextIsNot_of_kind hwhere (by decide)⟩, pred, rest, ⟨hpred, h₅⟩, rfl, rfl⟩
    | createTable | insert | select | delete | start | commit | rollback =>
      simp [Statement.keyword] at hkeyword

theorem exact_parseDelete :
    Exact parseDelete fun stmt toks rest =>
      stmt.keyword = "delete" ∧ Takes stmt toks rest := by
  refine ((exact_expectKeyword "delete").bind fun _ => (exact_expectKeyword "from").bind fun _ =>
    exact_expectName.bind fun table => (exact_requireWhere .deleteWithoutWhere).bind fun pred =>
    exact_pure (Statement.delete table pred)).congr fun stmt toks rest => ?_
  constructor
  · rintro ⟨_, m₁, h₁, _, m₂, h₂, table, m₃, ⟨htable, h₃⟩, pred, m₄, ⟨hpred, h₄⟩, rfl, rfl⟩
    exact ⟨rfl, ⟨htable, hpred⟩, h₁.append (h₂.append (h₃.append h₄)), trivial⟩
  · rintro ⟨hkeyword, hsupported, hspans, -⟩
    cases stmt with
    | delete table pred =>
      obtain ⟨htable, hpred⟩ := hsupported
      obtain ⟨m₁, h₁, hspans⟩ := Spans.uncons hspans
      obtain ⟨m₂, h₂, hspans⟩ := Spans.uncons hspans
      obtain ⟨m₃, h₃, h₄⟩ := hspans.uncons
      exact ⟨(), m₁, h₁, (), m₂, h₂, table, m₃, ⟨htable, h₃⟩, pred, rest, ⟨hpred, h₄⟩, rfl, rfl⟩
    | createTable | insert | select | update | start | commit | rollback =>
      simp [Statement.keyword] at hkeyword

def statementKeywords : List String :=
  ["create", "insert", "select", "update", "delete", "begin", "commit", "rollback"]

theorem keyword_mem (stmt : Statement) : stmt.keyword ∈ statementKeywords := by
  cases stmt <;> simp [Statement.keyword, statementKeywords]

theorem ascii_inj {s' : String} (hs : s ∈ statementKeywords) (hs' : s' ∈ statementKeywords)
    (h : ascii s = ascii s') : s = s' := by
  have hall : ∀ s ∈ statementKeywords, ∀ s' ∈ statementKeywords, ascii s = ascii s' → s = s' := by
    decide +kernel
  exact hall s hs s' hs' h

theorem Takes.head {tail : List Token}
    (h : Takes stmt (t :: tail) rest) : t.kind = .ident ∧ t.text = ascii stmt.keyword := by
  obtain ⟨s, toks, heq, hs, -⟩ := h.spans
  cases heq
  exact hs

theorem exactAt_statement {q : Parser Statement} (hs : s ∈ statementKeywords)
    (hq : Exact q fun stmt toks rest => stmt.keyword = s ∧ Takes stmt toks rest)
    (ht : t.text = ascii s) : ExactAt t q Takes :=
  (hq t).congr fun _ => ⟨fun h => h.2, fun h =>
    ⟨ascii_inj (keyword_mem _) hs (h.head.2.symm.trans ht), h⟩⟩

theorem exactAt_keywordStatement (stmt : Statement) (hclauses : stmt.clauses = [])
    (hsupported : stmt.Supported) (hends : ∀ rest, StatementEnds stmt rest)
    (honly : ∀ stmt' : Statement, stmt'.keyword = stmt.keyword → stmt' = stmt)
    (ht : t.kind = .ident) (hword : t.text = ascii stmt.keyword) :
    ExactAt t (do advance; pure stmt) Takes := by
  have hlexemes : stmt.lexemes = [keyword stmt.keyword] := by rw [Statement.lexemes, hclauses]
  refine ((exactAt_advance (by rw [ht]; decide)).bind fun _ => exact_pure stmt).congr
    fun {tail} _ {stmt' rest} => ?_
  constructor
  · rintro ⟨_, mid, hmid, rfl, rfl⟩
    refine ⟨hsupported, ?_, hends mid⟩
    rw [hlexemes, spans_singleton]
    exact ⟨t, hmid, ht, hword⟩
  · intro h
    obtain rfl := honly stmt' (ascii_inj (keyword_mem _) (keyword_mem _) (h.head.2.symm.trans hword))
    have hspans := h.spans
    rw [hlexemes, spans_singleton] at hspans
    obtain ⟨s, hs, -⟩ := hspans
    cases hs
    exact ⟨(), tail, rfl, rfl, rfl⟩

theorem exact_parseStatement : Exact parseStatement Takes := by
  refine exact_peek fun t => exactAt_ite (fun ht => exactAt_throw _ fun _ h => ht h.head.1)
    fun ht => ?_
  have hident : t.kind = .ident := Decidable.not_not.mp ht
  refine exactAt_ite (exactAt_statement (by decide) exact_parseCreateTable) fun hcreate =>
    exactAt_ite (exactAt_statement (by decide) exact_parseInsert) fun hinsert =>
    exactAt_ite (exactAt_statement (by decide) exact_parseSelect) fun hselect =>
    exactAt_ite (exactAt_statement (by decide) exact_parseUpdate) fun hupdate =>
    exactAt_ite (exactAt_statement (by decide) exact_parseDelete) fun hdelete =>
    exactAt_ite (exactAt_keywordStatement .start rfl trivial (fun _ => trivial) ?_ hident)
      fun hbegin =>
    exactAt_ite (exactAt_keywordStatement .commit rfl trivial (fun _ => trivial) ?_ hident)
      fun hcommit =>
    exactAt_ite (exactAt_keywordStatement .rollback rfl trivial (fun _ => trivial) ?_ hident)
      fun hrollback => ?_
  case refine_1 | refine_2 | refine_3 =>
    intro stmt h
    cases stmt <;> simp [Statement.keyword] at h ⊢
  refine exactAt_throw _ fun {tail stmt rest} _ h => ?_
  have hword := h.head.2
  cases stmt with
  | createTable => exact hcreate hword
  | insert => exact hinsert hword
  | select => exact hselect hword
  | update => exact hupdate hword
  | delete => exact hdelete hword
  | start => exact hbegin hword
  | commit => exact hcommit hword
  | rollback => exact hrollback hword

theorem exact_parseInput :
    Exact parseInput fun stmt toks rest => stmt.Supported ∧
      ∃ semi, (semi = [] ∨ semi = [.punct .semicolon]) ∧ Spans (stmt.lexemes ++ semi) toks rest ∧
        ∃ e, rest = [e] ∧ e.kind = .eof := by
  have hend : ∀ stmt : Statement, Exact (do
      let t ← peek
      if t.kind ≠ .eof then throw (.trailingInput t.pos) else pure stmt) fun stmt' toks rest =>
        stmt' = stmt ∧ toks = rest ∧ ∃ e, rest = [e] ∧ e.kind = .eof := by
    intro stmt
    refine exact_peek fun t => exactAt_ite (fun ht => ?_) fun ht => ?_
    · refine exactAt_throw _ fun {tail stmt' rest} _ h => ?_
      obtain ⟨-, rfl, e, heq, he⟩ := h
      cases heq
      exact ht he
    · have heof : t.kind = .eof := Decidable.not_not.mp ht
      refine (exactAt_pure stmt).congr fun {tail} hgood {stmt' rest} => ?_
      obtain rfl := hgood.eq_singleton heof
      exact ⟨fun ⟨h, hrest⟩ => ⟨h, hrest, t, hrest.symm, heof⟩, fun ⟨h, hrest, _⟩ => ⟨h, hrest⟩⟩
  have hsemi : ∀ stmt : Statement, Exact (do
      let t ← peek
      if t.kind = .semicolon then advance
      let t ← peek
      if t.kind ≠ .eof then throw (.trailingInput t.pos) else pure stmt) fun stmt' toks rest =>
        stmt' = stmt ∧ ∃ semi, (semi = [] ∨ semi = [.punct .semicolon]) ∧ Spans semi toks rest ∧
          ∃ e, rest = [e] ∧ e.kind = .eof := by
    intro stmt
    refine exact_peek fun t => ?_
    dsimp only
    refine exactAt_ite (fun ht => ?_) fun ht => ?_
    · refine ((exactAt_take (x := .punct .semicolon) (by rw [ht]; decide) ht).bind fun _ =>
        hend stmt).congr fun {tail} _ {stmt' rest} => ?_
      constructor
      · rintro ⟨_, mid, hmid, rfl, rfl, he⟩
        exact ⟨rfl, _, .inr rfl, hmid, he⟩
      · rintro ⟨rfl, semi, rfl | rfl, hspans, e, rfl, he⟩
        · cases hspans
          cases ht.symm.trans he
        · exact ⟨(), [e], hspans, rfl, rfl, e, rfl, he⟩
    · refine (hend stmt t).congr fun {tail} _ {stmt' rest} => ?_
      constructor
      · rintro ⟨rfl, hrest, he⟩
        exact ⟨rfl, [], .inl rfl, hrest, he⟩
      · rintro ⟨rfl, semi, rfl | rfl, hspans, he⟩
        · exact ⟨rfl, hspans, he⟩
        · exact absurd hspans (not_spans ht)
  refine (exact_parseStatement.bind hsemi).congr fun stmt toks rest => ?_
  constructor
  · rintro ⟨_, mid, htakes, rfl, semi, hsemi, hspans, he⟩
    exact ⟨htakes.supported, semi, hsemi, htakes.spans.append hspans, he⟩
  · rintro ⟨hsupported, semi, hsemi, hspans, e, rfl, he⟩
    obtain ⟨mid, hstmt, hrest⟩ := spans_append.mp hspans
    have hnext : NextIsNot (keyword "where") mid := by
      rcases hsemi with rfl | rfl
      · cases hrest
        rintro _ ⟨rfl⟩ hword
        cases he.symm.trans hword.1
      · exact nextIsNot_of_kind hrest (by decide)
    have hends : StatementEnds stmt mid := by
      unfold StatementEnds
      split
      · exact hnext
      · trivial
    exact ⟨stmt, mid, ⟨hsupported, hstmt, hends⟩, rfl, semi, hsemi, hrest, e, rfl, he⟩

end Parser

/-! ## Texts and statements -/

theorem foldIdent_foldIdent (text : Bytes) : foldIdent (foldIdent text) = foldIdent text := by
  have hbyte : ∀ c : UInt8, isUpper (if isUpper c then c - 65 + 97 else c) = false :=
    forall_byte (by decide +kernel)
  simp [foldIdent, hbyte]

theorem Lexed.good {p : Nat} {src : Bytes} (h : Lexed p src toks) :
    Good toks := by
  induction toks generalizing p src with
  | nil => exact h.elim
  | cons t toks ih =>
    obtain ⟨space, body, -, -, -, ⟨hkind, -, -, rfl⟩ | ⟨text, rest, -, hspelled, -, hrest⟩⟩ := h
    · refine ⟨⟨[], t, rfl, hkind, nofun⟩, fun s hs hident => ?_⟩
      rw [mem_singleton.mp hs, hkind] at hident
      cases hident
    · obtain ⟨⟨front, e, rfl, he, hfront⟩, hwords⟩ := ih hrest
      have ht : t.kind ≠ .eof := fun hkind => by
        rw [Token.Spelled, hkind] at hspelled
        exact hspelled
      refine ⟨⟨t :: front, e, rfl, he, by simpa using ⟨ht, hfront⟩⟩, fun s hs hident => ?_⟩
      rcases mem_cons.mp hs with rfl | hs
      · rw [Token.Spelled, hident] at hspelled
        obtain ⟨htext, hstart, hcont, hlen⟩ := hspelled
        rw [htext]
        exact ⟨(head_foldIdent text).mpr hstart, (mem_foldIdent text).mpr hcont,
          by simpa [foldIdent] using hlen, foldIdent_foldIdent text⟩
      · exact hwords s hs hident

theorem IsIdentifier.proper {name : Bytes} (h : IsIdentifier name) : (Lexeme.word name).Proper :=
  ⟨h.start, h.cont, h.length_le⟩

theorem proper_commaSeparated {α : Type} {out : α → List Lexeme} {as : List α}
    (h : ∀ a ∈ as, ∀ x ∈ out a, x.Proper) : ∀ x ∈ commaSeparated out as, x.Proper := by
  fun_induction commaSeparated out as with
  | case1 => nofun
  | case2 a => exact h a (by simp)
  | case3 a as hne ih =>
    intro x hx
    rcases mem_append.mp hx with hx | hx
    · exact h a (by simp) x hx
    · rcases mem_cons.mp hx with rfl | hx
      · exact (by decide : symbol .comma ≠ [])
      · exact ih (fun b hb => h b (mem_cons_of_mem _ hb)) x hx

theorem proper_keyword (h : ascii s ∈ keywords) : (keyword s).Proper := by
  have hall : ∀ w ∈ keywords, (w.head?.any isIdentStart = true ∧ w.all isIdentCont = true) ∧
      w.length ≤ maxIdentifierBytes := by decide +kernel
  obtain ⟨⟨hstart, hcont⟩, hlen⟩ := hall _ h
  exact ⟨(Option.any_eq_true _ _).mp hstart, all_eq_true.mp hcont, hlen⟩

theorem proper_literal (v : Literal) : v.lexeme.Proper := by
  cases v with
  | int | str => trivial
  | bool b => cases b <;> exact proper_keyword (by decide)

theorem proper_parenthesized (h : ∀ x ∈ xs, x.Proper) :
    ∀ x ∈ parenthesized xs, x.Proper := by
  intro x hx
  simp only [parenthesized, mem_cons, mem_append, not_mem_nil, or_false] at hx
  rcases hx with rfl | hx | rfl
  · exact (by decide : symbol .lparen ≠ [])
  · exact h x hx
  · exact (by decide : symbol .rparen ≠ [])

theorem proper_equation {name : Bytes} (h : IsIdentifier name) (v : Literal) :
    ∀ x ∈ [.word name, .punct .equals, v.lexeme], x.Proper := by
  refine forall_mem_cons.mpr ⟨h.proper, forall_mem_cons.mpr ⟨?_,
    forall_mem_singleton.mpr (proper_literal v)⟩⟩
  exact (by decide : symbol .equals ≠ [])

theorem proper_columnDef {c : ColumnDef} (h : IsIdentifier c.name) :
    ∀ x ∈ c.lexemes, x.Proper := by
  have htype : c.type.lexeme.Proper := by
    cases c.type <;> exact proper_keyword (by decide)
  intro x hx
  rcases mem_append.mp hx with hx | hx
  · simp only [mem_cons, not_mem_nil, or_false] at hx
    rcases hx with rfl | rfl
    · exact h.proper
    · exact htype
  · cases hkey : c.primaryKey with
    | false => simp [hkey] at hx
    | true =>
      simp only [hkey, if_true, mem_cons, not_mem_nil, or_false] at hx
      rcases hx with rfl | rfl <;> exact proper_keyword (by decide)

theorem proper_names {names : List Bytes} (h : IsListOf IsIdentifier names) :
    ∀ x ∈ commaSeparated nameLexemes names, x.Proper :=
  proper_commaSeparated fun name hname =>
    forall_mem_singleton.mpr (h.forall_mem name hname).proper

theorem proper_where {pred : Predicate} (h : IsIdentifier pred.column) :
    ∀ x ∈ whereLexemes pred, x.Proper :=
  forall_mem_cons.mpr
    ⟨proper_keyword (by decide), proper_equation h pred.value⟩

theorem Statement.Supported.proper (h : stmt.Supported) :
    ∀ x ∈ stmt.lexemes, x.Proper := by
  refine forall_mem_cons.mpr ⟨?_, ?_⟩
  · have hall : ∀ s ∈ Parser.statementKeywords, ascii s ∈ keywords := by decide +kernel
    exact proper_keyword (hall _ (Parser.keyword_mem stmt))
  cases stmt with
  | createTable table columns =>
    refine forall_mem_cons.mpr ⟨proper_keyword (by decide),
      forall_mem_cons.mpr ⟨h.1.proper, proper_parenthesized (proper_commaSeparated ?_)⟩⟩
    exact fun c hc => proper_columnDef (h.2.forall_mem c hc)
  | insert table columns values =>
    obtain ⟨htable, hcolumns, -⟩ := h
    refine forall_mem_cons.mpr ⟨proper_keyword (by decide),
      forall_mem_cons.mpr ⟨htable.proper, forall_mem_append.mpr ⟨?_, ?_⟩⟩⟩
    · cases columns with
      | none => nofun
      | some names => exact proper_parenthesized (proper_names (hcolumns names rfl))
    · refine forall_mem_cons.mpr ⟨proper_keyword (by decide),
        proper_parenthesized (proper_commaSeparated ?_)⟩
      exact fun v _ => forall_mem_singleton.mpr (proper_literal v)
  | select table columns pred =>
    obtain ⟨htable, hcolumns, hpred⟩ := h
    refine forall_mem_append.mpr ⟨?_, forall_mem_cons.mpr
      ⟨proper_keyword (by decide), forall_mem_cons.mpr ⟨htable.proper, ?_⟩⟩⟩
    · cases columns with
      | none =>
        exact forall_mem_singleton.mpr (by decide : symbol .star ≠ [])
      | some names => exact proper_names (hcolumns names rfl)
    · cases pred with
      | none => nofun
      | some pred => exact proper_where (hpred pred rfl)
  | update table assignments pred =>
    obtain ⟨htable, hassign, hpred⟩ := h
    refine forall_mem_cons.mpr ⟨htable.proper, forall_mem_cons.mpr
      ⟨proper_keyword (by decide), forall_mem_append.mpr
        ⟨proper_commaSeparated fun a ha => proper_equation (hassign.forall_mem a ha) a.value,
          proper_where hpred⟩⟩⟩
  | delete table pred =>
    exact forall_mem_cons.mpr ⟨proper_keyword (by decide),
      forall_mem_cons.mpr ⟨h.1.proper, proper_where h.2⟩⟩
  | start | commit | rollback => nofun

theorem parse_iff {src : Bytes} :
    parse src = .ok stmt ↔ src.length ≤ maxStatementBytes ∧ stmt.Supported ∧
      ∃ semi, (semi = [] ∨ semi = [.punct .semicolon]) ∧ Renders (stmt.lexemes ++ semi) src := by
  by_cases hlong : src.length > maxStatementBytes
  · rw [parse, if_pos hlong]
    exact iff_of_false (by simp) fun h => absurd h.1 (Nat.not_le.mpr hlong)
  have hlen : src.length ≤ maxStatementBytes := Nat.not_lt.mp hlong
  have htokens : ∀ {ts}, Lexer.tokens (src.length + 1) ⟨0, src⟩ = .ok ts ↔ Lexed 0 src ts :=
    Lexer.tokens_iff (Nat.lt_succ_self _) hlen
  have hproper : ∀ {semi : List Lexeme}, (semi = [] ∨ semi = [.punct .semicolon]) →
      stmt.Supported → ∀ x ∈ stmt.lexemes ++ semi, x.Proper := by
    rintro semi (rfl | rfl) h
    · simpa using h.proper
    · refine forall_mem_append.mpr ⟨h.proper, forall_mem_singleton.mpr ?_⟩
      exact (by decide : symbol .semicolon ≠ [])
  rw [parse, if_neg hlong]
  constructor
  · intro h
    cases hlex : Lexer.tokens (src.length + 1) ⟨0, src⟩ with
    | error e => rw [hlex] at h; cases h
    | ok toks =>
      rw [hlex] at h
      dsimp only at h
      have hlexed := htokens.mp hlex
      obtain ⟨t, tail, rfl⟩ := hlexed.good.ne_nil
      cases hparse : Parser.parseInput (t :: tail) with
      | error e => rw [hparse] at h; cases h
      | ok r =>
        rw [hparse] at h
        cases h
        obtain ⟨hsupported, semi, hsemi, hspans, e, hrest, he⟩ :=
          ((Parser.exact_parseInput t).iff hlexed.good).mp hparse
        rw [hrest] at hspans
        exact ⟨hlen, hsupported, semi, hsemi,
          (renders_iff (hproper hsemi hsupported) 0).mpr ⟨_, e, hlexed, hspans, he⟩⟩
  · rintro ⟨-, hsupported, semi, hsemi, hrenders⟩
    obtain ⟨toks, e, hlexed, hspans, he⟩ :=
      (renders_iff (hproper hsemi hsupported) 0).mp hrenders
    obtain ⟨t, tail, rfl⟩ := hlexed.good.ne_nil
    rw [htokens.mpr hlexed]
    dsimp only
    rw [((Parser.exact_parseInput t).iff hlexed.good).mpr
      ⟨hsupported, semi, hsemi, hspans, e, rfl, he⟩]

/-- The parser is exact for its grammar.  A rendering spells every integer by its numeral at
least, and any space separates tokens; and the lexer ends, since each token takes a byte. -/
theorem parser_exact :
    (∀ src stmt, parse src = .ok stmt ↔ src.length ≤ maxStatementBytes ∧ stmt.Supported ∧
      ∃ semi, (semi = [] ∨ semi = [.punct .semicolon]) ∧ Renders (stmt.lexemes ++ semi) src) ∧
    (∀ i : Int64, (Lexeme.int i).Spells
      ((if i.toInt < 0 then [minus] else []) ++ numeral i.toInt.natAbs)) ∧
    (∀ (kind : TokenKind) (rest : Bytes), (∀ c ∈ rest.head?, isSpace c = true) →
      kind.Joins rest) ∧
    (∀ (l l' : Lexer) (t : Token), l.rest.length ≤ maxStatementBytes → l.next = .ok (t, l') →
      t.kind ≠ .eof → l'.rest.length < l.rest.length) ∧
    ∀ (src : Bytes) (turns : Nat), src.length ≤ maxStatementBytes → src.length < turns →
      Lexer.tokens turns ⟨0, src⟩ = Lexer.tokens (src.length + 1) ⟨0, src⟩ := by
  refine ⟨fun src stmt => parse_iff, spellsInt_numeral, fun kind rest => joins_of_isSpace kind,
    fun l l' t hlen hnext => (Lexer.next_spec hlen hnext).2.2, fun src turns hlen hturns => ?_⟩
  exact Lexer.tokens_turns hlen hturns (Nat.lt_succ_self _)

/-- Redundant zeros, a doubled quote, and tokens without space between them. -/
theorem parser_exact_update :
    (Statement.update (ascii "t") [⟨ascii "v", .str (ascii "it's")⟩]
      ⟨ascii "k", .int (-7)⟩).Supported ∧
    ∃ semi, (semi = [] ∨ semi = [.punct .semicolon]) ∧
      Renders ((Statement.update (ascii "t") [⟨ascii "v", .str (ascii "it's")⟩]
        ⟨ascii "k", .int (-7)⟩).lexemes ++ semi)
        (ascii "Update T set V='it''s'WHERE k=-007 ;") := by
  have hparse : parse (ascii "Update T set V='it''s'WHERE k=-007 ;") =
      .ok (.update (ascii "t") [⟨ascii "v", .str (ascii "it's")⟩] ⟨ascii "k", .int (-7)⟩) := by
    decide +kernel
  exact ((parser_exact.1 _ _).mp hparse).2

end ChronicleDB.Sql
