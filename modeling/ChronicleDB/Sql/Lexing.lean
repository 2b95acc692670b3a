import ChronicleDB.Foundation.Decimal
import ChronicleDB.Sql.Syntax

/-!
# Texts and their tokens

The lexer of `internal/sql/lexer.go` from the other side: how the tokens of a
statement are spelled, and that a text has exactly the tokens that it spells with
space between them.
-/

namespace ChronicleDB.Sql

open Foundation List

variable {body rest src tail text : Bytes} {t : Token} {p : Nat} {c : UInt8} {l' : Lexer}

/-! ## Spelling -/

def symbol : TokenKind → Bytes
  | .lparen => ascii "("
  | .rparen => ascii ")"
  | .comma => ascii ","
  | .semicolon => ascii ";"
  | .equals => ascii "="
  | .star => ascii "*"
  | _ => []

/-- The contents of a string with every quote written twice. -/
def doubled (s : Bytes) : Bytes := s.flatMap fun c => if c = quote then [quote, quote] else [c]

def IsSpaces (s : Bytes) : Prop := ∀ c ∈ s, isSpace c = true

/-- The bytes that would go on with a token of this kind. -/
def TokenKind.continues : TokenKind → UInt8 → Bool
  | .ident, c => isIdentCont c
  | .int, c => isDigit c
  | .string, c => c == quote
  | _, _ => false

/-- What can stand directly behind a token of this kind. -/
def TokenKind.Joins (kind : TokenKind) (rest : Bytes) : Prop :=
  ∀ c ∈ rest.head?, kind.continues c = false

def IsInteger (text : Bytes) : Prop :=
  ∃ sign digits, text = sign ++ digits ∧ (sign = [] ∨ sign = [minus]) ∧ digits ≠ [] ∧
    ∀ c ∈ digits, isDigit c = true

def Token.Spelled (t : Token) (text : Bytes) : Prop :=
  match t.kind with
  | .ident => t.text = foldIdent text ∧ (∃ c ∈ text.head?, isIdentStart c = true) ∧
      (∀ c ∈ text, isIdentCont c = true) ∧ text.length ≤ maxIdentifierBytes
  | .int => t.text = text ∧ IsInteger text ∧ text.length ≤ maxIntegerDigits
  | .string => text = quote :: (doubled t.text ++ [quote])
  | .eof => False
  | kind => t.text = [] ∧ text = symbol kind

/-- The tokens of a text that stands at `p`: each behind its space, and the end. -/
def Lexed : Nat → Bytes → List Token → Prop
  | _, _, [] => False
  | p, src, t :: ts => ∃ space body, src = space ++ body ∧ IsSpaces space ∧
      t.pos = p + space.length ∧
      ((t.kind = .eof ∧ t.text = [] ∧ body = [] ∧ ts = []) ∨
        ∃ text rest, body = text ++ rest ∧ t.Spelled text ∧ t.kind.Joins rest ∧
          Lexed (t.pos + text.length) rest ts)

/-! ## Bytes -/

theorem forall_byte {p : UInt8 → Prop} (h : ∀ n : Fin 256, p (.ofFin n)) (c : UInt8) : p c :=
  h c.toFin

theorem of_isIdentStart (c : UInt8) (h : isIdentStart c = true) :
    Lexer.punctuation c = none ∧ c ≠ quote ∧ isDigit c = false ∧ c ≠ minus ∧
      isSpace c = false := by
  revert c
  exact forall_byte (by decide +kernel)

theorem of_isDigit (c : UInt8) (h : isDigit c = true) :
    Lexer.punctuation c = none ∧ c ≠ quote ∧ c ≠ minus ∧ isSpace c = false := by
  revert c
  exact forall_byte (by decide +kernel)

theorem punctuation_eq_some (c : UInt8) (kind : TokenKind) :
    Lexer.punctuation c = some kind ↔ symbol kind = [c] := by
  revert c
  cases kind <;> exact forall_byte (by decide +kernel)

theorem isSpace_of_punctuation (c : UInt8) (h : Lexer.punctuation c ≠ none) :
    isSpace c = false := by
  revert c
  exact forall_byte (by decide +kernel)

theorem isDecimal_iff (c : UInt8) : IsDecimal c ↔ isDigit c = true := by
  simp [IsDecimal, isDigit, UInt8.le_iff_toNat_le]

theorem cut_iff_takeWhile {p : UInt8 → Bool} :
    body = text ++ rest ∧ (∀ c ∈ text, p c = true) ∧ (∀ c ∈ rest.head?, p c = false) ↔
      text = body.takeWhile p ∧ rest = body.drop text.length := by
  constructor
  · rintro ⟨rfl, htext, hrest⟩
    refine ⟨?_, by simp⟩
    rw [takeWhile_append_of_pos htext]
    cases rest with
    | nil => simp
    | cons c rest => simp [hrest c rfl]
  · rintro ⟨rfl, rfl⟩
    have hdrop : body.drop (body.takeWhile p).length = body.dropWhile p := by
      have hcut := congrArg (drop (body.takeWhile p).length)
        (takeWhile_append_dropWhile (p := p) (l := body))
      rw [drop_left] at hcut
      exact hcut.symm
    rw [hdrop]
    refine ⟨takeWhile_append_dropWhile.symm, fun c hc => mem_takeWhile_imp hc, fun c hc => ?_⟩
    have hnot := head?_dropWhile_not p body
    rw [Option.mem_def.mp hc] at hnot
    exact hnot

/-! ## One token -/

theorem Token.Spelled.head (h : t.Spelled text) :
    ∃ c tail, text = c :: tail ∧
      ((t.kind = .ident ∧ isIdentStart c = true) ∨
        (t.kind = .int ∧ (isDigit c = true ∨ (c = minus ∧ ∃ d ∈ tail.head?, isDigit d = true))) ∨
        (t.kind = .string ∧ c = quote) ∨
        (Lexer.punctuation c = some t.kind ∧ t.text = [] ∧ tail = [])) := by
  obtain ⟨kind, ttext, pos⟩ := t
  cases kind with
  | ident =>
    obtain ⟨-, ⟨c, hc, hstart⟩, -⟩ := h
    obtain ⟨tail, rfl⟩ := head?_eq_some_iff.mp hc
    exact ⟨c, tail, rfl, .inl ⟨rfl, hstart⟩⟩
  | int =>
    obtain ⟨-, ⟨sign, digits, rfl, hsign, hne, hdigits⟩, -⟩ := h
    obtain ⟨d, tail, rfl⟩ := exists_cons_of_ne_nil hne
    have hd := hdigits d (by simp)
    rcases hsign with rfl | rfl
    · exact ⟨d, tail, rfl, .inr (.inl ⟨rfl, .inl hd⟩)⟩
    · exact ⟨minus, d :: tail, rfl, .inr (.inl ⟨rfl, .inr ⟨rfl, d, rfl, hd⟩⟩)⟩
  | string => exact ⟨quote, _, h, .inr (.inr (.inl ⟨rfl, rfl⟩))⟩
  | eof => exact h.elim
  | lparen | rparen | comma | semicolon | equals | star =>
    obtain ⟨htext, rfl⟩ := h
    exact ⟨_, _, rfl, .inr (.inr (.inr ⟨(punctuation_eq_some _ _).mpr rfl, htext, rfl⟩))⟩

theorem Token.Spelled.not_space (h : t.Spelled text) :
    ∀ c ∈ text.head?, isSpace c = false := by
  obtain ⟨c, tail, rfl, hcases⟩ := h.head
  rintro _ ⟨rfl⟩
  rcases hcases with ⟨-, hstart⟩ | ⟨-, hdigit | ⟨rfl, -⟩⟩ | ⟨-, rfl⟩ | ⟨hpunct, -⟩
  · exact (of_isIdentStart c hstart).2.2.2.2
  · exact (of_isDigit c hdigit).2.2.2
  · rfl
  · rfl
  · exact isSpace_of_punctuation c (by simp [hpunct])

theorem TokenKind.joins_of_punctuation {kind : TokenKind}
    (h : Lexer.punctuation c = some kind) (rest : Bytes) : kind.Joins rest := by
  rw [punctuation_eq_some] at h
  cases kind with
  | eof | ident | int | string => cases h
  | lparen | rparen | comma | semicolon | equals | star => exact fun _ _ => rfl

theorem Token.spelled_symbol {kind : TokenKind} (p : Nat)
    (h : Lexer.punctuation c = some kind) : Token.Spelled ⟨kind, [], p⟩ [c] := by
  rw [punctuation_eq_some] at h
  cases kind with
  | eof | ident | int | string => cases h
  | lparen | rparen | comma | semicolon | equals | star => exact ⟨rfl, h.symm⟩

theorem Token.Spelled.head_append (h : t.Spelled text) (hcut : c :: tail = text ++ rest) :
    (t.kind = .ident ∧ isIdentStart c = true) ∨
      (t.kind = .int ∧ (isDigit c || (c == minus && tail.head?.any isDigit)) = true) ∨
      (t.kind = .string ∧ c = quote) ∨
      (Lexer.punctuation c = some t.kind ∧ t.text = [] ∧ text = [c]) := by
  obtain ⟨d, tail', rfl, hcases⟩ := h.head
  obtain ⟨rfl, rfl⟩ := cons.inj hcut
  rcases hcases with hident | ⟨hint, hdigit | ⟨rfl, e, he, hdigit⟩⟩ | hstring | hpunct
  · exact .inl hident
  · exact .inr (.inl ⟨hint, by simp [hdigit]⟩)
  · obtain ⟨tail'', rfl⟩ := head?_eq_some_iff.mp he
    exact .inr (.inl ⟨hint, by simp [hdigit]⟩)
  · exact .inr (.inr (.inl hstring))
  · exact .inr (.inr (.inr ⟨hpunct.1, hpunct.2.1, by rw [hpunct.2.2]⟩))

namespace Lexer

theorem lexIdent_iff (hc : isIdentStart c = true) :
    lexIdent ⟨p, c :: tail⟩ = .ok (t, l') ↔ t.kind = .ident ∧ t.pos = p ∧
      ∃ text rest, c :: tail = text ++ rest ∧ t.Spelled text ∧ t.kind.Joins rest ∧
        l' = ⟨p + text.length, rest⟩ := by
  have hcont : isIdentCont c = true := by rw [isIdentCont, hc, Bool.true_or]
  unfold lexIdent
  constructor
  · intro h
    dsimp only at h
    split at h
    · cases h
    rename_i hlen
    cases h
    obtain ⟨hcut, hall, hstop⟩ := cut_iff_takeWhile.mpr
      ⟨rfl, (rfl : (c :: tail).drop ((c :: tail).takeWhile isIdentCont).length = _)⟩
    refine ⟨rfl, rfl, _, _, hcut, ⟨rfl, ?_, hall, Nat.not_lt.mp hlen⟩, hstop, rfl⟩
    rw [takeWhile_cons_of_pos hcont]
    exact ⟨c, rfl, hc⟩
  · rintro ⟨hkind, rfl, text, rest, hcut, hspelled, hjoins, rfl⟩
    obtain ⟨kind, ttext, pos⟩ := t
    cases hkind
    obtain ⟨rfl, -, hall, hlen⟩ := hspelled
    obtain ⟨htext, hrest⟩ := cut_iff_takeWhile.mp ⟨hcut, hall, hjoins⟩
    simp only [← htext, if_neg (Nat.not_lt.mpr hlen), advance]
    rw [hrest]

theorem sign_eq {sign digits : Bytes} (hbody : body = sign ++ (digits ++ rest))
    (hsign : sign = [] ∨ sign = [minus]) (hne : digits ≠ [])
    (hdigits : ∀ c ∈ digits, isDigit c = true) :
    (if body.head? = some minus then [minus] else []) = sign := by
  obtain ⟨d, tail, rfl⟩ := exists_cons_of_ne_nil hne
  rcases hsign with rfl | rfl
  · have hd := (of_isDigit d (hdigits d (by simp))).2.2.1
    rw [hbody, if_neg (by simpa using hd)]
  · rw [hbody]
    rfl

theorem lexInt_iff :
    lexInt ⟨p, body⟩ = .ok (t, l') ↔ t.kind = .int ∧ t.pos = p ∧
      ∃ text rest, body = text ++ rest ∧ t.Spelled text ∧ t.kind.Joins rest ∧
        l' = ⟨p + text.length, rest⟩ := by
  unfold lexInt
  dsimp only
  constructor
  · intro h
    set sign := if body.head? = some minus then [minus] else [] with hsign
    have hcases : sign = [] ∨ sign = [minus] := by
      rw [hsign]
      split
      · exact .inr rfl
      · exact .inl rfl
    have hbody : body = sign ++ body.drop sign.length := by
      rw [hsign]
      split
      · rename_i hminus
        obtain ⟨tail, rfl⟩ := head?_eq_some_iff.mp hminus
        rfl
      · rfl
    obtain ⟨hcut, hall, hstop⟩ := cut_iff_takeWhile.mpr ⟨rfl,
      (rfl : (body.drop sign.length).drop ((body.drop sign.length).takeWhile isDigit).length = _)⟩
    split at h
    · cases h
    rename_i hne
    split at h
    · cases h
    rename_i hlen
    cases h
    refine ⟨rfl, rfl, _, _, ?_, ⟨rfl, ⟨sign, _, rfl, hcases, hne, hall⟩, Nat.not_lt.mp hlen⟩,
      hstop, ?_⟩
    · rw [append_assoc, ← hcut]
      exact hbody
    · rw [advance, length_append, ← drop_drop]
  · rintro ⟨hkind, rfl, text, rest, hcut, hspelled, hjoins, rfl⟩
    obtain ⟨kind, ttext, pos⟩ := t
    cases hkind
    obtain ⟨rfl, ⟨sign, digits, rfl, hsign, hne, hall⟩, hlen⟩ := hspelled
    rw [append_assoc] at hcut
    rw [sign_eq hcut hsign hne hall]
    have hdrop : body.drop sign.length = digits ++ rest := by rw [hcut, drop_left]
    obtain ⟨hdigits, hrest⟩ := cut_iff_takeWhile.mp ⟨hdrop, hall, hjoins⟩
    rw [← hdigits, if_neg hne, if_neg (Nat.not_lt.mpr hlen), advance, length_append,
      ← drop_drop, ← hrest]

theorem cons_eq_doubled_iff {s : Bytes} :
    c :: src = doubled s ++ quote :: rest ↔
      (s = [] ∧ c = quote ∧ src = rest) ∨
      (∃ s', s = quote :: s' ∧ c = quote ∧ src = quote :: (doubled s' ++ quote :: rest)) ∨
      ∃ s', s = c :: s' ∧ c ≠ quote ∧ src = doubled s' ++ quote :: rest := by
  cases s with
  | nil => simp [doubled]
  | cons d s =>
    by_cases hd : d = quote
    · subst hd
      have hcons : doubled (quote :: s) = quote :: quote :: doubled s := rfl
      simp only [hcons, cons_append, cons.injEq]
      grind
    · have hcons : doubled (d :: s) = d :: doubled s := by simp [doubled, hd]
      simp only [hcons, cons_append, cons.injEq]
      grind

theorem scanString_iff {start : Nat} {acc : Bytes}
    (hlen : acc.length + src.length ≤ maxStringLiteralBytes) :
    scanString start acc src = .ok (text, rest) ↔
      ∃ s, text = acc ++ s ∧ src = doubled s ++ quote :: rest ∧ rest.head? ≠ some quote := by
  fun_induction scanString start acc src with
  | case1 acc => simp
  | case2 acc =>
    simp only [cons_eq_doubled_iff, Except.ok.injEq, Prod.mk.injEq]
    constructor
    · rintro ⟨rfl, rfl⟩
      exact ⟨[], by simp, .inl ⟨rfl, trivial, rfl⟩, by simp⟩
    · rintro ⟨s, rfl, ⟨rfl, -, rfl⟩ | ⟨s', -, -, hnil⟩ | ⟨s', -, hne, -⟩, -⟩
      · simp
      · cases hnil
      · exact absurd rfl hne
  | case3 acc rest' ih =>
    rw [ih (by simp at hlen ⊢; omega)]
    constructor
    · rintro ⟨s, rfl, rfl, hstop⟩
      exact ⟨quote :: s, by simp, by simp [doubled], hstop⟩
    · rintro ⟨s, rfl, hsrc, hstop⟩
      rcases cons_eq_doubled_iff.mp hsrc with ⟨-, -, rfl⟩ | ⟨s', rfl, -, hrest⟩ | ⟨s', -, hne, -⟩
      · exact absurd rfl hstop
      · exact ⟨s', by simp, (cons.inj hrest).2, hstop⟩
      · exact absurd rfl hne
  | case4 acc c' rest' hc' =>
    simp only [Except.ok.injEq, Prod.mk.injEq]
    constructor
    · rintro ⟨rfl, rfl⟩
      exact ⟨[], by simp, rfl, by simpa using hc'⟩
    · rintro ⟨s, rfl, hsrc, -⟩
      rcases cons_eq_doubled_iff.mp hsrc with ⟨rfl, -, rfl⟩ | ⟨s', -, -, hrest⟩ | ⟨s', -, hne, -⟩
      · simp
      · exact absurd (cons.inj hrest).1 hc'
      · exact absurd rfl hne
  | case5 acc c rest' hc hlong =>
    simp at hlen hlong
    omega
  | case6 acc c rest' hc hshort ih =>
    rw [ih (by simp at hlen ⊢; omega)]
    constructor
    · rintro ⟨s, rfl, rfl, hstop⟩
      exact ⟨c :: s, by simp, by simp [doubled, hc], hstop⟩
    · rintro ⟨s, rfl, hsrc, hstop⟩
      rcases cons_eq_doubled_iff.mp hsrc with ⟨-, hq, -⟩ | ⟨s', -, hq, -⟩ | ⟨s', rfl, -, hrest⟩
      · exact absurd hq hc
      · exact absurd hq hc
      · exact ⟨s', by simp, hrest, hstop⟩

theorem lexString_iff (hlen : tail.length ≤ maxStringLiteralBytes) :
    lexString ⟨p, quote :: tail⟩ = .ok (t, l') ↔ t.kind = .string ∧ t.pos = p ∧
      ∃ text rest, quote :: tail = text ++ rest ∧ t.Spelled text ∧ t.kind.Joins rest ∧
        l' = ⟨p + text.length, rest⟩ := by
  unfold lexString
  dsimp only [tail_cons]
  constructor
  · intro h
    cases hscan : scanString p [] tail with
    | error e => rw [hscan] at h; cases h
    | ok r =>
      rw [hscan] at h
      cases h
      obtain ⟨s, hs, hsrc, hstop⟩ := (scanString_iff (by simpa using hlen)).mp hscan
      rw [nil_append] at hs
      refine ⟨rfl, rfl, quote :: (doubled r.1 ++ [quote]), r.2, by rw [hsrc, hs]; simp, rfl, ?_, ?_⟩
      · intro c hc
        exact beq_false_of_ne fun heq => hstop (heq ▸ hc)
      · rw [hsrc, hs]
        simp
        omega
  · rintro ⟨hkind, rfl, text, rest, hcut, hspelled, hjoins, rfl⟩
    obtain ⟨kind, ttext, pos⟩ := t
    cases hkind
    obtain rfl : text = quote :: (doubled ttext ++ [quote]) := hspelled
    have htail : tail = doubled ttext ++ quote :: rest := by simpa using hcut
    have hstop : rest.head? ≠ some quote := fun hhead => by
      have := hjoins quote hhead
      simp [TokenKind.continues] at this
    rw [(scanString_iff (by simpa using hlen)).mpr ⟨ttext, rfl, htail, hstop⟩]
    simp [htail]
    omega

theorem skipSpace_eq {space : Bytes} (hspace : IsSpaces space)
    (hbody : ∀ c ∈ body.head?, isSpace c = false) :
    skipSpace ⟨p, space ++ body⟩ = ⟨p + space.length, body⟩ := by
  obtain ⟨htake, hdrop⟩ := cut_iff_takeWhile.mp ⟨rfl, hspace, hbody⟩
  simp only [skipSpace, advance, ← htake, drop_left]

theorem next_body_iff {l : Lexer}
    (hskip : l.skipSpace = ⟨p, c :: tail⟩) (hlen : tail.length ≤ maxStringLiteralBytes) :
    l.next = .ok (t, l') ↔ t.pos = p ∧
      ∃ text rest, c :: tail = text ++ rest ∧ t.Spelled text ∧ t.kind.Joins rest ∧
        l' = ⟨p + text.length, rest⟩ := by
  have hforget : ∀ {k : TokenKind} {X : Prop}, (X → t.kind = k) → ((t.kind = k ∧ X) ↔ X) :=
    fun hk => ⟨fun h => h.2, fun h => ⟨hk h, h⟩⟩
  rw [next, hskip]
  dsimp only
  cases hpunct : punctuation c with
  | some kind =>
    constructor
    · intro h
      cases h
      exact ⟨rfl, [c], tail, rfl, Token.spelled_symbol p hpunct,
        TokenKind.joins_of_punctuation hpunct tail, rfl⟩
    · rintro ⟨rfl, text, rest, hcut, hspelled, -, rfl⟩
      rcases hspelled.head_append hcut with ⟨-, hstart⟩ | ⟨-, hint⟩ | ⟨-, rfl⟩ | ⟨hkind, htext, rfl⟩
      · rw [(of_isIdentStart c hstart).1] at hpunct
        cases hpunct
      · by_cases hdigit : isDigit c = true
        · rw [(of_isDigit c hdigit).1] at hpunct
          cases hpunct
        · simp only [hdigit, Bool.false_or, Bool.and_eq_true, beq_iff_eq] at hint
          rw [hint.1] at hpunct
          cases hpunct
      · cases hpunct
      · obtain ⟨tkind, ttext, pos⟩ := t
        cases hkind.symm.trans hpunct
        cases htext
        cases hcut
        rfl
  | none =>
    dsimp only
    by_cases hquote : c = quote
    · subst hquote
      rw [if_pos rfl, lexString_iff hlen]
      refine hforget ?_
      rintro ⟨-, text, rest, hcut, hspelled, -⟩
      rcases hspelled.head_append hcut with ⟨-, hstart⟩ | ⟨-, hint⟩ | ⟨hkind, -⟩ | ⟨hsymbol, -⟩
      · cases hstart
      · cases hint
      · exact hkind
      · cases hsymbol
    rw [if_neg hquote]
    by_cases hint : (isDigit c || (c == minus && tail.head?.any isDigit)) = true
    · rw [if_pos hint, lexInt_iff]
      refine hforget ?_
      rintro ⟨-, text, rest, hcut, hspelled, -⟩
      rcases hspelled.head_append hcut with ⟨-, hstart⟩ | ⟨hkind, -⟩ | ⟨-, hq⟩ | ⟨hsymbol, -⟩
      · obtain ⟨-, -, hdigit, hminus, -⟩ := of_isIdentStart c hstart
        simp [hdigit, hminus] at hint
      · exact hkind
      · exact absurd hq hquote
      · rw [hpunct] at hsymbol
        cases hsymbol
    rw [if_neg hint]
    by_cases hstart : isIdentStart c = true
    · rw [if_pos hstart, lexIdent_iff hstart]
      refine hforget ?_
      rintro ⟨-, text, rest, hcut, hspelled, -⟩
      rcases hspelled.head_append hcut with ⟨hkind, -⟩ | ⟨-, hint'⟩ | ⟨-, hq⟩ | ⟨hsymbol, -⟩
      · exact hkind
      · exact absurd hint' hint
      · exact absurd hq hquote
      · rw [hpunct] at hsymbol
        cases hsymbol
    · rw [if_neg hstart]
      constructor
      · intro h
        cases h
      · rintro ⟨-, text, rest, hcut, hspelled, -⟩
        rcases hspelled.head_append hcut with ⟨-, hstart'⟩ | ⟨-, hint'⟩ | ⟨-, hq⟩ | ⟨hsymbol, -⟩
        · exact absurd hstart' hstart
        · exact absurd hint' hint
        · exact absurd hq hquote
        · rw [hpunct] at hsymbol
          cases hsymbol

theorem next_iff (hlen : src.length ≤ maxStringLiteralBytes) :
    next ⟨p, src⟩ = .ok (t, l') ↔ ∃ space body, src = space ++ body ∧ IsSpaces space ∧
      t.pos = p + space.length ∧
      ((t.kind = .eof ∧ t.text = [] ∧ body = [] ∧ l' = ⟨t.pos, []⟩) ∨
        ∃ text rest, body = text ++ rest ∧ t.Spelled text ∧ t.kind.Joins rest ∧
          l' = ⟨t.pos + text.length, rest⟩) := by
  have hnil : ∀ {space : Bytes}, IsSpaces space →
      next ⟨p, space ++ []⟩ = .ok (⟨.eof, [], p + space.length⟩, ⟨p + space.length, []⟩) := by
    intro space hspace
    rw [next, skipSpace_eq hspace (by simp)]
  have hbound : ∀ {space body : Bytes} {c : UInt8} {tail : Bytes}, src = space ++ body →
      body = c :: tail → tail.length ≤ maxStringLiteralBytes := by
    rintro space body c tail rfl rfl
    simp only [length_append, length_cons] at hlen
    omega
  constructor
  · intro h
    obtain ⟨hcut, hspace, hbody⟩ := cut_iff_takeWhile.mpr
      ⟨rfl, (rfl : src.drop (src.takeWhile isSpace).length = _)⟩
    have hskip := skipSpace_eq hspace hbody (p := p)
    refine ⟨_, _, hcut, hspace, ?_⟩
    cases hrest : src.drop (src.takeWhile isSpace).length with
    | nil =>
      rw [hcut, hrest, hnil hspace] at h
      cases h
      exact ⟨rfl, .inl ⟨rfl, rfl, rfl, rfl⟩⟩
    | cons c tail =>
      rw [hcut] at h
      rw [hrest] at hskip
      obtain ⟨hpos, text, rest, hbody, hspelled, hjoins, hl⟩ :=
        (next_body_iff (by rwa [hrest]) (hbound hcut hrest)).mp h
      exact ⟨hpos, .inr ⟨text, rest, hbody, hspelled, hjoins, hpos ▸ hl⟩⟩
  · rintro ⟨space, body, rfl, hspace, hpos, ⟨hkind, htext, rfl, rfl⟩ | ⟨text, rest, hbody,
      hspelled, hjoins, rfl⟩⟩
    · rw [hnil hspace]
      obtain ⟨kind, ttext, pos⟩ := t
      cases hkind
      cases htext
      cases hpos
      rfl
    · obtain ⟨c, tail, rfl, -⟩ := hspelled.head
      subst hbody
      have hskip := @skipSpace_eq (c :: tail ++ rest) p space hspace hspelled.not_space
      rw [hpos]
      exact (next_body_iff hskip (hbound rfl rfl)).mpr
        ⟨hpos, c :: tail, rest, rfl, hspelled, hjoins, rfl⟩

theorem tokens_iff {turns : Nat} {ts : List Token} (hturns : src.length < turns)
    (hlen : src.length ≤ maxStringLiteralBytes) :
    tokens turns ⟨p, src⟩ = .ok ts ↔ Lexed p src ts := by
  induction turns generalizing p src ts with
  | zero => omega
  | succ turns ih =>
    have hshort : ∀ {space body text rest : Bytes} {t : Token}, src = space ++ body →
        body = text ++ rest → t.Spelled text →
        rest.length < turns ∧ rest.length ≤ maxStringLiteralBytes := by
      rintro space body text rest t rfl rfl hspelled
      obtain ⟨c, tail, rfl, -⟩ := hspelled.head
      simp only [length_append, length_cons] at hturns hlen
      omega
    have hnot : ∀ {t : Token} {text : Bytes}, t.Spelled text → t.kind ≠ .eof := by
      intro t text hspelled hkind
      rw [Token.Spelled, hkind] at hspelled
      exact hspelled
    rw [tokens]
    constructor
    · intro h
      cases hnext : next ⟨p, src⟩ with
      | error e => rw [hnext] at h; cases h
      | ok r =>
        obtain ⟨t, l'⟩ := r
        rw [hnext] at h
        dsimp only at h
        obtain ⟨space, body, hsrc, hspace, hpos, ⟨hkind, htext, hbody, -⟩ | ⟨text, rest, hbody,
          hspelled, hjoins, rfl⟩⟩ := (next_iff hlen).mp hnext
        · rw [if_pos hkind] at h
          cases h
          exact ⟨space, body, hsrc, hspace, hpos, .inl ⟨hkind, htext, hbody, rfl⟩⟩
        · rw [if_neg (hnot hspelled)] at h
          obtain ⟨hlt, hle⟩ := hshort hsrc hbody hspelled
          cases hrest : tokens turns ⟨t.pos + text.length, rest⟩ with
          | error e => rw [hrest] at h; cases h
          | ok ts' =>
            rw [hrest] at h
            cases h
            exact ⟨space, body, hsrc, hspace, hpos,
              .inr ⟨text, rest, hbody, hspelled, hjoins, (ih hlt hle).mp hrest⟩⟩
    · intro h
      cases ts with
      | nil => exact h.elim
      | cons t ts' =>
        obtain ⟨space, body, hsrc, hspace, hpos, ⟨hkind, htext, hbody, rfl⟩ | ⟨text, rest, hbody,
          hspelled, hjoins, hlexed⟩⟩ := h
        · rw [(next_iff hlen).mpr
            ⟨space, body, hsrc, hspace, hpos, .inl ⟨hkind, htext, hbody, rfl⟩⟩]
          dsimp only
          rw [if_pos hkind]
        · obtain ⟨hlt, hle⟩ := hshort hsrc hbody hspelled
          rw [(next_iff hlen).mpr
            ⟨space, body, hsrc, hspace, hpos, .inr ⟨text, rest, hbody, hspelled, hjoins, rfl⟩⟩]
          dsimp only
          rw [if_neg (hnot hspelled), (ih hlt hle).mpr hlexed]

theorem tokens_turns {turns turns' : Nat} {l : Lexer} (hlen : l.rest.length ≤ maxStringLiteralBytes)
    (h : l.rest.length < turns) (h' : l.rest.length < turns') :
    tokens turns l = tokens turns' l := by
  induction turns generalizing turns' l with
  | zero => omega
  | succ turns ih =>
    obtain ⟨turns', rfl⟩ := Nat.exists_eq_succ_of_ne_zero (show turns' ≠ 0 by omega)
    rw [tokens, tokens]
    cases hnext : l.next with
    | error e => rfl
    | ok r =>
      obtain ⟨t, l'⟩ := r
      obtain ⟨-, hle, hlt⟩ := next_spec hlen hnext
      dsimp only
      by_cases hkind : t.kind = .eof
      · rw [if_pos hkind, if_pos hkind]
      · have := hlt hkind
        rw [if_neg hkind, if_neg hkind, @ih turns' l' (hle.trans hlen) (by omega) (by omega)]

end Lexer

/-! ## Lexemes -/

inductive Lexeme where
  | word (text : Bytes)
  | int (i : Int64)
  | str (s : Bytes)
  | punct (kind : TokenKind)
  deriving DecidableEq

variable {x : Lexeme}

def Lexeme.kind : Lexeme → TokenKind
  | .word _ => .ident
  | .int _ => .int
  | .str _ => .string
  | .punct kind => kind

/-- The numeral of an integer, perhaps behind zeros, and behind a minus sign if the integer is
negative and perhaps if it is zero. -/
def SpellsInt (i : Int64) (text : Bytes) : Prop :=
  ∃ (negative : Bool) (zeros : Nat),
    text = (if negative then [minus] else []) ++
      (List.replicate zeros zeroDigit ++ numeral i.toInt.natAbs) ∧
    (if negative then i.toInt ≤ 0 else 0 ≤ i.toInt) ∧ text.length ≤ maxIntegerDigits

/-- Words in any case, and strings with their quotes doubled. -/
def Lexeme.Spells : Lexeme → Bytes → Prop
  | .word w, text => foldIdent text = w
  | .int i, text => SpellsInt i text
  | .str s, text => text = quote :: (doubled s ++ [quote])
  | .punct kind, text => text = symbol kind

/-- A text that spells lexemes, with space between them at least where the text of the first
would go on, and space at its end. -/
def Renders : List Lexeme → Bytes → Prop
  | [], src => IsSpaces src
  | x :: xs, src => ∃ space text rest, src = space ++ (text ++ rest) ∧ IsSpaces space ∧
      x.Spells text ∧ x.kind.Joins rest ∧ Renders xs rest

def Lexeme.Proper : Lexeme → Prop
  | .word w => (∃ c ∈ w.head?, isIdentStart c = true) ∧ (∀ c ∈ w, isIdentCont c = true) ∧
      w.length ≤ maxIdentifierBytes
  | .punct kind => symbol kind ≠ []
  | _ => True

def Token.Is (t : Token) : Lexeme → Prop
  | .word w => t.kind = .ident ∧ t.text = w
  | .int i => t.kind = .int ∧ Parser.parseIntLiteral t.text = some i
  | .str s => t.kind = .string ∧ t.text = s
  | .punct kind => t.kind = kind

/-- The tokens begin with the lexemes, and `rest` is behind them. -/
def Spans : List Lexeme → List Token → List Token → Prop
  | [], toks, rest => toks = rest
  | x :: xs, toks, rest => ∃ t toks', toks = t :: toks' ∧ t.Is x ∧ Spans xs toks' rest

theorem Token.Is.kind_eq (h : t.Is x) : t.kind = x.kind := by
  cases x with
  | word | int | str => exact h.1
  | punct => exact h

theorem parseIntLiteral_minus (digits : Bytes) :
    Parser.parseIntLiteral (minus :: digits) =
      if numeralValue digits ≤ 2 ^ 63 then some (Int64.ofInt (-numeralValue digits))
      else none := rfl

theorem parseIntLiteral_digits {digits : Bytes} (h : ∀ c ∈ digits, isDigit c = true) :
    Parser.parseIntLiteral digits =
      if numeralValue digits < 2 ^ 63 then some (Int64.ofInt (numeralValue digits)) else none := by
  have hhead : digits.head? ≠ some minus := fun hminus => by
    have hdigit := h minus (mem_of_mem_head? hminus)
    cases hdigit
  rw [Parser.parseIntLiteral, if_neg hhead]
  rfl

theorem parseIntLiteral_iff {i : Int64} :
    IsInteger text ∧ text.length ≤ maxIntegerDigits ∧ Parser.parseIntLiteral text = some i ↔
      SpellsInt i text := by
  have hlow := i.le_toInt
  have hhigh := i.toInt_lt
  constructor
  · rintro ⟨⟨sign, digits, rfl, hsign, hne, hdigits⟩, hlen, hparse⟩
    obtain ⟨zeros, hzeros⟩ := eq_zeros_numeral hne fun c hc =>
      (isDecimal_iff c).mpr (hdigits c hc)
    rcases hsign with rfl | rfl
    · rw [nil_append, parseIntLiteral_digits hdigits] at hparse
      split at hparse
      · rename_i hbound
        cases hparse
        have hint := @Int64.toInt_ofInt_of_le (numeralValue digits) (by omega) (by omega)
        refine ⟨false, zeros, ?_, by simp [hint], hlen⟩
        rw [hint, Int.natAbs_natCast, ← hzeros]
        rfl
      · cases hparse
    · rw [singleton_append, parseIntLiteral_minus] at hparse
      split at hparse
      · rename_i hbound
        cases hparse
        have hint := @Int64.toInt_ofInt_of_le (-numeralValue digits) (by omega) (by omega)
        refine ⟨true, zeros, ?_, by rw [if_pos rfl, hint]; omega, hlen⟩
        rw [hint, Int.natAbs_neg, Int.natAbs_natCast, ← hzeros]
        rfl
      · cases hparse
  · rintro ⟨negative, zeros, rfl, hsign, hlen⟩
    set digits := replicate zeros zeroDigit ++ numeral i.toInt.natAbs with hdigits
    have hne : digits ≠ [] := by simp [hdigits, numeral_ne_nil]
    have hall : ∀ c ∈ digits, isDigit c = true := by
      intro c hc
      rcases mem_append.mp hc with hc | hc
      · rw [eq_of_mem_replicate hc]
        rfl
      · exact (isDecimal_iff c).mp (isDecimal_of_mem_numeral c hc)
    have hvalue : numeralValue digits = i.toInt.natAbs := numeralValue_zeros_numeral zeros _
    cases negative with
    | false =>
      refine ⟨⟨[], digits, rfl, .inl rfl, hne, hall⟩, hlen, ?_⟩
      simp only [Bool.false_eq_true, if_false] at hsign
      have hi : ((i.toInt.natAbs : Nat) : Int) = i.toInt := by omega
      rw [if_neg (by simp), nil_append, parseIntLiteral_digits hall, hvalue,
        if_pos (by omega), hi, Int64.ofInt_toInt]
    | true =>
      refine ⟨⟨[minus], digits, rfl, .inr rfl, hne, hall⟩, hlen, ?_⟩
      simp only [if_true] at hsign
      have hi : -((i.toInt.natAbs : Nat) : Int) = i.toInt := by omega
      rw [if_pos rfl, singleton_append, parseIntLiteral_minus, hvalue, if_pos (by omega), hi,
        Int64.ofInt_toInt]

/-! ## Words in any case -/

theorem isIdentStart_foldByte (c : UInt8) :
    isIdentStart (if isUpper c then c - 65 + 97 else c) = isIdentStart c := by
  revert c
  exact forall_byte (by decide +kernel)

theorem isIdentCont_foldByte (c : UInt8) :
    isIdentCont (if isUpper c then c - 65 + 97 else c) = isIdentCont c := by
  revert c
  exact forall_byte (by decide +kernel)

theorem head_foldIdent (text : Bytes) :
    (∃ c ∈ (foldIdent text).head?, isIdentStart c = true) ↔
      ∃ c ∈ text.head?, isIdentStart c = true := by
  cases text with
  | nil => simp [foldIdent]
  | cons c text => simp [foldIdent, isIdentStart_foldByte]

theorem mem_foldIdent (text : Bytes) :
    (∀ c ∈ foldIdent text, isIdentCont c = true) ↔ ∀ c ∈ text, isIdentCont c = true := by
  simp [foldIdent, isIdentCont_foldByte]

theorem Lexeme.spells_iff (hx : x.Proper) (p : Nat) (text : Bytes) :
    x.Spells text ↔ ∃ t : Token, t.Is x ∧ t.pos = p ∧ t.Spelled text := by
  cases x with
  | word w =>
    constructor
    · rintro rfl
      obtain ⟨hstart, hcont, hlen⟩ := hx
      rw [head_foldIdent] at hstart
      rw [mem_foldIdent] at hcont
      exact ⟨⟨.ident, _, p⟩, ⟨rfl, rfl⟩, rfl, rfl, hstart, hcont, by simpa [foldIdent] using hlen⟩
    · rintro ⟨t, ⟨hkind, rfl⟩, -, hspelled⟩
      rw [Token.Spelled, hkind] at hspelled
      exact hspelled.1.symm
  | int i =>
    rw [Lexeme.Spells, ← parseIntLiteral_iff]
    constructor
    · rintro ⟨hint, hlen, hparse⟩
      exact ⟨⟨.int, text, p⟩, ⟨rfl, hparse⟩, rfl, rfl, hint, hlen⟩
    · rintro ⟨t, ⟨hkind, hparse⟩, -, hspelled⟩
      rw [Token.Spelled, hkind] at hspelled
      obtain ⟨htext, hint, hlen⟩ := hspelled
      exact ⟨hint, hlen, htext ▸ hparse⟩
  | str s =>
    constructor
    · intro htext
      exact ⟨⟨.string, s, p⟩, ⟨rfl, rfl⟩, rfl, htext⟩
    · rintro ⟨t, ⟨hkind, rfl⟩, -, hspelled⟩
      rwa [Token.Spelled, hkind] at hspelled
  | punct kind =>
    cases kind with
    | eof | ident | int | string => exact absurd rfl hx
    | lparen | rparen | comma | semicolon | equals | star =>
      constructor
      · intro htext
        exact ⟨⟨_, [], p⟩, rfl, rfl, rfl, htext⟩
      · rintro ⟨t, hkind, -, hspelled⟩
        rw [Token.Spelled, show t.kind = _ from hkind] at hspelled
        exact hspelled.2

theorem Lexeme.Proper.kind_ne_eof (hx : x.Proper) : x.kind ≠ .eof := by
  cases x with
  | word | int | str => nofun
  | punct kind =>
    rintro rfl
    exact hx rfl

theorem renders_iff {xs : List Lexeme} (hxs : ∀ x ∈ xs, x.Proper) (p : Nat) :
    Renders xs src ↔
      ∃ toks e, Lexed p src toks ∧ Spans xs toks [e] ∧ e.kind = .eof := by
  induction xs generalizing src p with
  | nil =>
    constructor
    · intro hspaces
      exact ⟨[⟨.eof, [], p + src.length⟩], _, ⟨src, [], by simp, hspaces, rfl,
        .inl ⟨rfl, rfl, rfl, rfl⟩⟩, rfl, rfl⟩
    · rintro ⟨toks, e, hlexed, rfl, heof⟩
      obtain ⟨space, body, rfl, hspace, -, ⟨-, -, rfl, -⟩ | ⟨text, rest, -, hspelled, -⟩⟩ := hlexed
      · simpa [Renders] using hspace
      · rw [Token.Spelled, heof] at hspelled
        exact hspelled.elim
  | cons x xs ih =>
    have hx := hxs x (by simp)
    have hxs := fun y hy => hxs y (mem_cons_of_mem _ hy)
    constructor
    · rintro ⟨space, text, rest, rfl, hspace, hspells, hjoins, hrest⟩
      obtain ⟨t, ht, hpos, hspelled⟩ := (x.spells_iff hx (p + space.length) text).mp hspells
      obtain ⟨toks, e, hlexed, hspans, heof⟩ := (ih hxs (t.pos + text.length)).mp hrest
      refine ⟨t :: toks, e, ⟨space, _, rfl, hspace, hpos, .inr ⟨text, rest, rfl, hspelled, ?_,
        hlexed⟩⟩, ⟨t, toks, rfl, ht, hspans⟩, heof⟩
      rwa [ht.kind_eq]
    · rintro ⟨toks, e, hlexed, ⟨t, toks, rfl, ht, hspans⟩, heof⟩
      obtain ⟨space, body, rfl, hspace, hpos, ⟨hkind, -⟩ | ⟨text, rest, rfl, hspelled, hjoins,
        hlexed⟩⟩ := hlexed
      · exact absurd (ht.kind_eq.symm.trans hkind) hx.kind_ne_eof
      · rw [ht.kind_eq] at hjoins
        exact ⟨space, text, rest, rfl, hspace, (x.spells_iff hx t.pos text).mpr
          ⟨t, ht, rfl, hspelled⟩, hjoins, (ih hxs _).mpr ⟨toks, e, hlexed, hspans, heof⟩⟩

theorem spellsInt_numeral (i : Int64) :
    SpellsInt i ((if i.toInt < 0 then [minus] else []) ++ numeral i.toInt.natAbs) := by
  have hlow := i.le_toInt
  have hhigh := i.toInt_lt
  have hlen := @length_numeral_le i.toInt.natAbs 19 (by omega) (by decide)
  have hmax : maxIntegerDigits = 32 := rfl
  by_cases hneg : i.toInt < 0
  · refine ⟨true, 0, by simp [hneg], by rw [if_pos rfl]; omega, ?_⟩
    simp only [hneg, if_true, length_append, length_singleton, hmax]
    omega
  · refine ⟨false, 0, by simp [hneg], by rw [if_neg (by decide)]; omega, ?_⟩
    simp only [hneg, if_false, nil_append, hmax]
    omega

theorem joins_of_isSpace (kind : TokenKind)
    (h : ∀ c ∈ rest.head?, isSpace c = true) : kind.Joins rest := by
  have hall : ∀ c, isSpace c = true →
      isIdentCont c = false ∧ isDigit c = false ∧ (c == quote) = false :=
    forall_byte (by decide +kernel)
  intro c hc
  obtain ⟨hident, hdigit, hquote⟩ := hall c (h c hc)
  cases kind with
  | ident => exact hident
  | int => exact hdigit
  | string => exact hquote
  | eof | lparen | rparen | comma | semicolon | equals | star => rfl

end ChronicleDB.Sql
