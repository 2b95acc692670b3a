import ChronicleDB.Sql.Clients

/-!
# Whose transaction it is

A statement works on the open transaction of its session, or on the one that it
has started itself.  So no two clients work on the same transaction, and what a
client has written is there until the client itself ends the transaction.
-/

namespace ChronicleDB.Sql

open Foundation List Function
open Fsm (RequestID CommitTxnCommand)

/-! ## The transaction of a statement -/

def Op.txn? : Op → Option Nat
  | .start | .lookup _ => none
  | .read t _ | .scan t _ | .write t _ _ | .submit t _ | .await t _ | .abort t => some t

/-- The transaction of a statement after a call, `own` being the one before. -/
def Op.owned : (op : Op) → op.Reply → Option Nat → Option Nat
  | .start, .ok t, _ => some t
  | _, _, own => own

/-- The statement stays within its own transaction, and leaves its session that one or none. -/
def Uses : Script Reply → Option Nat → Prop
  | .done (_, txn), own => txn = none ∨ txn = own
  | .call op next, own =>
    (∀ t, op.txn? = some t → own = some t) ∧ (op = .start → own = none) ∧
      ∀ reply, Uses (next reply) (op.owned reply own)

theorem Op.owned_of_ne_start {op : Op} (h : op ≠ .start) (reply : op.Reply) (own : Option Nat) :
    op.owned reply own = own := by
  cases op <;> first | rfl | exact absurd rfl h

theorem uses_call {op : Op} {next : op.Reply → Script Reply} {t : Nat} (ht : op.txn? = some t)
    (hnext : ∀ reply, Uses (next reply) (some t)) : Uses (.call op next) (some t) := by
  have hne : op ≠ .start := by
    rintro rfl
    cases ht
  refine ⟨fun t' ht' => ht ▸ ht', fun hstart => absurd hstart hne, fun reply => ?_⟩
  rw [Op.owned_of_ne_start hne]
  exact hnext reply

theorem Op.Local.txn {t : Nat} {op : Op} (h : op.Local t) : op.txn? = some t := by
  cases op <;> simp_all [Op.Local, Op.txn?]

theorem uses_bind {α : Type} {t : Nat} {p : Script α} {f : α → Script Reply}
    (hp : p.Only (Op.Local t)) (hf : ∀ a, Uses (f a) (some t)) : Uses (p >>= f) (some t) := by
  induction p with
  | done a => exact hf a
  | call op next ih => exact uses_call hp.1.txn fun reply => ih reply (hp.2 reply)

theorem uses_commitTxn {t : Nat} (id : RequestID) {f : Except EngineError Nat → Script Reply}
    (hf : ∀ answer, Uses (f answer) (some t)) : Uses (commitTxn t id >>= f) (some t) := by
  refine uses_call rfl fun reply => ?_
  cases reply with
  | some answer => exact hf answer
  | none => exact uses_call rfl hf

theorem uses_abort {t : Nat} (result : Except SqlError Result) :
    Uses (do let _ ← perform (.abort t); pure (result, none)) (some t) :=
  uses_call rfl fun _ => .inl rfl

theorem executeInTxn_uses (t : Nat) (stmt : Statement) : Uses (executeInTxn t stmt) (some t) := by
  refine uses_bind (execOne_local t stmt) fun r => ?_
  cases r with
  | error e => exact uses_abort _
  | ok result => exact .inr rfl

theorem lookedUp_uses (t : Nat) (stmt : Statement) (id : RequestID)
    (found : Option RequestOutcome) : Uses (do
      match found with
      | some outcome =>
        let _ ← perform (.abort t)
        pure (mutationRetryResult stmt outcome, none)
      | none =>
        match ← (execOne t stmt).run with
        | .error e =>
          let _ ← perform (.abort t)
          pure (.error e, none)
        | .ok result =>
          match ← commitTxn t id with
          | .error e => pure (.error (.engine e), none)
          | .ok seq => pure (.ok { result with commitSeq := seq }, none)) (some t) := by
  cases found with
  | some outcome => exact uses_abort _
  | none =>
    refine uses_bind (execOne_local t stmt) fun r => ?_
    cases r with
    | error e => exact uses_abort _
    | ok result =>
      refine uses_commitTxn id fun answer => ?_
      cases answer <;> exact .inl rfl

theorem autoCommit_uses (t : Nat) (stmt : Statement) (id : RequestID) :
    Uses (autoCommit t stmt id) (some t) := by
  rw [autoCommit, lookupRetry]
  split
  · exact ⟨fun t' ht' => (by cases ht'), fun hstart => (by cases hstart), lookedUp_uses t stmt id⟩
  · exact lookedUp_uses t stmt id none

theorem executeDML_uses (txn : Option Nat) (stmt : Statement) (id : RequestID) :
    Uses (executeDML txn stmt id) txn := by
  cases txn with
  | some t => exact executeInTxn_uses t stmt
  | none =>
    refine ⟨fun t ht => (by cases ht), fun _ => rfl, fun reply => ?_⟩
    cases reply with
    | error e => exact .inl rfl
    | ok t => exact autoCommit_uses t stmt id

theorem execute_uses (txn : Option Nat) (text : Bytes) (id : RequestID) :
    Uses (execute txn text id) txn := by
  rw [execute]
  split
  · exact .inr rfl
  rename_i stmt hparse
  cases stmt with
  | createTable | insert | select | update | delete => exact executeDML_uses txn _ id
  | start =>
    cases txn with
    | some t => exact .inr rfl
    | none =>
      refine ⟨fun t ht => (by cases ht), fun _ => rfl, fun reply => ?_⟩
      cases reply with
      | error e => exact .inl rfl
      | ok t => exact .inr rfl
  | commit =>
    cases txn with
    | none => exact .inl rfl
    | some t =>
      refine uses_commitTxn id fun answer => ?_
      cases answer <;> exact .inl rfl
  | rollback =>
    cases txn with
    | none => exact .inl rfl
    | some t =>
      refine uses_call rfl fun reply => ?_
      cases reply <;> exact .inl rfl

/-! ## The transactions of the clients -/

def Running.own (r : Running) : Option Nat :=
  r.trace.foldl (fun own x => x.exchange.op.owned x.exchange.reply own) r.txn

def Client.own (client : Client) : Option Nat :=
  match client.running with
  | some r => r.own
  | none => client.txn

theorem Client.own_of_running {client : Client} {r : Running} (h : client.running = some r) :
    client.own = r.own := by
  rw [Client.own, h]

variable {σ : Type} {M : Model σ} {issued : σ → Nat → Prop}

structure Issues (M : Model σ) (issued : σ → Nat → Prop) : Prop where
  start : ∀ {e t e'}, M.step e .start (.ok t) e' → ¬issued e t ∧ issued e' t
  step : ∀ {e op reply e' t}, M.step e op reply e' → issued e t → issued e' t
  environment : ∀ {cmds e e' t}, M.environment cmds e e' → issued e t → issued e' t

namespace World

/-- A running statement stays within its own transaction, and no other client has that. -/
structure Owned (issued : σ → Nat → Prop) (w : World σ) : Prop where
  uses : ∀ {c r}, (w.clients c).running = some r → Uses r.script r.own
  traced : ∀ {c r}, (w.clients c).running = some r → ∀ x ∈ r.trace, ∀ t,
    x.exchange.op.txn? = some t → r.own = some t
  issued : ∀ {c t}, (w.clients c).own = some t → issued w.engine t
  apart : ∀ {c c' t}, (w.clients c).own = some t → (w.clients c').own = some t → c = c'

theorem Owned.setClient {w : World σ} (h : w.Owned issued) {c : Nat} {client : Client} {e : σ}
    {subs : List Submission} (hmono : ∀ t, issued w.engine t → issued e t)
    (huses : ∀ r, client.running = some r → Uses r.script r.own)
    (htraced : ∀ r, client.running = some r → ∀ x ∈ r.trace, ∀ t, x.exchange.op.txn? = some t →
      r.own = some t)
    (hown : ∀ t, client.own = some t →
      (w.clients c).own = some t ∨ issued e t ∧ ¬issued w.engine t) :
    ({ w.setClient c client with engine := e, submissions := subs } : World σ).Owned issued := by
  have hclient : ∀ c', ({ w.setClient c client with engine := e, submissions := subs } :
      World σ).clients c' = if c' = c then client else w.clients c' := by
    intro c'
    simp only [World.setClient, update_apply]
  refine ⟨fun {c' r} hr => ?_, fun {c' r} hr => ?_, fun {c' t} ht => ?_, fun {c' c'' t} ht ht' => ?_⟩
  · rw [hclient] at hr
    split at hr
    · exact huses r hr
    · exact h.uses hr
  · rw [hclient] at hr
    split at hr
    · exact htraced r hr
    · exact h.traced hr
  · rw [hclient] at ht
    split at ht
    · rcases hown t ht with hold | ⟨hnew, -⟩
      · exact hmono t (h.issued hold)
      · exact hnew
    · exact hmono t (h.issued ht)
  · rw [hclient] at ht ht'
    split at ht <;> split at ht'
    · rename_i hc hc'
      rw [hc, hc']
    · rename_i hc hc'
      rcases hown t ht with hold | ⟨-, hnew⟩
      · rw [hc, h.apart hold ht']
      · exact absurd (h.issued ht') hnew
    · rename_i hc hc'
      rcases hown t ht' with hold | ⟨-, hnew⟩
      · rw [hc', h.apart ht hold]
      · exact absurd (h.issued ht) hnew
    · exact h.apart ht ht'

theorem own_call (r : Running) (x : Made) (script : Script Reply) :
    ({ r with trace := r.trace ++ [x], script := script } : Running).own =
      x.exchange.op.owned x.exchange.reply r.own := by
  simp [Running.own]

theorem owned_cases (op : Op) (reply : op.Reply) (own : Option Nat) :
    op.owned reply own = own ∨ ∃ t, (⟨op, reply⟩ : Program.Exchange Op.Reply) = ⟨.start, .ok t⟩ ∧
      op.owned reply own = some t := by
  cases op with
  | start =>
    cases reply with
    | error e => exact .inl rfl
    | ok t => exact .inr ⟨t, rfl, rfl⟩
  | lookup | read | scan | write | submit | await | abort => exact .inl rfl

theorem Step.owned (hissues : Issues M issued) {w w' : World σ} {event : Option Event}
    (hs : Step M w event w') (h : w.Owned issued) : w'.Owned issued := by
  cases hs with
  | @submit c text id hidle =>
    refine h.setClient (fun _ ht => ht) (fun r hr => ?_) (fun r hr => ?_) fun t ht => .inl ?_
    · cases hr
      exact execute_uses _ _ _
    · cases hr
      simp
    · rw [Client.own, hidle]
      exact ht
  | @call c r op next reply e hrunning hscript hstep =>
    have huses := h.uses hrunning
    rw [hscript] at huses
    obtain ⟨hon, hstart, hnext⟩ := huses
    refine h.setClient (fun t ht => hissues.step hstep ht) (fun r' hr' => ?_)
      (fun r' hr' x hx t ht => ?_) fun t ht => ?_
    · cases hr'
      rw [own_call]
      exact hnext reply
    · cases hr'
      rw [own_call]
      -- The call before was on `t` already, unless this one is.
      have hown : r.own = some t := by
        rcases mem_append.mp hx with hx | hx
        · exact h.traced hrunning x hx t ht
        · obtain rfl := mem_singleton.mp hx
          exact hon t ht
      have hne : op ≠ .start := by
        intro hop
        rw [hstart hop] at hown
        cases hown
      rw [Op.owned_of_ne_start hne, hown]
    · rw [Client.own] at ht
      dsimp only at ht
      rw [own_call] at ht
      dsimp only at ht
      rcases owned_cases op reply r.own with hsame | ⟨t', hx, hnew⟩
      · rw [hsame] at ht
        rw [Client.own_of_running hrunning]
        exact .inl ht
      · obtain rfl : t' = t := by
          rw [hnew] at ht
          exact Option.some.inj ht
        cases hx
        exact .inr (hissues.start hstep).symm
  | @reply c r result txn hrunning hscript =>
    refine h.setClient (fun _ ht => ht) (fun r hr => by cases hr) (fun r hr => by cases hr)
      fun t ht => .inl ?_
    have huses := h.uses hrunning
    rw [hscript] at huses
    have ht : txn = some t := ht
    rw [Client.own_of_running hrunning]
    rcases huses with hnone | hsame
    · rw [hnone] at ht
      cases ht
    · rw [← hsame, ht]
  | other sub => exact ⟨h.uses, h.traced, h.issued, h.apart⟩
  | environment henv =>
    exact ⟨h.uses, h.traced, fun ht => hissues.environment henv (h.issued ht), h.apart⟩

theorem owned_of_idle {w : World σ} (h : w.Idle) : w.Owned issued where
  uses {c r} hr := by simp [h c] at hr
  traced {c r} hr := by simp [h c] at hr
  issued {c t} ht := by simp [Client.own, h c] at ht
  apart {c c' t} ht := by simp [Client.own, h c] at ht

end World

/-! ## What a transaction has written -/

def Model.Ready (M : Model σ) (e : σ) (t : Nat) : Prop :=
  ∀ id, (M.command e (.submit t id)).isSome

/-- The engine keeps what a transaction has written until its end. -/
structure Buffers (M : Model σ) (issued : σ → Nat → Prop) : Prop where
  write : ∀ {e t key value e'}, M.step e (.write t key value) (.ok ()) e' → issued e t →
    M.Ready e' t
  step : ∀ {e op reply e' t}, M.step e op reply e' → issued e t →
    (op.txn? = some t → ¬op.Ends) → M.Ready e t → M.Ready e' t
  environment : ∀ {cmds e e' t}, M.environment cmds e e' → M.Ready e t → M.Ready e' t

/-- The calls have written to `t`, and none of them has ended a transaction. -/
def Dirty (t : Nat) (trace : List Made) : Prop :=
  (∃ x ∈ trace, ∃ key value, x.exchange = ⟨.write t key value, .ok ()⟩) ∧
    ∀ x ∈ trace, ¬x.exchange.op.Ends

namespace World

structure HandsIn (M : Model σ) (e : σ) (r : Running) : Prop where
  ready : ∀ {t}, r.own = some t → Dirty t r.trace → M.Ready e t
  handed : ∀ {pre x post t id reply}, r.trace = pre ++ x :: post →
    x.exchange = ⟨.submit t id, reply⟩ → Dirty t pre → x.command.isSome

theorem HandsIn.of_ready {e e' : σ} {r : Running} (h : HandsIn M e r)
    (hready : ∀ t, r.own = some t → M.Ready e t → M.Ready e' t) : HandsIn M e' r :=
  ⟨fun ht hdirty => hready _ ht (h.ready ht hdirty), h.handed⟩

theorem HandsIn.call (hb : Buffers M issued) {e e' : σ} {r : Running} (h : HandsIn M e r) {op : Op}
    {next : op.Reply → Script Reply} {reply : op.Reply} (huses : Uses (.call op next) r.own)
    (htraced : ∀ x ∈ r.trace, ∀ t, x.exchange.op.txn? = some t → r.own = some t)
    (hissued : ∀ t, r.own = some t → issued e t) (hstep : M.step e op reply e') :
    HandsIn M e' { r with
      trace := r.trace ++ [⟨⟨op, reply⟩, M.command e op⟩]
      script := next reply } := by
  refine ⟨fun {t} ht hdirty => ?_, fun {pre x post t id reply'} hsplit hx hdirty => ?_⟩
  · obtain ⟨⟨x, hx, key, value, hwrite⟩, hends⟩ := hdirty
    rcases mem_append.mp hx with hx | hx
    · have hown : r.own = some t := htraced x hx t (by rw [hwrite]; rfl)
      have hop : ¬op.Ends := hends ⟨⟨op, reply⟩, M.command e op⟩ (mem_concat_self)
      exact hb.step hstep (hissued t hown) (fun _ => hop) (h.ready hown
        ⟨⟨x, hx, key, value, hwrite⟩, fun z hz => hends z (mem_append_left _ hz)⟩)
    · obtain rfl := mem_singleton.mp hx
      cases hwrite
      exact hb.write hstep (hissued t (huses.1 t rfl))
  · rcases eq_nil_or_concat post with rfl | ⟨post, y, rfl⟩
    · obtain ⟨rfl, hlast⟩ := append_inj' (hsplit : r.trace ++ [_] = pre ++ [x]) rfl
      obtain rfl := (cons.inj hlast).1
      cases hx
      exact h.ready (huses.1 t rfl) hdirty id
    · rw [concat_eq_append, ← cons_append, ← append_assoc] at hsplit
      obtain ⟨hsplit, -⟩ := append_inj' hsplit rfl
      exact h.handed hsplit hx hdirty

theorem Step.handsIn (hb : Buffers M issued) {w w' : World σ}
    {event : Option Event} (hs : Step M w event w') (hown : w.Owned issued)
    (h : ∀ c r, (w.clients c).running = some r → HandsIn M w.engine r) :
    ∀ c r, (w'.clients c).running = some r → HandsIn M w'.engine r := by
  intro c r hr
  cases hs with
  | @submit c' text id hidle =>
    by_cases hc : c = c'
    · subst hc
      simp only [setClient, update_self, Option.some.injEq] at hr
      subst hr
      exact ⟨fun _ hdirty => (by simp [Dirty] at hdirty), fun hsplit => (by simp at hsplit)⟩
    · exact h c r (by simpa [setClient, update_of_ne hc] using hr)
  | @call c' r' op next reply e hrunning hscript hstep =>
    have huses := hown.uses hrunning
    rw [hscript] at huses
    by_cases hc : c = c'
    · subst hc
      simp only [setClient, update_self, Option.some.injEq] at hr
      subst hr
      exact (h c r' hrunning).call hb huses (hown.traced hrunning)
        (fun t ht => hown.issued (Client.own_of_running hrunning ▸ ht)) hstep
    · have hr : (w.clients c).running = some r := by
        simpa [setClient, update_of_ne hc] using hr
      refine (h c r hr).of_ready fun t ht hready => hb.step hstep
        (hown.issued (Client.own_of_running hr ▸ ht)) (fun hop => ?_) hready
      -- The call is on the transaction of another client.
      have hother := huses.1 t hop
      exact absurd (hown.apart (Client.own_of_running hr ▸ ht)
        (Client.own_of_running hrunning ▸ hother)) hc
  | @reply c' r' result txn hrunning hscript =>
    by_cases hc : c = c'
    · subst hc
      simp [setClient] at hr
    · exact h c r (by simpa [setClient, update_of_ne hc] using hr)
  | other sub => exact h c r hr
  | environment henv => exact (h c r hr).of_ready fun _ _ => hb.environment henv

theorem Run.handsIn (hissues : Issues M issued) (hb : Buffers M issued) {w₀ w : World σ}
    {events : List Event} (hrun : Run M w₀ events w) (hidle : w₀.Idle) {c : Nat} {r : Running}
    (hr : (w.clients c).running = some r) : HandsIn M w.engine r := by
  have hboth : w.Owned issued ∧
      ∀ c r, (w.clients c).running = some r → HandsIn M w.engine r :=
    hrun.invariant (P := fun w => w.Owned issued ∧
        ∀ c r, (w.clients c).running = some r → HandsIn M w.engine r)
      ⟨owned_of_idle hidle, fun c r hr => by simp [hidle c] at hr⟩
      fun _ _ _ h hs => ⟨hs.owned hissues h.1, hs.handsIn hb h.1 h.2⟩
  exact hboth.2 c r hr

end World

end ChronicleDB.Sql
