import ChronicleDB.Foundation.Scripts
import ChronicleDB.Sql.Session

/-!
# Clients of an engine

Any number of sessions on one engine.  The calls that their statements make on
the engine interleave at will, with each other and with what the engine does by
itself.  What the statements have handed in is kept for the specifications.
-/

namespace ChronicleDB.Sql

open Foundation Function
open Fsm (RequestID CommitTxnCommand)

/-- An engine: the replies it can give, the command that a call hands in, and what it does
by itself with the commands that have been handed in. -/
structure Model (σ : Type) where
  step : σ → (op : Op) → op.Reply → σ → Prop
  command : σ → Op → Option CommitTxnCommand
  environment : List CommitTxnCommand → σ → σ → Prop

structure Made where
  exchange : Program.Exchange Op.Reply
  command : Option CommitTxnCommand

/-- A statement that is being executed; `txn` is the open transaction of the session when
it began. -/
structure Running where
  text : Bytes
  id : RequestID
  txn : Option Nat
  trace : List Made
  script : Script Reply

structure Client where
  txn : Option Nat
  running : Option Running

/-- A command that was handed in, with the text of the statement if it was one. -/
structure Submission where
  text : Option Bytes
  command : CommitTxnCommand

structure World (σ : Type) where
  engine : σ
  clients : Nat → Client
  submissions : List Submission

namespace World

variable {σ : Type}

def init (e : σ) : World σ := ⟨e, fun _ => ⟨none, none⟩, []⟩

def Idle (w : World σ) : Prop := ∀ c, w.clients c = ⟨none, none⟩

theorem idle_init (e : σ) : (init e).Idle := fun _ => rfl

def setClient (w : World σ) (c : Nat) (client : Client) : World σ :=
  { w with clients := Function.update w.clients c client }

def commands (w : World σ) : List CommitTxnCommand := w.submissions.map (·.command)

inductive Event where
  | submitted (c : Nat) (text : Bytes) (id : RequestID)
  | replied (c : Nat) (result : Except SqlError Result)

inductive Step (M : Model σ) : World σ → Option Event → World σ → Prop
  | submit {w : World σ} {c : Nat} (text : Bytes) (id : RequestID)
      (hidle : (w.clients c).running = none) :
      Step M w (some (.submitted c text id))
        (w.setClient c ⟨(w.clients c).txn, some ⟨text, id, (w.clients c).txn, [],
          execute (w.clients c).txn text id⟩⟩)
  | call {w : World σ} {c : Nat} {r : Running} {op : Op} {next : op.Reply → Script Reply}
      {reply : op.Reply} {e : σ} (hrunning : (w.clients c).running = some r)
      (hscript : r.script = .call op next) (hstep : M.step w.engine op reply e) :
      Step M w none
        { w.setClient c ⟨(w.clients c).txn, some { r with
            trace := r.trace ++ [⟨⟨op, reply⟩, M.command w.engine op⟩]
            script := next reply }⟩ with
          engine := e
          submissions := w.submissions ++
            ((M.command w.engine op).map fun cmd => ⟨some r.text, cmd⟩).toList }
  | reply {w : World σ} {c : Nat} {r : Running} {result : Except SqlError Result}
      {txn : Option Nat} (hrunning : (w.clients c).running = some r)
      (hscript : r.script = .done (result, txn)) :
      Step M w (some (.replied c result)) (w.setClient c ⟨txn, none⟩)
  | other {w : World σ} (sub : Submission) :
      Step M w none { w with submissions := w.submissions ++ [sub] }
  | environment {w : World σ} {e : σ} (henv : M.environment w.commands w.engine e) :
      Step M w none { w with engine := e }

/-- The world after a run, and what the clients have seen of it. -/
inductive Run (M : Model σ) : World σ → List Event → World σ → Prop
  | refl (w : World σ) : Run M w [] w
  | tail {w w' w'' : World σ} {events : List Event} {event : Option Event}
      (hrun : Run M w events w') (hstep : Step M w' event w'') :
      Run M w (events ++ event.toList) w''

/-! ## Running statements -/

def Traced (w : World σ) : Prop :=
  ∀ c r, (w.clients c).running = some r →
    Program.Leads (execute r.txn r.text r.id) (r.trace.map Made.exchange) r.script

theorem Step.traced {M : Model σ} {w w' : World σ} {event : Option Event}
    (h : Step M w event w') (ht : w.Traced) : w'.Traced := by
  -- Only the client that moves has another statement, or another place in it.
  intro c r hr
  cases h with
  | @submit c' text id hidle =>
    by_cases hc : c = c'
    · subst hc
      simp only [setClient, update_self, Option.some.injEq] at hr
      subst hr
      exact .nil _
    · exact ht c r (by simpa [setClient, update_of_ne hc] using hr)
  | @call c' r' op next reply e hrunning hscript hstep =>
    by_cases hc : c = c'
    · subst hc
      simp only [setClient, update_self, Option.some.injEq] at hr
      subst hr
      have hleads := (hscript ▸ ht c r' hrunning).snoc reply
      rwa [List.map_append]
    · exact ht c r (by simpa [setClient, update_of_ne hc] using hr)
  | @reply c' r' result txn hrunning hscript =>
    by_cases hc : c = c'
    · subst hc
      simp [setClient] at hr
    · exact ht c r (by simpa [setClient, update_of_ne hc] using hr)
  | other sub => exact ht c r hr
  | environment henv => exact ht c r hr

theorem Run.invariant {M : Model σ} {P : World σ → Prop} {w w' : World σ} {events : List Event}
    (hrun : Run M w events w') (hinit : P w)
    (hstep : ∀ w event w', P w → Step M w event w' → P w') : P w' := by
  induction hrun with
  | refl => exact hinit
  | tail _ hs ih => exact hstep _ _ _ ih hs

theorem Run.traced {M : Model σ} {w₀ w : World σ} {events : List Event}
    (hrun : Run M w₀ events w) (hidle : w₀.Idle) : w.Traced :=
  hrun.invariant (fun c r hr => by simp [hidle c] at hr) fun _ _ _ ht hs => hs.traced ht

/-! ## Scripted runs -/

variable {ε : Type}

/-- An execution of a model: one reply for each call, and what the engine does by itself. -/
structure Player (M : Model σ) (ε : Type) where
  handle : σ → (op : Op) → Option (σ × op.Reply)
  handle_step : ∀ {e op e' reply}, handle e op = some (e', reply) → M.step e op reply e'
  act : List CommitTxnCommand → σ → ε → Option σ
  act_environment : ∀ {cmds e a e'}, act cmds e a = some e' → M.environment cmds e e'

inductive Act (ε : Type) where
  | submit (c : Nat) (text : Bytes) (id : RequestID)
  | call (c : Nat)
  | reply (c : Nat)
  | other (sub : Submission)
  | environment (a : ε)

def play {M : Model σ} (p : Player M ε) (w : World σ) : Act ε → Option (World σ)
  | .submit c text id =>
    match (w.clients c).running with
    | some _ => none
    | none => some (w.setClient c ⟨(w.clients c).txn, some ⟨text, id, (w.clients c).txn, [],
        execute (w.clients c).txn text id⟩⟩)
  | .call c =>
    match (w.clients c).running with
    | some r =>
      match r.script with
      | .call op next =>
        (p.handle w.engine op).map fun (e, reply) =>
          { w.setClient c ⟨(w.clients c).txn, some { r with
              trace := r.trace ++ [⟨⟨op, reply⟩, M.command w.engine op⟩]
              script := next reply }⟩ with
            engine := e
            submissions := w.submissions ++
              ((M.command w.engine op).map fun cmd => ⟨some r.text, cmd⟩).toList }
      | .done _ => none
    | none => none
  | .reply c =>
    match (w.clients c).running with
    | some r =>
      match r.script with
      | .call _ _ => none
      | .done (_, txn) => some (w.setClient c ⟨txn, none⟩)
    | none => none
  | .other sub => some { w with submissions := w.submissions ++ [sub] }
  | .environment a => (p.act w.commands w.engine a).map fun e => { w with engine := e }

theorem step_of_play {M : Model σ} {p : Player M ε} {w w' : World σ} {a : Act ε}
    (h : w.play p a = some w') : ∃ event, Step M w event w' := by
  cases a with
  | submit c text id =>
    simp only [play] at h
    split at h
    · cases h
    · rename_i hidle
      cases h
      exact ⟨_, .submit text id hidle⟩
  | call c =>
    simp only [play] at h
    split at h
    · rename_i r hrunning
      split at h
      · rename_i op next hscript
        obtain ⟨⟨e, reply⟩, hhandle, rfl⟩ := Option.map_eq_some_iff.mp h
        exact ⟨none, .call hrunning hscript (p.handle_step hhandle)⟩
      · cases h
    · cases h
  | reply c =>
    simp only [play] at h
    split at h
    · rename_i r hrunning
      split at h
      · cases h
      · rename_i result txn hscript
        cases h
        exact ⟨_, .reply hrunning hscript⟩
    · cases h
  | other sub =>
    cases h
    exact ⟨none, .other sub⟩
  | environment a =>
    obtain ⟨e, hact, rfl⟩ := Option.map_eq_some_iff.mp h
    exact ⟨none, .environment (p.act_environment hact)⟩

theorem Run.of_reflTransGen {M : Model σ} {w w' : World σ}
    (h : Relation.ReflTransGen (fun w w' => ∃ event, Step M w event w') w w') :
    ∃ events, Run M w events w' := by
  induction h with
  | refl => exact ⟨[], .refl w⟩
  | tail _ hstep ih =>
    obtain ⟨events, hrun⟩ := ih
    obtain ⟨event, hstep⟩ := hstep
    exact ⟨_, .tail hrun hstep⟩

theorem exists_run {M : Model σ} (p : Player M ε) {e : σ} {acts : List (Act ε)}
    {test : World σ → Bool} (h : (acts.foldlM (play p) (init e)).any test = true) :
    ∃ w events, Run M (init e) events w ∧ test w = true := by
  obtain ⟨w, hreach, htest⟩ := exists_of_foldlM_any
    (R := fun w w' => ∃ event, Step M w event w') (fun _ _ _ _ h => step_of_play h) h
  obtain ⟨events, hrun⟩ := Run.of_reflTransGen hreach
  exact ⟨w, events, hrun, htest⟩

def answer (w : World σ) (c : Nat) : Option (Running × Result) :=
  match (w.clients c).running with
  | some r =>
    match r.script with
    | .done (.ok result, _) => some (r, result)
    | _ => none
  | none => none

theorem answer_eq_some {w : World σ} {c : Nat} {r : Running} {result : Result}
    (h : w.answer c = some (r, result)) :
    (w.clients c).running = some r ∧ ∃ txn, r.script = .done (.ok result, txn) := by
  rw [answer] at h
  split at h
  · rename_i r' hrunning
    split at h
    · rename_i result' txn hscript
      cases h
      exact ⟨hrunning, txn, hscript⟩
    · cases h
  · cases h

end World

end ChronicleDB.Sql
