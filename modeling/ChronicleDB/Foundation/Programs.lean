import Mathlib.Data.List.Basic

/-!
# Programs over an interface

A program makes calls and goes on with their replies.  What an interface does is
not part of it: the same program runs against every implementation, call by call
or as a whole.
-/

namespace ChronicleDB.Foundation

inductive Program (Op : Type) (Reply : Op → Type) (α : Type) where
  | done (a : α)
  | call (op : Op) (next : Reply op → Program Op Reply α)

namespace Program

variable {Op : Type} {Reply : Op → Type} {α β : Type}

protected def bind : Program Op Reply α → (α → Program Op Reply β) → Program Op Reply β
  | done a, f => f a
  | call op next, f => call op fun r => (next r).bind f

instance : Monad (Program Op Reply) where
  pure := done
  bind := Program.bind

def perform (op : Op) : Program Op Reply (Reply op) := call op done

/-! ## Calls one by one -/

structure Exchange (Reply : Op → Type) where
  op : Op
  reply : Reply op

/-- The calls of `trace`, with these replies, take the first program to the second. -/
inductive Leads : Program Op Reply α → List (Exchange Reply) → Program Op Reply α → Prop
  | nil (p : Program Op Reply α) : Leads p [] p
  | cons {op : Op} {next : Reply op → Program Op Reply α} {reply : Reply op}
      {trace : List (Exchange Reply)} {q : Program Op Reply α} (h : Leads (next reply) trace q) :
      Leads (call op next) (⟨op, reply⟩ :: trace) q

theorem Leads.snoc {p : Program Op Reply α} {trace : List (Exchange Reply)} {op : Op}
    {next : Reply op → Program Op Reply α} (h : Leads p trace (call op next)) (reply : Reply op) :
    Leads p (trace ++ [⟨op, reply⟩]) (next reply) := by
  generalize hq : call op next = q at h
  induction h with
  | nil p =>
    subst hq
    exact .cons (.nil _)
  | cons h ih => exact .cons (ih hq)

theorem leads_done {a : α} {trace : List (Exchange Reply)} {q : Program Op Reply α}
    (h : Leads (done a) trace q) : trace = [] ∧ q = done a := by
  cases h
  exact ⟨rfl, rfl⟩

theorem leads_call {op : Op} {next : Reply op → Program Op Reply α}
    {trace : List (Exchange Reply)} {b : α} (h : Leads (call op next) trace (done b)) :
    ∃ reply rest, trace = ⟨op, reply⟩ :: rest ∧ Leads (next reply) rest (done b) := by
  cases h with
  | cons h => exact ⟨_, _, rfl, h⟩

theorem leads_bind {p : Program Op Reply α} {f : α → Program Op Reply β}
    {trace : List (Exchange Reply)} {b : β} (h : Leads (p >>= f) trace (done b)) :
    ∃ first rest a, trace = first ++ rest ∧ Leads p first (done a) ∧ Leads (f a) rest (done b) := by
  induction p generalizing trace with
  | done a => exact ⟨[], trace, a, rfl, .nil _, h⟩
  | call op next ih =>
    obtain ⟨reply, rest, rfl, hrest⟩ := leads_call h
    obtain ⟨first, rest, a, rfl, hfirst, hlast⟩ := ih reply hrest
    exact ⟨⟨op, reply⟩ :: first, rest, a, rfl, .cons hfirst, hlast⟩

def Only (P : Op → Prop) : Program Op Reply α → Prop
  | done _ => True
  | call op next => P op ∧ ∀ r, (next r).Only P

theorem Only.bind {P : Op → Prop} {p : Program Op Reply α} {f : α → Program Op Reply β}
    (hp : p.Only P) (hf : ∀ a, (f a).Only P) : (p >>= f).Only P := by
  induction p with
  | done a => exact hf a
  | call op next ih => exact ⟨hp.1, fun r => ih r (hp.2 r)⟩

theorem Only.leads {P : Op → Prop} {p q : Program Op Reply α} {trace : List (Exchange Reply)}
    (hp : p.Only P) (h : Leads p trace q) : ∀ x ∈ trace, P x.op := by
  induction h with
  | nil => simp
  | cons h ih => simpa using ⟨hp.1, ih (hp.2 _)⟩

end Program

end ChronicleDB.Foundation
