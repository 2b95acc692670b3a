import Mathlib.Data.Set.Lattice
import Mathlib.Logic.Function.Basic
import Mathlib.Order.CompletePartialOrder

/-!
# Snapshot isolation

What a store of values under keys does for transactions that each see the state
of their beginning and their own writes.  A transaction can commit if no one
else has committed a write to one of its keys in between; the first committer
wins.  Keys, values and the names of transactions are arbitrary types.
-/

namespace ChronicleDB.Isolation

variable {K V T : Type*}

inductive Phase where
  | active
  | committed
  | aborted
  deriving DecidableEq, Repr

/-- A transaction: the state at its beginning, its last write to each key (`some none`
for a deletion), and the keys that others have committed to since. -/
structure Session (K V : Type*) where
  snapshot : K → Option V
  writes : K → Option (Option V)
  overwritten : Set K
  phase : Phase

structure State (T K V : Type*) where
  db : K → Option V
  sessions : T → Option (Session K V)

def overlay (writes : K → Option (Option V)) (base : K → Option V) (k : K) : Option V :=
  (writes k).getD (base k)

namespace Session

def read (x : Session K V) (k : K) : Option V := overlay x.writes x.snapshot k

def writeSet (x : Session K V) : Set K := {k | x.writes k ≠ none}

def write [DecidableEq K] (x : Session K V) (k : K) (v : Option V) : Session K V :=
  { x with writes := Function.update x.writes k (some v) }

def Conflicts (x : Session K V) : Prop := ¬Disjoint x.writeSet x.overwritten

def overwrite (keys : Set K) (x : Session K V) : Session K V :=
  { x with overwritten := x.overwritten ∪ keys }

def finish (x : Session K V) (phase : Phase) : Session K V :=
  { x with writes := fun _ => none, phase }

end Session

namespace State

variable [DecidableEq T]

def initial : State T K V := ⟨fun _ => none, fun _ => none⟩

def set (s : State T K V) (t : T) (x : Session K V) : State T K V :=
  { s with sessions := Function.update s.sessions t (some x) }

def start (s : State T K V) (t : T) : State T K V :=
  s.set t ⟨s.db, fun _ => none, ∅, .active⟩

def commit (s : State T K V) (t : T) (x : Session K V) : State T K V where
  db := overlay x.writes s.db
  sessions := Function.update (fun t => (s.sessions t).map (Session.overwrite x.writeSet)) t
    (some (x.finish .committed))

def abort (s : State T K V) (t : T) (x : Session K V) : State T K V := s.set t (x.finish .aborted)

/-- No session outlives a restart; the committed state does. -/
def restart (s : State T K V) : State T K V := ⟨s.db, fun _ => none⟩

end State

end ChronicleDB.Isolation
