import Mathlib.Data.List.Infix
import ChronicleDB.Foundation.Bytes
import ChronicleDB.Foundation.Channel

/-!
# The admission gate

`internal/admission/gate.go` and `reason.go`: callers that wait for one of a bounded
number of slots.  A caller is at one of the points of `Acquire` or of the release it
was given, and a step is one access to what the callers share: the two channels, the
effective ceiling and the pressure reason.  The counters of metrics are updated with
the step before them; times are left out, so that a timer may fire whenever there is one.
-/

namespace ChronicleDB.Admission

open Foundation List Option

/-! ## Reasons and limits -/

inductive Reason where
  | queueFull
  | queueTimeout
  | concurrencyLimit
  | readLeaseLimit
  | diskPressure
  | diskCritical
  | memoryPressure
  | adminOperationInProgress
  | shuttingDown
  | other (name : Bytes)
  deriving DecidableEq, Repr

def knownReasons : List Reason :=
  [.queueFull, .queueTimeout, .concurrencyLimit, .readLeaseLimit, .diskPressure, .diskCritical,
    .memoryPressure, .adminOperationInProgress, .shuttingDown]

/-- In seconds; zero means not to retry. -/
def Reason.defaultRetryAfter : Reason → Nat
  | .queueFull | .queueTimeout | .concurrencyLimit | .readLeaseLimit => 1
  | .diskPressure | .memoryPressure => 5
  | .diskCritical => 30
  | .adminOperationInProgress => 10
  | .shuttingDown => 0
  | .other _ => 1

structure RejectedError where
  reason : Reason
  retryAfter : Nat
  deriving DecidableEq, Repr

def rejected (r : Reason) : RejectedError := ⟨r, r.defaultRetryAfter⟩

structure Limits where
  maxConcurrent : Int
  maxQueueDepth : Int
  /-- Zero for no timer. -/
  maxWait : Int
  deriving DecidableEq, Repr

/-! ## The gate -/

structure Gate where
  name : Bytes
  lim : Limits
  admission : Channel
  slots : Channel
  eff : Int
  pressureReason : Option Reason
  admittedTotal : Nat
  rejectedTotal : List (Reason × Nat)
  deriving DecidableEq

inductive GateError where
  | maxConcurrent (name : Bytes) (got : Int)
  | maxQueueDepth (name : Bytes) (got : Int)
  | maxWait (name : Bytes) (got : Int)
  /-- The sum of the limits overflows, and `make` panics. -/
  | channelSize
  deriving DecidableEq, Repr

def newGate (name : Bytes) (lim : Limits) : Except GateError Gate :=
  if lim.maxConcurrent ≤ 0 then .error (.maxConcurrent name lim.maxConcurrent)
  else if lim.maxQueueDepth < 0 then .error (.maxQueueDepth name lim.maxQueueDepth)
  else if lim.maxWait < 0 then .error (.maxWait name lim.maxWait)
  else if lim.maxConcurrent + lim.maxQueueDepth ≥ 2 ^ 63 then .error .channelSize
  else .ok {
    name, lim
    admission := .empty (lim.maxConcurrent + lim.maxQueueDepth).toNat
    slots := .empty lim.maxConcurrent.toNat
    eff := lim.maxConcurrent
    pressureReason := none
    admittedTotal := 0
    rejectedTotal := knownReasons.map (·, 0) }

namespace Gate

def reject (g : Gate) (r : Reason) : Gate :=
  { g with rejectedTotal := g.rejectedTotal.map fun c => if c.1 = r then (c.1, c.2 + 1) else c }

def inFlight (g : Gate) : Nat := g.slots.len

def queued (g : Gate) : Nat := g.admission.len - g.slots.len

def setEffectiveConcurrent (g : Gate) (n : Int) : Gate :=
  { g with eff := max 0 (min n g.lim.maxConcurrent) }

def setPressureReason (g : Gate) (r : Reason) : Gate := { g with pressureReason := some r }

end Gate

/-! ## Callers -/

inductive Outcome where
  | rejected (err : RejectedError)
  | cancelled
  | released
  deriving DecidableEq, Repr

/-- Why a ticket of `admission` is about to be returned. -/
inductive Exit where
  | cancelled
  | timedOut
  | overCeiling
  | released
  deriving DecidableEq, Repr

/-- The points of `Acquire` and of the function it returns. -/
inductive Point where
  /-- In the second `select`. -/
  | waiting
  /-- Before `InFlight`. -/
  | claimed
  /-- Before the effective ceiling is loaded. -/
  | measured (inFlight : Nat)
  /-- Behind `Acquire`, which has returned a release. -/
  | admitted (inFlight : Nat)
  /-- Before the receive from `slots` of a caller over the ceiling. -/
  | refused
  /-- In `once.Do`, before the receive from `slots`. -/
  | releasing (inFlight : Nat)
  /-- Before the receive from `admission`. -/
  | leaving (exit : Exit)
  /-- Before the pressure reason is loaded. -/
  | explaining
  | finished (outcome : Outcome)
  deriving DecidableEq, Repr

structure System where
  gate : Gate
  calls : List Point
  deriving DecidableEq

inductive Act where
  | acquire
  | takeSlot (i : Nat)
  | cancel (i : Nat)
  | timeout (i : Nat)
  | readInFlight (i : Nat)
  | loadCeiling (i : Nat)
  | returnSlot (i : Nat)
  | returnTicket (i : Nat)
  | loadReason (i : Nat)
  | release (i : Nat)
  | setEffectiveConcurrent (n : Int)
  | setPressureReason (r : Reason)
  deriving DecidableEq, Repr

namespace System

def goTo (s : System) (i : Nat) (pt : Point) : System := { s with calls := s.calls.set i pt }

/-- The non-blocking `select` that a caller begins with. -/
def enter (s : System) : System :=
  match s.gate.admission.send? with
  | some ch => ⟨{ s.gate with admission := ch }, s.calls ++ [.waiting]⟩
  | none => ⟨s.gate.reject .queueFull, s.calls ++ [.finished (.rejected (rejected .queueFull))]⟩

def compare (s : System) (i inFlight : Nat) : System :=
  if (inFlight : Int) > s.gate.eff then s.goTo i .refused
  else { gate := { s.gate with admittedTotal := s.gate.admittedTotal + 1 }
         calls := s.calls.set i (.admitted inFlight) }

def leave (s : System) (i : Nat) : Exit → System
  | .cancelled => s.goTo i (.finished .cancelled)
  | .timedOut =>
    { gate := s.gate.reject .queueTimeout
      calls := s.calls.set i (.finished (.rejected (rejected .queueTimeout))) }
  | .overCeiling => s.goTo i .explaining
  | .released => s.goTo i (.finished .released)

def explain (s : System) (i : Nat) : System :=
  let reason := s.gate.pressureReason.getD .diskPressure
  { gate := s.gate.reject reason
    calls := s.calls.set i (.finished (.rejected (rejected reason))) }

/-- One step; `none` if the caller is not there or has to wait. -/
def step (s : System) : Act → Option System
  | .acquire => some s.enter
  | .takeSlot i =>
    match s.calls[i]? with
    | some .waiting =>
      s.gate.slots.send?.map fun ch =>
        { gate := { s.gate with slots := ch }, calls := s.calls.set i .claimed }
    | _ => none
  | .cancel i =>
    match s.calls[i]? with
    | some .waiting => some (s.goTo i (.leaving .cancelled))
    | _ => none
  | .timeout i =>
    match s.calls[i]? with
    | some .waiting =>
      if s.gate.lim.maxWait > 0 then some (s.goTo i (.leaving .timedOut)) else none
    | _ => none
  | .readInFlight i =>
    match s.calls[i]? with
    | some .claimed => some (s.goTo i (.measured s.gate.inFlight))
    | _ => none
  | .loadCeiling i =>
    match s.calls[i]? with
    | some (.measured k) => some (s.compare i k)
    | _ => none
  | .returnSlot i =>
    match s.calls[i]? with
    | some .refused =>
      s.gate.slots.receive?.map fun ch =>
        { gate := { s.gate with slots := ch }, calls := s.calls.set i (.leaving .overCeiling) }
    | some (.releasing _) =>
      s.gate.slots.receive?.map fun ch =>
        { gate := { s.gate with slots := ch }, calls := s.calls.set i (.leaving .released) }
    | _ => none
  | .returnTicket i =>
    match s.calls[i]? with
    | some (.leaving exit) =>
      s.gate.admission.receive?.map fun ch =>
        leave { s with gate := { s.gate with admission := ch } } i exit
    | _ => none
  | .loadReason i =>
    match s.calls[i]? with
    | some .explaining => some (s.explain i)
    | _ => none
  | .release i =>
    match s.calls[i]? with
    | some (.admitted k) => some (s.goTo i (.releasing k))
    -- a second call waits for the first in `once.Do` and then finds nothing to do
    | some (.finished .released) => some s
    | _ => none
  | .setEffectiveConcurrent n => some { s with gate := s.gate.setEffectiveConcurrent n }
  | .setPressureReason r => some { s with gate := s.gate.setPressureReason r }

def run (s : System) : List Act → Option System
  | [] => some s
  | a :: acts => (s.step a).bind (run · acts)

end System

/-! ## What a caller has -/

namespace Point

/-- A ticket of `admission` was taken and not returned. -/
def ticket : Point → Bool
  | .explaining | .finished _ => false
  | _ => true

def slot : Point → Bool
  | .claimed | .measured _ | .admitted _ | .refused | .releasing _ => true
  | _ => false

/-- What the caller has read of the slots, while it has one. -/
def reading? : Point → Option Nat
  | .measured k | .admitted k | .releasing k => some k
  | _ => none

def holder : Point → Bool
  | .admitted _ | .releasing _ => true
  | _ => false

def isFinished : Point → Bool
  | .finished _ => true
  | _ => false

def low (m : Nat) (pt : Point) : Bool := pt.reading?.any (· ≤ m)

theorem slot_of_reading {pt : Point} {k : Nat} (h : pt.reading? = some k) : pt.slot = true := by
  cases pt <;> simp_all [reading?, slot]

theorem low_eq_true {m : Nat} {pt : Point} :
    pt.low m = true ↔ ∃ k, pt.reading? = some k ∧ k ≤ m := by
  simp [low, Option.any_eq_true]

theorem slot_of_low {m : Nat} {pt : Point} (h : pt.low m = true) : pt.slot = true := by
  obtain ⟨k, hk, _⟩ := low_eq_true.mp h
  exact slot_of_reading hk

theorem slot_of_holder {pt : Point} (h : pt.holder = true) : pt.slot = true := by
  cases pt <;> simp_all [holder, slot]

theorem ticket_of_slot {pt : Point} (h : pt.slot = true) : pt.ticket = true := by
  cases pt <;> simp_all [ticket, slot]

theorem ticket_of_isFinished {pt : Point} (h : pt.isFinished = true) : pt.ticket = false := by
  cases pt <;> simp_all [ticket, isFinished]

end Point

/-! ## One step -/

/-- A caller went from `pt` to `pt'`: the channels changed by what it took or returned. -/
structure Moved (s s' : System) (pt pt' : Point) : Prop where
  lim : s'.gate.lim = s.gate.lim
  eff : s'.gate.eff = s.gate.eff
  admission_cap : s'.gate.admission.cap = s.gate.admission.cap
  slots_cap : s'.gate.slots.cap = s.gate.slots.cap
  admission :
    s'.gate.admission.len + pt.ticket.toNat = s.gate.admission.len + pt'.ticket.toNat
  slots : s'.gate.slots.len + pt.slot.toNat = s.gate.slots.len + pt'.slot.toNat
  reading : ∀ k, pt'.reading? = some k →
    pt.reading? = some k ∨ pt.slot = true ∧ k = s.gate.slots.len
  holder : pt'.holder = true → pt.holder = true ∧ pt'.reading? = pt.reading? ∨
    ∃ k : Nat, pt'.reading? = some k ∧ (k : Int) ≤ s.gate.eff

/-- What one step does, and whose it is.  A caller that enters had nothing before, as one
that has returned its ticket. -/
inductive Effect (s s' : System) : Option Nat → Prop
  | enter (pt : Point) (calls : s'.calls = s.calls ++ [pt])
      (moved : Moved s s' .explaining pt) : Effect s s' (some s.calls.length)
  | move (i : Nat) (pt pt' : Point) (at_i : s.calls[i]? = some pt)
      (calls : s'.calls = s.calls.set i pt') (moved : Moved s s' pt pt') : Effect s s' (some i)
  | again (i : Nat) (same : s' = s) : Effect s s' (some i)
  | setter (calls : s'.calls = s.calls) (lim : s'.gate.lim = s.gate.lim)
      (admission : s'.gate.admission = s.gate.admission) (slots : s'.gate.slots = s.gate.slots)
      (eff : s'.gate.eff = s.gate.eff ∨ ∃ n, s'.gate.eff = max 0 (min n s.gate.lim.maxConcurrent)) :
      Effect s s' none

def Act.caller (s : System) : Act → Option Nat
  | .acquire => some s.calls.length
  | .takeSlot i | .cancel i | .timeout i | .readInFlight i | .loadCeiling i | .returnSlot i
  | .returnTicket i | .loadReason i | .release i => some i
  | .setEffectiveConcurrent _ | .setPressureReason _ => none

section Step

variable {s s' : System} {pt pt' : Point} {i : Nat}

theorem Moved.of_same (lim : s'.gate.lim = s.gate.lim) (eff : s'.gate.eff = s.gate.eff)
    (admission : s'.gate.admission = s.gate.admission) (slots : s'.gate.slots = s.gate.slots)
    (ticket : pt'.ticket = pt.ticket) (slot : pt'.slot = pt.slot)
    (reading : ∀ k, pt'.reading? = some k →
      pt.reading? = some k ∨ pt.slot = true ∧ k = s.gate.slots.len)
    (holder : pt'.holder = true → pt.holder = true ∧ pt'.reading? = pt.reading? ∨
      ∃ k : Nat, pt'.reading? = some k ∧ (k : Int) ≤ s.gate.eff) :
    Moved s s' pt pt' where
  lim := lim
  eff := eff
  admission_cap := by rw [admission]
  slots_cap := by rw [slots]
  admission := by rw [admission, ticket]
  slots := by rw [slots, slot]
  reading := reading
  holder := holder

theorem enter_effect : Effect s s.enter (some s.calls.length) := by
  cases hch : s.gate.admission.send? with
  | none =>
    simp only [System.enter, hch]
    exact .enter _ rfl (.of_same rfl rfl rfl rfl rfl rfl nofun nofun)
  | some ch =>
    obtain ⟨hcap, hlen⟩ := Channel.send?_eq_some hch
    simp only [System.enter, hch]
    exact .enter _ rfl ⟨rfl, rfl, hcap, rfl, hlen, rfl, nofun, nofun⟩

theorem compare_effect {k : Nat} (h : s.calls[i]? = some (.measured k)) :
    Effect s (s.compare i k) (some i) := by
  unfold System.compare
  by_cases hk : (k : Int) > s.gate.eff
  · rw [if_pos hk]
    exact .move i _ _ h rfl (.of_same rfl rfl rfl rfl rfl rfl nofun nofun)
  · rw [if_neg hk]
    exact .move i _ _ h rfl (.of_same rfl rfl rfl rfl rfl rfl (fun _ => .inl)
      fun _ => .inr ⟨k, rfl, not_lt.mp hk⟩)

theorem leave_effect {exit : Exit} {ch : Channel} (h : s.calls[i]? = some (.leaving exit))
    (hch : s.gate.admission.receive? = some ch) :
    Effect s (System.leave { s with gate := { s.gate with admission := ch } } i exit)
      (some i) := by
  obtain ⟨hcap, hlen⟩ := Channel.receive?_eq_some hch
  cases exit <;> exact .move i _ _ h rfl ⟨rfl, rfl, hcap, rfl, hlen, rfl, nofun, nofun⟩

theorem returnSlot_effect {exit : Exit} {ch : Channel} (h : s.calls[i]? = some pt)
    (hticket : pt.ticket = true) (hslot : pt.slot = true)
    (hch : s.gate.slots.receive? = some ch) :
    Effect s ⟨{ s.gate with slots := ch }, s.calls.set i (.leaving exit)⟩ (some i) := by
  obtain ⟨hcap, hlen⟩ := Channel.receive?_eq_some hch
  exact .move i _ _ h rfl ⟨rfl, rfl, rfl, hcap, by rw [hticket]; rfl, by rw [hslot]; exact hlen,
    nofun, nofun⟩

theorem step_effect {a : Act} (h : s.step a = some s') : Effect s s' (a.caller s) := by
  cases a with
  | acquire =>
    cases h
    exact enter_effect
  | setEffectiveConcurrent n =>
    cases h
    exact .setter rfl rfl rfl rfl (.inr ⟨n, rfl⟩)
  | setPressureReason r =>
    cases h
    exact .setter rfl rfl rfl rfl (.inl rfl)
  | takeSlot i =>
    rcases hpt : s.calls[i]? with _ | _ | _ <;>
      simp only [System.step, hpt, reduceCtorEq, map_eq_some_iff] at h
    obtain ⟨ch, hch, rfl⟩ := h
    obtain ⟨hcap, hlen⟩ := Channel.send?_eq_some hch
    exact .move i _ _ hpt rfl ⟨rfl, rfl, rfl, hcap, rfl, hlen, nofun, nofun⟩
  | cancel i =>
    rcases hpt : s.calls[i]? with _ | _ | _ <;>
      simp only [System.step, hpt, reduceCtorEq, some.injEq] at h
    subst h
    exact .move i _ _ hpt rfl (.of_same rfl rfl rfl rfl rfl rfl nofun nofun)
  | timeout i =>
    rcases hpt : s.calls[i]? with _ | _ | _ <;>
      simp only [System.step, hpt, reduceCtorEq, ite_none_right_eq_some, some.injEq] at h
    obtain ⟨_, rfl⟩ := h
    exact .move i _ _ hpt rfl (.of_same rfl rfl rfl rfl rfl rfl nofun nofun)
  | readInFlight i =>
    rcases hpt : s.calls[i]? with _ | _ | _ <;>
      simp only [System.step, hpt, reduceCtorEq, some.injEq] at h
    subst h
    exact .move i _ _ hpt rfl (.of_same rfl rfl rfl rfl rfl rfl
      (fun _ hk => .inr ⟨rfl, (some.inj hk).symm⟩) nofun)
  | loadCeiling i =>
    rcases hpt : s.calls[i]? with _ | _ | _ <;>
      simp only [System.step, hpt, reduceCtorEq, some.injEq] at h
    subst h
    exact compare_effect hpt
  | returnSlot i =>
    rcases hpt : s.calls[i]? with _ | _ | _ <;>
      simp only [System.step, hpt, reduceCtorEq, map_eq_some_iff] at h <;>
      obtain ⟨ch, hch, rfl⟩ := h <;>
      exact returnSlot_effect hpt rfl rfl hch
  | returnTicket i =>
    rcases hpt : s.calls[i]? with _ | _ | _ <;>
      simp only [System.step, hpt, reduceCtorEq, map_eq_some_iff] at h
    obtain ⟨ch, hch, rfl⟩ := h
    exact leave_effect hpt hch
  | loadReason i =>
    rcases hpt : s.calls[i]? with _ | _ | _ <;>
      simp only [System.step, hpt, reduceCtorEq, some.injEq] at h
    subst h
    exact .move i _ _ hpt rfl (.of_same rfl rfl rfl rfl rfl rfl nofun nofun)
  | release i =>
    rcases hpt : s.calls[i]? with _ | _ | _ | _ | _ | _ | _ | _ | _ | _ | _ | _ <;>
      simp only [System.step, hpt, reduceCtorEq, some.injEq] at h
    · subst h
      exact .move i _ _ hpt rfl (.of_same rfl rfl rfl rfl rfl rfl (fun _ => .inl)
        fun _ => .inl ⟨rfl, rfl⟩)
    · exact .again i h.symm

end Step

/-! ## Runs -/

section Runs

variable {s s' : System} {a : Act} {acts acts' : List Act}

theorem run_cons_eq_some (h : s.run (a :: acts) = some s') :
    ∃ t, s.step a = some t ∧ t.run acts = some s' :=
  bind_eq_some_iff.mp h

theorem run_append : s.run (acts ++ acts') = (s.run acts).bind (·.run acts') := by
  induction acts generalizing s with
  | nil => rfl
  | cons a acts ih =>
    simp only [cons_append, System.run]
    cases s.step a with
    | none => rfl
    | some t => exact ih

theorem run_invariant {P : System → Prop}
    (hstep : ∀ {s s' who}, Effect s s' who → P s → P s') (h : s.run acts = some s')
    (hs : P s) : P s' := by
  induction acts generalizing s with
  | nil => exact some.inj h ▸ hs
  | cons a acts ih =>
    obtain ⟨t, ht, hrun⟩ := run_cons_eq_some h
    exact ih hrun (hstep (step_effect ht) hs)

end Runs

/-! ## The accounts -/

/-- The tickets and slots out are those that callers have, and no more callers have read
at most `m` slots than that. -/
structure Accounted (lim : Limits) (s : System) : Prop where
  admission_cap : (s.gate.admission.cap : Int) = lim.maxConcurrent + lim.maxQueueDepth
  slots_cap : (s.gate.slots.cap : Int) = lim.maxConcurrent
  gate_lim : s.gate.lim = lim
  eff_nonneg : 0 ≤ s.gate.eff
  admission : s.gate.admission.len = s.calls.countP Point.ticket
  slots : s.gate.slots.len = s.calls.countP Point.slot
  low : ∀ m, s.calls.countP (Point.low m) ≤ m

namespace Accounted

variable {lim : Limits} {s s' : System} {who : Option Nat} {pt pt' : Point} {i : Nat}

theorem newGate {name : Bytes} {g : Gate} (h : newGate name lim = .ok g) :
    Accounted lim ⟨g, []⟩ := by
  simp only [Admission.newGate] at h
  split_ifs at h with hconc hdepth hwait hsize
  cases h
  refine ⟨?_, ?_, rfl, ?_, rfl, rfl, fun m => Nat.zero_le m⟩ <;> simp [Channel.empty] <;> omega

theorem low_of_read (h : Accounted lim s) (hi : s.calls[i]? = some pt) (hslot : pt.slot = true)
    (hread : pt'.reading? = some s.gate.slots.len) {m : Nat} (hm : s.gate.slots.len ≤ m) :
    (s.calls.set i pt').countP (Point.low m) ≤ m := by
  have hset : (s.calls.set i pt').countP Point.slot + pt.slot.toNat =
      s.calls.countP Point.slot + pt'.slot.toNat := countP_set_add hi
  rw [hslot, Point.slot_of_reading hread] at hset
  calc (s.calls.set i pt').countP (Point.low m)
      ≤ (s.calls.set i pt').countP Point.slot :=
        countP_mono_left fun _ _ => Point.slot_of_low
    _ = s.calls.countP Point.slot := Nat.add_right_cancel hset
    _ = s.gate.slots.len := h.slots.symm
    _ ≤ m := hm

theorem low_of_not_low (h : Accounted lim s) (hi : s.calls[i]? = some pt) {m : Nat}
    (hlow : pt'.low m = true → pt.low m = true) :
    (s.calls.set i pt').countP (Point.low m) ≤ m := by
  have hset : (s.calls.set i pt').countP (Point.low m) + (pt.low m).toNat =
      s.calls.countP (Point.low m) + (pt'.low m).toNat := countP_set_add hi
  have hle : (pt'.low m).toNat ≤ (pt.low m).toNat := Bool.toNat_le_toNat hlow
  have := h.low m
  omega

theorem step (heff : Effect s s' who) (h : Accounted lim s) : Accounted lim s' := by
  cases heff with
  | again i same => exact same ▸ h
  | setter calls hlim admission slots eff =>
    refine ⟨admission ▸ h.admission_cap, slots ▸ h.slots_cap, hlim.trans h.gate_lim, ?_,
      by rw [admission, calls, h.admission], by rw [slots, calls, h.slots], calls ▸ h.low⟩
    obtain heq | ⟨n, heq⟩ := eff
    · exact heq ▸ h.eff_nonneg
    · exact heq ▸ le_max_left _ _
  | enter pt calls moved =>
    have hticket : s'.gate.admission.len = s.gate.admission.len + pt.ticket.toNat :=
      moved.admission
    have hslot : s'.gate.slots.len = s.gate.slots.len + pt.slot.toNat := moved.slots
    refine ⟨moved.admission_cap ▸ h.admission_cap, moved.slots_cap ▸ h.slots_cap,
      moved.lim.trans h.gate_lim, moved.eff ▸ h.eff_nonneg, ?_, ?_, fun m => ?_⟩
    · rw [hticket, calls, countP_concat, h.admission]
    · rw [hslot, calls, countP_concat, h.slots]
    · have hlow : pt.low m = false := by
        rw [Bool.eq_false_iff]
        intro hlow
        obtain ⟨k, hk, _⟩ := Point.low_eq_true.mp hlow
        simpa [Point.reading?, Point.slot] using moved.reading k hk
      rw [calls, countP_concat, hlow]
      exact h.low m
  | move i pt pt' hi calls moved =>
    have hticket : (s.calls.set i pt').countP Point.ticket + pt.ticket.toNat =
        s.calls.countP Point.ticket + pt'.ticket.toNat := countP_set_add hi
    have hslot : (s.calls.set i pt').countP Point.slot + pt.slot.toNat =
        s.calls.countP Point.slot + pt'.slot.toNat := countP_set_add hi
    refine ⟨moved.admission_cap ▸ h.admission_cap, moved.slots_cap ▸ h.slots_cap,
      moved.lim.trans h.gate_lim, moved.eff ▸ h.eff_nonneg, ?_, ?_, fun m => ?_⟩
    · have hlen := moved.admission
      rw [h.admission] at hlen
      rw [calls]
      omega
    · have hlen := moved.slots
      rw [h.slots] at hlen
      rw [calls]
      omega
    · rw [calls]
      by_cases hread : pt.slot = true ∧ pt'.reading? = some s.gate.slots.len ∧
          s.gate.slots.len ≤ m
      · exact h.low_of_read hi hread.1 hread.2.1 hread.2.2
      · refine h.low_of_not_low hi fun hlow => ?_
        obtain ⟨k, hk, hkm⟩ := Point.low_eq_true.mp hlow
        obtain hold | ⟨hpt, rfl⟩ := moved.reading k hk
        · exact Point.low_eq_true.mpr ⟨k, hold, hkm⟩
        · exact absurd ⟨hpt, hk, hkm⟩ hread

theorem tickets_le (h : Accounted lim s) :
    (s.calls.countP Point.ticket : Int) ≤ lim.maxConcurrent + lim.maxQueueDepth := by
  rw [← h.admission, ← h.admission_cap]
  exact Int.ofNat_le.mpr s.gate.admission.len_le

theorem holders_le (h : Accounted lim s) :
    (s.calls.countP Point.holder : Int) ≤ lim.maxConcurrent := by
  have hslots : s.calls.countP Point.holder ≤ s.gate.slots.len :=
    h.slots ▸ countP_mono_left fun _ _ => Point.slot_of_holder
  rw [← h.slots_cap]
  exact Int.ofNat_le.mpr (hslots.trans s.gate.slots.len_le)

theorem holders_le_eff (h : Accounted lim s)
    (hread : ∀ pt ∈ s.calls, pt.holder = true →
      ∃ k : Nat, pt.reading? = some k ∧ (k : Int) ≤ s.gate.eff) :
    (s.calls.countP Point.holder : Int) ≤ s.gate.eff := by
  have hlow : s.calls.countP Point.holder ≤ s.calls.countP (Point.low s.gate.eff.toNat) := by
    refine countP_mono_left fun pt hpt hholder => ?_
    obtain ⟨k, hk, hle⟩ := hread pt hpt hholder
    exact Point.low_eq_true.mpr ⟨k, hk, by omega⟩
  have := h.low s.gate.eff.toNat
  have := h.eff_nonneg
  omega

theorem queued_eq (h : Accounted lim s) :
    s.gate.queued = s.calls.countP fun pt => pt.ticket && !pt.slot := by
  have hsplit : s.calls.countP Point.ticket =
      s.calls.countP (fun pt => pt.ticket && !pt.slot) + s.calls.countP Point.slot := by
    induction s.calls with
    | nil => rfl
    | cons pt calls ih =>
      simp only [countP_cons, ih]
      cases hslot : pt.slot with
      | false => simp; omega
      | true => simp [Point.ticket_of_slot hslot]; omega
  rw [Gate.queued, h.admission, h.slots, hsplit, Nat.add_sub_cancel]

theorem empty (h : Accounted lim s) (hdone : ∀ pt ∈ s.calls, pt.isFinished = true) :
    s.gate.admission.len = 0 ∧ s.gate.slots.len = 0 := by
  have hticket : ∀ pt ∈ s.calls, pt.ticket = false := fun pt hpt =>
    Point.ticket_of_isFinished (hdone pt hpt)
  rw [h.admission, h.slots, countP_eq_zero, countP_eq_zero]
  refine ⟨fun pt hpt => by simp [hticket pt hpt], fun pt hpt hslot => ?_⟩
  simpa [Point.ticket_of_slot hslot] using hticket pt hpt

end Accounted

/-! ## The effective ceiling -/

def System.Holds (s : System) (i : Nat) : Prop := ∃ pt, s.calls[i]? = some pt ∧ pt.holder = true

def Admits (start : System) (e : Int) (s : System) : Prop :=
  ∀ i pt, s.calls[i]? = some pt → pt.holder = true → ¬ start.Holds i →
    ∃ k : Nat, pt.reading? = some k ∧ (k : Int) ≤ e

section Ceiling

variable {start s s' : System} {who : Option Nat} {e : Int}

theorem Admits.step (heff : Effect s s' who) (he : s.gate.eff = e) (h : Admits start e s) :
    Admits start e s' := by
  intro i pt hi hholder hstart
  cases heff with
  | again j same => exact h i pt (same ▸ hi) hholder hstart
  | setter calls _ _ _ _ => exact h i pt (calls ▸ hi) hholder hstart
  | enter new calls moved =>
    rw [calls, List.getElem?_append] at hi
    split_ifs at hi with hlt
    · exact h i pt hi hholder hstart
    · obtain rfl : pt = new := by simpa using List.mem_of_getElem? hi
      obtain ⟨habsurd, _⟩ | hnew := moved.holder hholder
      · cases habsurd
      · exact he ▸ hnew
  | move j old new hj calls moved =>
    rw [calls] at hi
    by_cases hij : j = i
    · subst hij
      obtain rfl : new = pt := by
        simpa [List.getElem?_set, (List.getElem?_eq_some_iff.mp hj).1] using hi
      obtain ⟨hold, hread⟩ | hnew := moved.holder hholder
      · exact hread ▸ h j old hj hold hstart
      · exact he ▸ hnew
    · rw [List.getElem?_set_ne hij] at hi
      exact h i pt hi hholder hstart

/-- While the ceiling keeps its value, whoever is admitted has read at most that. -/
theorem Admits.run {acts : List Act} (hrun : s.run acts = some s')
    (heff : ∀ pre, pre <+: acts → ∀ t, s.run pre = some t → t.gate.eff = e)
    (h : Admits start e s) : Admits start e s' := by
  induction acts generalizing s with
  | nil => exact some.inj hrun ▸ h
  | cons a acts ih =>
    obtain ⟨t, ht, hrest⟩ := run_cons_eq_some hrun
    refine ih hrest (fun pre hpre t' ht' => ?_)
      (h.step (step_effect ht) (heff [] nil_prefix s rfl))
    refine heff (a :: pre) (cons_prefix_cons.mpr ⟨rfl, hpre⟩) t' ?_
    rw [System.run, ht]
    exact ht'

end Ceiling

/-! ## The account of one caller -/

namespace System

/-- A caller that is not in yet has nothing, as one that has returned its ticket. -/
def pointOf (s : System) (i : Nat) : Point := s.calls[i]?.getD .explaining

/-- What the steps of one caller add to `admission` and to `slots`. -/
def balance (s : System) (i : Nat) : List Act → Int × Int
  | [] => (0, 0)
  | a :: acts =>
    match s.step a with
    | none => (0, 0)
    | some t =>
      let rest := t.balance i acts
      if a.caller s = some i then
        (t.gate.admission.len - s.gate.admission.len + rest.1,
          t.gate.slots.len - s.gate.slots.len + rest.2)
      else rest

end System

section Balance

variable {s s' : System} {who : Option Nat} {i : Nat}

theorem Effect.pointOf_eq (h : Effect s s' who) (hwho : who ≠ some i) :
    s'.pointOf i = s.pointOf i := by
  cases h with
  | again j same => rw [same]
  | setter calls _ _ _ _ => rw [System.pointOf, System.pointOf, calls]
  | enter pt calls _ =>
    have hi : i ≠ s.calls.length := fun hi => hwho (hi ▸ rfl)
    rw [System.pointOf, System.pointOf, calls, getElem?_append]
    split_ifs with hlt
    · rfl
    · rw [getElem?_eq_none (by simp; omega), getElem?_eq_none (by omega)]
  | move j pt pt' _ calls _ =>
    have hij : j ≠ i := fun hij => hwho (hij ▸ rfl)
    rw [System.pointOf, System.pointOf, calls, getElem?_set_ne hij]

theorem Effect.lens (h : Effect s s' (some i)) :
    s'.gate.admission.len + (s.pointOf i).ticket.toNat =
        s.gate.admission.len + (s'.pointOf i).ticket.toNat ∧
      s'.gate.slots.len + (s.pointOf i).slot.toNat =
        s.gate.slots.len + (s'.pointOf i).slot.toNat := by
  generalize hwho : some i = who at h
  cases h with
  | again j same => exact same ▸ ⟨rfl, rfl⟩
  | setter _ _ _ _ _ => cases hwho
  | enter pt calls moved =>
    cases hwho
    have hpt : s.pointOf s.calls.length = .explaining := by simp [System.pointOf]
    have hpt' : s'.pointOf s.calls.length = pt := by simp [System.pointOf, calls]
    rw [hpt, hpt']
    exact ⟨moved.admission, moved.slots⟩
  | move j pt pt' hj calls moved =>
    cases hwho
    have hlt := (List.getElem?_eq_some_iff.mp hj).1
    have hpt : s.pointOf i = pt := by simp [System.pointOf, hj]
    have hpt' : s'.pointOf i = pt' := by simp [System.pointOf, calls, hlt]
    rw [hpt, hpt']
    exact ⟨moved.admission, moved.slots⟩

theorem balance_eq {acts : List Act} (h : s.run acts = some s') :
    s.balance i acts =
      (((s'.pointOf i).ticket.toNat : Int) - (s.pointOf i).ticket.toNat,
        ((s'.pointOf i).slot.toNat : Int) - (s.pointOf i).slot.toNat) := by
  induction acts generalizing s with
  | nil =>
    cases h
    simp [System.balance]
  | cons a acts ih =>
    obtain ⟨t, ht, hrest⟩ := run_cons_eq_some h
    have heff := step_effect ht
    simp only [System.balance, ht, ih hrest]
    split_ifs with hwho
    · obtain ⟨hadmission, hslots⟩ := (hwho ▸ heff).lens
      ext <;> dsimp only <;> omega
    · rw [heff.pointOf_eq hwho]

end Balance

/-! ## Releases -/

def Point.pending? (i : Nat) : Point → Option Act
  | .admitted _ | .finished .released => some (.release i)
  | .refused | .releasing _ => some (.returnSlot i)
  | .leaving _ => some (.returnTicket i)
  | _ => none

section Release

variable {lim : Limits} {s : System} {pt : Point} {i : Nat}

theorem Accounted.exists_receive_slot (h : Accounted lim s) (hi : s.calls[i]? = some pt)
    (hslot : pt.slot = true) : ∃ ch, s.gate.slots.receive? = some ch :=
  Channel.exists_receive? (h.slots ▸ countP_pos_of_getElem? hi hslot)

theorem Accounted.exists_receive_ticket (h : Accounted lim s) (hi : s.calls[i]? = some pt)
    (hticket : pt.ticket = true) : ∃ ch, s.gate.admission.receive? = some ch :=
  Channel.exists_receive? (h.admission ▸ countP_pos_of_getElem? hi hticket)

theorem Accounted.exists_step {a : Act} (h : Accounted lim s) (hi : s.calls[i]? = some pt)
    (ha : pt.pending? i = some a) : ∃ s', s.step a = some s' := by
  cases pt with
  | admitted k =>
    cases ha
    simp [System.step, hi]
  | refused =>
    cases ha
    obtain ⟨ch, hch⟩ := h.exists_receive_slot hi rfl
    simp [System.step, hi, hch]
  | releasing k =>
    cases ha
    obtain ⟨ch, hch⟩ := h.exists_receive_slot hi rfl
    simp [System.step, hi, hch]
  | leaving exit =>
    cases ha
    obtain ⟨ch, hch⟩ := h.exists_receive_ticket hi rfl
    simp [System.step, hi, hch]
  | finished outcome =>
    cases outcome <;> cases ha
    simp [System.step, hi]
  | _ => cases ha

theorem step_release_again (hi : s.calls[i]? = some (.finished .released)) :
    s.step (.release i) = some s := by
  simp [System.step, hi]

theorem Accounted.release_run {k : Nat} (h : Accounted lim s)
    (hi : s.calls[i]? = some (.admitted k)) :
    ∃ s', s.run [.release i, .returnSlot i, .returnTicket i] = some s' ∧
      s'.calls[i]? = some (.finished .released) := by
  have hlt := (List.getElem?_eq_some_iff.mp hi).1
  have hset : ∀ pt, (s.calls.set i pt)[i]? = some pt := fun pt => by simp [hlt]
  obtain ⟨ch, hch⟩ := h.exists_receive_slot hi rfl
  obtain ⟨ch', hch'⟩ := h.exists_receive_ticket hi rfl
  simp only [System.run, System.step, System.goTo, System.leave, hi, hch, hch', hset,
    List.set_set, map_some, bind_some, some.injEq, exists_eq_left']

end Release

/-- In every run of a gate: the tickets and the admitted callers are bounded by the limits,
and by the ceiling while it keeps its value from before the first of the callers admitted
now was admitted; a caller that is through has returned what it took; nothing that a caller
returns or releases has to wait for another. -/
theorem gate_accounts {name : Bytes} {lim : Limits} {g : Gate} (hg : newGate name lim = .ok g)
    {acts : List Act} {s : System} (hs : System.run ⟨g, []⟩ acts = some s) :
    (s.calls.countP Point.ticket : Int) ≤ lim.maxConcurrent + lim.maxQueueDepth ∧
    (s.calls.countP Point.holder : Int) ≤ lim.maxConcurrent ∧
    (∀ before after start, acts = before ++ after → System.run ⟨g, []⟩ before = some start →
      (∀ i, s.Holds i → ¬ start.Holds i) →
      (∀ pre, pre <+: after → ∀ t, start.run pre = some t → t.gate.eff = s.gate.eff) →
      (s.calls.countP Point.holder : Int) ≤ s.gate.eff) ∧
    (∀ i outcome, s.calls[i]? = some (.finished outcome) →
      System.balance ⟨g, []⟩ i acts = (0, 0)) ∧
    ((∀ pt ∈ s.calls, pt.isFinished = true) →
      s.gate.admission.len = 0 ∧ s.gate.slots.len = 0) ∧
    (∀ i (pt : Point) a, s.calls[i]? = some pt → pt.pending? i = some a → ∃ s', s.step a = some s') ∧
    (∀ i k, s.calls[i]? = some (.admitted k) →
      ∃ s', s.run [.release i, .returnSlot i, .returnTicket i] = some s' ∧
        s'.calls[i]? = some (.finished .released)) ∧
    ∀ i, s.calls[i]? = some (.finished .released) → s.step (.release i) = some s := by
  have h : Accounted lim s := run_invariant Accounted.step hs (.newGate hg)
  refine ⟨h.tickets_le, h.holders_le, ?_, ?_, h.empty, fun i pt a => h.exists_step,
    fun i k => h.release_run, fun i => step_release_again⟩
  · rintro before after start rfl hstart hheld heff
    have hafter : start.run after = some s := by
      rwa [run_append, hstart, Option.bind_some] at hs
    have hadmits : Admits start s.gate.eff s :=
      Admits.run hafter heff fun i pt hi hholder hnot => absurd ⟨pt, hi, hholder⟩ hnot
    refine h.holders_le_eff fun pt hpt hholder => ?_
    obtain ⟨i, hi⟩ := List.getElem?_of_mem hpt
    exact hadmits i pt hi hholder (hheld i ⟨pt, hi, hholder⟩)
  · intro i outcome hi
    have hpt : s.pointOf i = .finished outcome := by simp [System.pointOf, hi]
    rw [balance_eq hs, hpt]
    rfl

def twoCallers : List Act :=
  [.acquire, .takeSlot 0, .readInFlight 0, .acquire, .loadCeiling 0, .takeSlot 1,
    .readInFlight 1, .loadCeiling 1, .returnSlot 1, .returnTicket 1, .loadReason 1]

def twoSlots : Gate :=
  { name := [], lim := ⟨2, 1, 0⟩, admission := .empty 3, slots := .empty 2, eff := 2
    pressureReason := none, admittedTotal := 0, rejectedTotal := knownReasons.map (·, 0) }

def afterTwoCallers : System :=
  { gate := { (twoSlots.setEffectiveConcurrent 1).reject .diskPressure with
      admission := ⟨3, 1, by decide⟩, slots := ⟨2, 1, by decide⟩, admittedTotal := 1 }
    calls := [.admitted 1, .finished (.rejected (rejected .diskPressure))] }

theorem gate_accounts_twoCallers :
    newGate [] ⟨2, 1, 0⟩ = .ok twoSlots ∧
    System.run ⟨twoSlots, []⟩ (.setEffectiveConcurrent 1 :: twoCallers) = some afterTwoCallers ∧
    afterTwoCallers.calls.countP Point.holder = 1 ∧
    (afterTwoCallers.calls.countP Point.holder : Int) ≤ afterTwoCallers.gate.eff ∧
    System.balance ⟨twoSlots, []⟩ 1 (.setEffectiveConcurrent 1 :: twoCallers) = (0, 0) ∧
    ∃ s', afterTwoCallers.run [.release 0, .returnSlot 0, .returnTicket 0] = some s' ∧
      s'.calls[0]? = some (.finished .released) := by
  have hs : System.run ⟨twoSlots, []⟩ (.setEffectiveConcurrent 1 :: twoCallers) =
    some afterTwoCallers := rfl
  have h := @gate_accounts [] ⟨2, 1, 0⟩ twoSlots rfl _ _ hs
  have hpre : ∀ pre ∈ twoCallers.inits,
      (System.run ⟨twoSlots.setEffectiveConcurrent 1, []⟩ pre).all (·.gate.eff == 1) = true := by
    decide
  refine ⟨rfl, hs, rfl, ?_, h.2.2.2.1 1 _ rfl, h.2.2.2.2.2.2.1 0 1 rfl⟩
  refine h.2.2.1 [.setEffectiveConcurrent 1] twoCallers _ rfl rfl ?_ fun pre hpref t ht => ?_
  · rintro i _ ⟨pt, hpt, _⟩
    simp at hpt
  · have hall := hpre pre ((List.mem_inits pre _).mpr hpref)
    rw [ht] at hall
    exact of_decide_eq_true hall

end ChronicleDB.Admission
