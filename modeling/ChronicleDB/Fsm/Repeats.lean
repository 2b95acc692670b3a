import ChronicleDB.Fsm.History

/-!
# Repeated commands

A commit command that comes back at a later index is answered from its recorded
outcome, and the state is the one of the history without it.  `Apply` and
`ApplyCommit` are read once more here, as the programs on a shared state that
they are, since what an error leaves behind is a question about those.
-/

namespace ChronicleDB.Mvcc.Store

def checkMutation (commitSeq : Nat) (m : Mutation) : EStateM StoreError Store PUnit := do
  match (← get).latestCommitSeq m.key with
  | some latest =>
    if latest ≥ commitSeq then throw (.nonMonotonicCommit m.key latest commitSeq)
  | none => pure ()

def applyCommitInPlace (commitSeq : Nat) (mutations : List Mutation) :
    EStateM StoreError Store PUnit := do
  if mutations.isEmpty then return
  forM mutations (checkMutation commitSeq)
  forM mutations fun m => modify (push commitSeq · m)

/-- What a program that only looks at the store comes to. -/
def Unchanged (s : Store) : Except StoreError Unit → EStateM.Result StoreError Store PUnit
  | .ok () => .ok () s
  | .error e => .error e s

theorem run_checkMutation (commitSeq : Nat) (m : Mutation) (s : Store) :
    (checkMutation commitSeq m).run s = s.Unchanged (s.checkMonotonic commitSeq [m]) := by
  change (match s.latestCommitSeq m.key with
    | some latest =>
      if latest ≥ commitSeq then throw (.nonMonotonicCommit m.key latest commitSeq)
      else pure ()
    | none => pure () : EStateM StoreError Store PUnit) s = _
  simp only [checkMonotonic]
  cases s.latestCommitSeq m.key with
  | none => rfl
  | some latest =>
    by_cases h : latest ≥ commitSeq
    · simp only [if_pos h]
      rfl
    · simp only [if_neg h]
      rfl

theorem checkMonotonic_cons (s : Store) (commitSeq : Nat) (m : Mutation) (ms : List Mutation) :
    s.checkMonotonic commitSeq (m :: ms) =
      (s.checkMonotonic commitSeq [m]).bind fun _ => s.checkMonotonic commitSeq ms := by
  simp only [checkMonotonic]
  cases s.latestCommitSeq m.key with
  | none => rfl
  | some latest =>
    by_cases h : latest ≥ commitSeq
    · simp only [if_pos h]
      rfl
    · simp only [if_neg h]
      rfl

theorem run_checks (commitSeq : Nat) (ms : List Mutation) (s : Store) :
    (forM ms (checkMutation commitSeq)).run s =
      s.Unchanged (s.checkMonotonic commitSeq ms) := by
  induction ms with
  | nil => rfl
  | cons m ms ih =>
    rw [checkMonotonic_cons s commitSeq m ms, List.forM_cons, EStateM.run_bind, run_checkMutation]
    cases s.checkMonotonic commitSeq [m] with
    | error e => rfl
    | ok _ => exact ih

theorem run_pushes (commitSeq : Nat) (ms : List Mutation) (s : Store) :
    (forM ms fun m => (modify (push commitSeq · m) : EStateM StoreError Store PUnit)).run s =
      .ok () (ms.foldl (push commitSeq) s) := by
  induction ms generalizing s with
  | nil => rfl
  | cons m ms ih =>
    rw [List.forM_cons]
    exact ih _

theorem run_applyCommitInPlace (commitSeq : Nat) (ms : List Mutation) (s : Store) :
    (applyCommitInPlace commitSeq ms).run s =
      match s.applyCommit commitSeq ms with
      | .ok s' => .ok () s'
      | .error e => .error e s := by
  rw [applyCommit]
  cases ms with
  | nil => rfl
  | cons m ms =>
    rw [applyCommitInPlace, List.isEmpty_cons, if_neg Bool.false_ne_true, EStateM.run_bind,
      run_checks]
    cases s.checkMonotonic commitSeq (m :: ms) with
    | error e => rfl
    | ok _ => exact run_pushes commitSeq (m :: ms) s

end ChronicleDB.Mvcc.Store

namespace ChronicleDB.Fsm

open Foundation Mvcc

namespace FSM

/-- A program on the store, run on the one that the state machine holds. -/
def onStore (index : Nat) (p : EStateM StoreError Store PUnit) : EStateM ApplyError FSM PUnit :=
  fun f =>
    match p.run f.store with
    | .ok () store => .ok () { f with store }
    | .error e store => .error (.store index e) { f with store }

def decideInPlace (index : Nat) (cmd : CommitTxnCommand) : EStateM ApplyError FSM Outcome := do
  if cmd.startSeq < (← get).gcWatermark then return .abortedStale cmd.requestID
  match (← get).store.checkConflicts cmd.startSeq cmd.mutations with
  | some (key, latest) => return .conflict cmd.requestID key latest
  | none =>
    onStore index (Store.applyCommitInPlace index cmd.mutations)
    return .committed cmd.requestID index

def applyInPlace (index : Nat) (cmd : CommitTxnCommand) : EStateM ApplyError FSM Outcome := do
  match (← get).precheck cmd with
  | .ok outcome => return outcome
  | .error .requestIDUnknown =>
    let outcome ← decideInPlace index cmd
    modify fun f =>
      { f with outcomes := f.outcomes.insert cmd.requestID ⟨outcome, fingerprintOf cmd⟩ }
    return outcome
  | .error e => throw e

theorem run_onStore (index : Nat) (ms : List Mutation) (f : FSM) :
    (onStore index (Store.applyCommitInPlace index ms)).run f =
      match f.store.applyCommit index ms with
      | .ok store => .ok () { f with store }
      | .error e => .error (.store index e) f := by
  change (match (Store.applyCommitInPlace index ms).run f.store with
    | .ok () store => EStateM.Result.ok () { f with store }
    | .error e store => .error (ApplyError.store index e) { f with store }) = _
  rw [Store.run_applyCommitInPlace]
  cases f.store.applyCommit index ms with
  | error e => rfl
  | ok store => rfl

theorem run_decideInPlace (index : Nat) (cmd : CommitTxnCommand) (f : FSM) :
    (decideInPlace index cmd).run f =
      match f.decision index cmd with
      | .ok (store, outcome) => .ok outcome { f with store }
      | .error e => .error e f := by
  rw [decision, decideInPlace, EStateM.run_bind, EStateM.run_get]
  dsimp only
  by_cases hstale : cmd.startSeq < f.gcWatermark
  · rw [if_pos hstale, if_pos hstale]
    rfl
  · rw [if_neg hstale, if_neg hstale, EStateM.run_bind, EStateM.run_get]
    dsimp only
    cases f.store.checkConflicts cmd.startSeq cmd.mutations with
    | some conflict => rfl
    | none =>
      simp only [EStateM.run_bind, run_onStore]
      cases f.store.applyCommit index cmd.mutations with
      | error e => rfl
      | ok store => rfl

/-- The two readings of `Apply`: an error of the program leaves the state. -/
theorem run_applyInPlace (index : Nat) (cmd : CommitTxnCommand) (f : FSM) :
    (applyInPlace index cmd).run f =
      match f.apply index cmd with
      | .ok (f', outcome) => .ok outcome f'
      | .error e => .error e f := by
  rw [apply, applyInPlace, EStateM.run_bind, EStateM.run_get]
  dsimp only
  cases f.precheck cmd with
  | ok outcome => rfl
  | error e =>
    cases e with
    | requestIDUnknown =>
      simp only [EStateM.run_bind, run_decideInPlace]
      cases f.decision index cmd with
      | error e => rfl
      | ok d => rfl
    | requestIDPayloadMismatch | requestIDConflict | store => rfl

/-! ## What has been recorded -/

structure Keeps (f f' : FSM) : Prop where
  outcomes : f.outcomes.Extends f'.outcomes
  controlOutcomes : f.controlOutcomes.Extends f'.controlOutcomes
  membershipOutcomes : f.membershipOutcomes.Extends f'.membershipOutcomes

theorem Keeps.refl (f : FSM) : f.Keeps f := ⟨.refl _, .refl _, .refl _⟩

theorem Keeps.trans {f g h : FSM} (hfg : f.Keeps g) (hgh : g.Keeps h) : f.Keeps h where
  outcomes := hfg.outcomes.trans hgh.outcomes
  controlOutcomes := hfg.controlOutcomes.trans hgh.controlOutcomes
  membershipOutcomes := hfg.membershipOutcomes.trans hgh.membershipOutcomes

theorem next_of_recorded {f : FSM} {cmd : CommitTxnCommand} {entry : OutcomeEntry} (index : Nat)
    (h : f.outcomes.get cmd.requestID = some entry) : f.next (index, .commit cmd) = f := by
  rw [next, applyCommand, apply_of_recorded index h]
  by_cases hfp : entry.fingerprint = fingerprintOf cmd
  · rw [if_pos hfp]
  · rw [if_neg hfp]

theorem keeps_commit (f : FSM) (index : Nat) (cmd : CommitTxnCommand) :
    f.Keeps (f.next (index, .commit cmd)) := by
  cases hget : f.outcomes.get cmd.requestID with
  | some entry =>
    rw [next_of_recorded index hget]
    exact .refl f
  | none =>
    rw [next, applyCommand, apply_of_unknown index hget]
    cases f.decision index cmd with
    | error e => exact .refl f
    | ok d => exact ⟨SortedMap.extends_insert hget _, .refl _, .refl _⟩

theorem keeps_setClusterVersion (f : FSM) (index : Nat) (cmd : SetClusterVersionCommand) :
    f.Keeps (f.applySetClusterVersion index cmd).1 := by
  rw [applySetClusterVersion]
  cases hget : f.controlOutcomes.get cmd.requestID with
  | some outcome => exact .refl f
  | none =>
    dsimp only
    split
    · exact ⟨.refl _, SortedMap.extends_insert hget _, .refl _⟩
    · exact ⟨.refl _, SortedMap.extends_insert hget _, .refl _⟩

theorem keeps_advanceGCWatermark (f : FSM) (index : Nat) (cmd : AdvanceGCWatermarkCommand) :
    f.Keeps (f.applyAdvanceGCWatermark index cmd).1 := by
  cases hget : f.controlOutcomes.get cmd.requestID with
  | some outcome =>
    simp only [applyAdvanceGCWatermark, hget]
    exact .refl f
  | none =>
    obtain ⟨w, store, cursor, passes, _, heq, _⟩ :=
      applyAdvanceGCWatermark_new (n := index) hget
    rw [heq]
    exact ⟨.refl _, SortedMap.extends_insert hget _, .refl _⟩

theorem keeps_membership (f : FSM) (index : Nat) (id : RequestID) (kind : MembershipKind)
    (nodeID address : Bytes) : f.Keeps (f.next (index, .membership id kind nodeID address)) := by
  rw [next, applyCommand, recordMembershipOutcome]
  cases hget : f.membershipOutcomes.get id with
  | none => exact ⟨.refl _, .refl _, SortedMap.extends_insert hget _⟩
  | some e =>
    by_cases hfp : e.fingerprint = membershipFingerprintOf kind nodeID address
    · simp only [hfp, ne_eq, not_true_eq_false, if_false]
      exact .refl f
    · simp only [hfp, ne_eq, not_false_eq_true, if_true]
      exact .refl f

theorem keeps_next (f : FSM) (e : Nat × Command) : f.Keeps (f.next e) := by
  obtain ⟨index, c⟩ := e
  cases c with
  | commit cmd => exact f.keeps_commit index cmd
  | setClusterVersion cmd => exact f.keeps_setClusterVersion index cmd
  | advanceGCWatermark cmd => exact f.keeps_advanceGCWatermark index cmd
  | membership id kind nodeID address => exact f.keeps_membership index id kind nodeID address

theorem keeps_run (f : FSM) (h : List (Nat × Command)) : f.Keeps (f.run h) := by
  induction h generalizing f with
  | nil => exact .refl f
  | cons e h ih => exact (f.keeps_next e).trans (ih (f.next e))

theorem store_applySetClusterVersion (f : FSM) (index : Nat) (cmd : SetClusterVersionCommand) :
    (f.applySetClusterVersion index cmd).1.store = f.store := by
  rw [applySetClusterVersion]
  split
  · rfl
  · split
    · rfl
    · rfl

theorem store_membership (f : FSM) (index : Nat) (id : RequestID) (kind : MembershipKind)
    (nodeID address : Bytes) :
    (f.next (index, .membership id kind nodeID address)).store = f.store := by
  rw [next, applyCommand, recordMembershipOutcome]
  cases f.membershipOutcomes.get id with
  | none => rfl
  | some e =>
    by_cases hfp : e.fingerprint = membershipFingerprintOf kind nodeID address
    · simp only [hfp, ne_eq, not_true_eq_false, if_false]
    · simp only [hfp, ne_eq, not_false_eq_true, if_true]

theorem below_next {f : FSM} {n : Nat} (h : f.store.Below n) (c : Command) :
    (f.next (n, c)).store.Below (n + 1) := by
  have hsame := h.mono (Nat.le_succ n)
  cases c with
  | commit cmd => exact handle_below (e := .commit n cmd) h
  | advanceGCWatermark cmd => exact handle_below (e := .advance n cmd) h
  | setClusterVersion cmd =>
    change (f.applySetClusterVersion n cmd).1.store.Below (n + 1)
    rw [store_applySetClusterVersion]
    exact hsame
  | membership id kind nodeID address =>
    rw [store_membership]
    exact hsame

theorem recorded_of_below {f : FSM} {n : Nat} (h : f.store.Below n) (cmd : CommitTxnCommand) :
    ∃ entry, (f.next (n, .commit cmd)).outcomes.get cmd.requestID = some entry := by
  cases hget : f.outcomes.get cmd.requestID with
  | some entry =>
    rw [next_of_recorded n hget]
    exact ⟨entry, hget⟩
  | none =>
    obtain ⟨store, outcome, hdecision, _⟩ := f.decision_of_below h cmd
    rw [next, applyCommand, apply_of_unknown n hget, hdecision]
    exact ⟨_, SortedMap.get_insert_self ..⟩

end FSM

/-! ## Histories without the repeats -/

/-- `h` without the commits of `seen` and without those that are in `h` before. -/
def dropRepeats (seen : List CommitTxnCommand) : List (Nat × Command) → List (Nat × Command)
  | [] => []
  | (index, .commit cmd) :: h =>
    if cmd ∈ seen then dropRepeats seen h
    else (index, .commit cmd) :: dropRepeats (cmd :: seen) h
  | e :: h => e :: dropRepeats seen h

def FSM.trace (f : FSM) (h : List (Nat × Command)) :
    List ((Nat × Command) × Except ApplyError Outcome) := h.zip (f.results h)

theorem FSM.run_dropRepeats {f : FSM} {n : Nat} {h : List (Nat × Command)}
    {seen : List CommitTxnCommand} (hindex : (h.map (·.1)).Pairwise (· < ·))
    (hn : ∀ e ∈ h, n ≤ e.1) (hbelow : f.store.Below n)
    (hseen : ∀ cmd ∈ seen, ∃ entry, f.outcomes.get cmd.requestID = some entry) :
    f.run (dropRepeats seen h) = f.run h ∧
      (f.trace (dropRepeats seen h)).Sublist (f.trace h) := by
  induction h generalizing f n seen with
  | nil => exact ⟨rfl, .refl _⟩
  | cons e h ih =>
    obtain ⟨index, c⟩ := e
    rw [List.map_cons, List.pairwise_cons] at hindex
    have hlater : ∀ e ∈ h, index + 1 ≤ e.1 := fun e he =>
      hindex.1 e.1 (List.mem_map_of_mem he)
    have hnow := hbelow.mono (hn (index, c) List.mem_cons_self)
    have hkept : ∀ cmd ∈ seen, ∃ entry,
        (f.next (index, c)).outcomes.get cmd.requestID = some entry := fun cmd hcmd =>
      (hseen cmd hcmd).imp fun entry => (f.keeps_next (index, c)).outcomes _ entry
    have hstep : ∀ {seen}, (∀ cmd ∈ seen, ∃ entry,
          (f.next (index, c)).outcomes.get cmd.requestID = some entry) →
        f.run ((index, c) :: dropRepeats seen h) = f.run ((index, c) :: h) ∧
          (f.trace ((index, c) :: dropRepeats seen h)).Sublist (f.trace ((index, c) :: h)) := by
      intro seen hseen
      obtain ⟨hrun, htrace⟩ := ih hindex.2 hlater (FSM.below_next hnow c) hseen
      exact ⟨hrun, htrace.cons_cons _⟩
    cases c with
    | setClusterVersion cmd => exact hstep hkept
    | advanceGCWatermark cmd => exact hstep hkept
    | membership id kind nodeID address => exact hstep hkept
    | commit cmd =>
      rw [dropRepeats]
      by_cases hmem : cmd ∈ seen
      · rw [if_pos hmem]
        -- a repeat: the state is the same before and after it
        obtain ⟨entry, hentry⟩ := hseen cmd hmem
        have hsame := FSM.next_of_recorded index hentry
        obtain ⟨hrun, htrace⟩ := ih hindex.2 hlater (FSM.below_next hnow (.commit cmd)) hkept
        refine ⟨?_, ?_⟩
        · change _ = (f.next (index, .commit cmd)).run h
          rw [← hrun, hsame]
        · change List.Sublist _ (_ :: (f.next (index, .commit cmd)).trace h)
          rw [hsame] at htrace ⊢
          exact htrace.cons _
      · rw [if_neg hmem]
        refine hstep fun cmd' hcmd' => ?_
        rcases List.mem_cons.mp hcmd' with rfl | hold
        · exact FSM.recorded_of_below hnow cmd'
        · exact hkept cmd' hold

/-- A history and the history without its repeats lead to the same state and give the
same answers; what is recorded stays; a call that fails leaves the state as it is. -/
theorem applied_exactly_once :
    (∀ h : List (Nat × Command), (h.map (·.1)).Pairwise (· < ·) →
      (FSM.new .new).run (dropRepeats [] h) = (FSM.new .new).run h ∧
      ((FSM.new .new).trace (dropRepeats [] h)).Sublist ((FSM.new .new).trace h)) ∧
    (∀ (f : FSM) (h : List (Nat × Command)), f.Keeps (f.run h)) ∧
    ∀ (f f' : FSM) (index : Nat) (cmd : CommitTxnCommand) (e : ApplyError),
      (FSM.applyInPlace index cmd).run f = .error e f' → f' = f := by
  refine ⟨fun h hindex => ?_, FSM.keeps_run, fun f f' index cmd e hrun => ?_⟩
  · exact FSM.run_dropRepeats hindex (fun e _ => Nat.zero_le e.1) (Store.below_new 0)
      (fun cmd hcmd => absurd hcmd List.not_mem_nil)
  · rw [FSM.run_applyInPlace] at hrun
    split at hrun
    · cases hrun
    · cases hrun
      rfl

/-- A write that comes again after a later write and after an advance of the watermark
past its snapshot. -/
def repeatedHistory : List (Nat × Command) :=
  let write : CommitTxnCommand := ⟨[7], 1, 0, [⟨[1], some [2]⟩]⟩
  [(1, .commit write), (2, .commit ⟨[8], 2, 1, [⟨[1], some [3]⟩]⟩),
    (3, .advanceGCWatermark ⟨[9], 2, 10, 10⟩), (4, .commit write), (6, .commit write)]

theorem repeatedHistory_exactly_once :
    (repeatedHistory.map (·.1)).Pairwise (· < ·) ∧
    (dropRepeats [] repeatedHistory).map (·.1) = [1, 2, 3] ∧
    (FSM.new .new).run (dropRepeats [] repeatedHistory) = (FSM.new .new).run repeatedHistory :=
  ⟨by decide, by decide, (applied_exactly_once.1 repeatedHistory (by decide)).1⟩

end ChronicleDB.Fsm
