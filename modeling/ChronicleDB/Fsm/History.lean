import ChronicleDB.Fsm.Collect
import ChronicleDB.Fsm.Restore

/-!
# Histories of commands

What the apply path of a node does to its state machine, entry after entry
(`applyCommitted`, `applyControlEntry`, `applyConfigEntry` in
`internal/node`), and what holds of every state that it reaches.
-/

namespace ChronicleDB.Fsm

open Foundation Mvcc SortedMap Store

inductive Command where
  | commit (cmd : CommitTxnCommand)
  | setClusterVersion (cmd : SetClusterVersionCommand)
  | advanceGCWatermark (cmd : AdvanceGCWatermarkCommand)
  | membership (id : RequestID) (kind : MembershipKind) (nodeID address : Bytes)

namespace FSM

def applyCommand (f : FSM) (index : Nat) : Command → Except ApplyError (FSM × Outcome)
  | .commit cmd => f.apply index cmd
  | .setClusterVersion cmd => .ok (f.applySetClusterVersion index cmd)
  | .advanceGCWatermark cmd => .ok (f.applyAdvanceGCWatermark index cmd)
  | .membership id kind nodeID address =>
    f.recordMembershipOutcome id kind nodeID address (.committed id index)

def next (f : FSM) (e : Nat × Command) : FSM :=
  match f.applyCommand e.1 e.2 with
  | .ok (f', _) => f'
  | .error _ => f

def run (f : FSM) (h : List (Nat × Command)) : FSM := h.foldl next f

def results (f : FSM) : List (Nat × Command) → List (Except ApplyError Outcome)
  | [] => []
  | e :: h => (f.applyCommand e.1 e.2).map (·.2) :: results (f.next e) h

end FSM

/-- The commands that the apply path lets through in state `f`. -/
def Command.Admitted (f : FSM) (index : Nat) : Command → Prop
  | .commit _ => True
  | .setClusterVersion cmd =>
    f.clusterGeneration = 0 → (f.applySetClusterVersion index cmd).2.status ≠ .aborted
  | .advanceGCWatermark _ => f.clusterGeneration ≥ 3
  | .membership .. => f.clusterGeneration ≥ 2

def Command.InRange : Command → Prop
  | .advanceGCWatermark cmd => cmd.watermark < 2 ^ 64
  | _ => True

/-- A history from state `f` on: indexes and watermarks are `uint64`s, the indexes
increase from `n` on, and the apply path admits every command. -/
inductive History : FSM → Nat → List (Nat × Command) → Prop
  | nil (f : FSM) (n : Nat) : History f n []
  | cons {f : FSM} {n index : Nat} {c : Command} {h : List (Nat × Command)} (hn : n ≤ index)
      (hindex : index < 2 ^ 64) (hrange : c.InRange) (hadmitted : c.Admitted f index)
      (hrest : History (f.next (index, c)) (index + 1) h) : History f n ((index, c) :: h)

theorem History.left {f : FSM} {n : Nat} {h1 h2 : List (Nat × Command)}
    (h : History f n (h1 ++ h2)) : History f n h1 := by
  induction h1 generalizing f n with
  | nil => exact .nil f n
  | cons e h1 ih =>
    cases h with
    | cons hn hindex hrange hadmitted hrest =>
      exact .cons hn hindex hrange hadmitted (ih hrest)

def nextIndex (n : Nat) (h : List (Nat × Command)) : Nat := h.foldl (fun _ e => e.1 + 1) n

/-! ## What a command keeps -/

theorem OutcomeSound.mono {n n' : Nat} {id : RequestID} {o : Outcome} (h : OutcomeSound n id o)
    (hn : n ≤ n') : OutcomeSound n' id o where
  __ := h
  commitSeq_le := by have := h.commitSeq_le; omega
  conflictLatestSeq_le := by have := h.conflictLatestSeq_le; omega

theorem PlainOutcome.mono {n n' : Nat} {id : RequestID} {o : Outcome} (h : PlainOutcome n id o)
    (hn : n ≤ n') : PlainOutcome n' id o where
  __ := h
  toOutcomeSound := h.toOutcomeSound.mono hn

theorem plainOutcome_committed (id : RequestID) (index : Nat) :
    PlainOutcome (index + 1) id (.committed id index) where
  requestID_eq := rfl
  commitSeq_le := Nat.le_refl _
  conflictLatestSeq_le := Nat.zero_le _
  decodedSeq_eq := rfl
  conflictKey_eq := rfl
  conflictLatestSeq_eq := rfl

theorem plainOutcome_aborted (n : Nat) (id : RequestID) : PlainOutcome n id (.aborted id) where
  requestID_eq := rfl
  commitSeq_le := Nat.zero_le _
  conflictLatestSeq_le := Nat.zero_le _
  decodedSeq_eq := rfl
  conflictKey_eq := rfl
  conflictLatestSeq_eq := rfl

namespace FSM

variable {f : FSM} {n : Nat}

theorem sound_new : (new .new).Sound 0 where
  ordered := ordered_new
  below := below_new 0
  outcome := all_empty _
  controlOutcome := all_empty _
  membershipOutcome := all_empty _
  clusterGeneration_lt := by decide
  gcWatermark_lt := by decide
  gcPasses_lt := by decide
  gcPassSeq_lt := by decide
  copy := rfl

theorem Sound.mono {n' : Nat} (hs : f.Sound n) (hn : n ≤ n') : f.Sound n' where
  __ := hs
  below := hs.below.mono hn
  outcome := hs.outcome.mono fun _ _ h => ⟨h.1.mono hn, h.2⟩
  controlOutcome := hs.controlOutcome.mono fun _ _ h => h.mono hn
  membershipOutcome := hs.membershipOutcome.mono fun _ _ h => ⟨h.1.mono hn, h.2⟩

theorem Sound.decision (hs : f.Sound n) (cmd : CommitTxnCommand) :
    ∃ store outcome, f.decision n cmd = .ok (store, outcome) ∧ store.Ordered ∧
      store.Below (n + 1) ∧ store.gcWatermark = f.store.gcWatermark ∧
      OutcomeSound (n + 1) cmd.requestID outcome := by
  have hsame := hs.below.mono (Nat.le_succ n)
  rw [FSM.decision]
  split
  case isTrue =>
    exact ⟨_, _, rfl, hs.ordered, hsame, rfl, rfl, Nat.zero_le _, Nat.zero_le _, rfl⟩
  case isFalse =>
    cases hconflict : f.store.checkConflicts cmd.startSeq cmd.mutations with
    | some conflict =>
      have hlt := hs.below.latest_lt (latest_of_checkConflicts hconflict).1
      exact ⟨_, _, rfl, hs.ordered, hsame, rfl, rfl, Nat.zero_le _, Nat.le_of_lt hlt, rfl⟩
    | none =>
      have happly := applyCommit_of_below hs.below cmd.mutations
      simp only [happly]
      exact ⟨_, _, rfl, hs.ordered.applyCommit happly, hs.below.foldl_push cmd.mutations,
        gcWatermark_foldl_push .., rfl, Nat.le_refl _, Nat.zero_le _, rfl⟩

theorem Sound.record (hs : f.Sound n) (cmd : CommitTxnCommand) {store : Store} {o : Outcome}
    (hordered : store.Ordered) (hbelow : store.Below (n + 1))
    (hmark : store.gcWatermark = f.store.gcWatermark)
    (ho : OutcomeSound (n + 1) cmd.requestID o) : (f.record cmd store o).Sound (n + 1) where
  __ := hs.mono (Nat.le_succ n)
  ordered := hordered
  below := hbelow
  outcome := (hs.mono (Nat.le_succ n)).outcome.insert ⟨ho, length_sum256 _⟩
  copy := hmark.trans hs.copy

theorem Sound.apply (hs : f.Sound n) (cmd : CommitTxnCommand) :
    (f.next (n, .commit cmd) = f) ∨
    ∃ store o, f.next (n, .commit cmd) = f.record cmd store o ∧
      (f.record cmd store o).Sound (n + 1) := by
  cases hget : f.outcomes.get cmd.requestID with
  | some entry =>
    refine .inl ?_
    rw [next, applyCommand, apply_of_recorded n hget]
    by_cases hfp : entry.fingerprint = fingerprintOf cmd
    · rw [if_pos hfp]
    · rw [if_neg hfp]
  | none =>
    obtain ⟨store, o, hdecision, hordered, hbelow, hmark, ho⟩ := hs.decision cmd
    refine .inr ⟨store, o, ?_, hs.record cmd hordered hbelow hmark ho⟩
    simp only [next, applyCommand, apply_of_unknown n hget, hdecision]
    rfl

theorem Sound.setClusterVersion (hs : f.Sound n) (cmd : SetClusterVersionCommand) :
    (f.applySetClusterVersion n cmd).1.Sound (n + 1) := by
  have hmono := hs.mono (Nat.le_succ n)
  rw [applySetClusterVersion]
  split
  · exact hmono
  · split
    case isTrue =>
      exact { hmono with
        controlOutcome := hmono.controlOutcome.insert (plainOutcome_aborted _ _) }
    case isFalse h =>
      refine { hmono with
        controlOutcome := hmono.controlOutcome.insert (plainOutcome_committed _ _)
        clusterGeneration_lt := ?_ }
      rw [Decidable.not_not.mp h]
      exact Nat.mod_lt _ (by decide)

theorem applyAdvanceGCWatermark_new {cmd : AdvanceGCWatermarkCommand}
    (hget : f.controlOutcomes.get cmd.requestID = none) :
    ∃ w store cursor passes, (w = cmd.watermark ∨ w = f.gcWatermark) ∧
      (f.applyAdvanceGCWatermark n cmd).1 = { f with
        gcWatermark := w, store := store, gcCursor := cursor, gcPasses := passes
        gcPassSeq := (f.gcPassSeq + 1) % 2 ^ 64
        controlOutcomes := f.controlOutcomes.insert cmd.requestID
          (.committed cmd.requestID n) } ∧
      (f.store.Ordered → store.Ordered) ∧ (f.gcPasses < 2 ^ 64 → passes < 2 ^ 64) := by
  obtain ⟨w, hw⟩ : ∃ w, (if cmd.watermark > f.gcWatermark then cmd.watermark
      else f.gcWatermark) = w := ⟨_, rfl⟩
  obtain ⟨store, cursor, passes, hcollect, _, _, hordered, hpasses⟩ :=
    collect_eq { f with gcWatermark := w } w cmd.maxVersions cmd.maxKeys
  refine ⟨w, store.setGCWatermark w, cursor, passes, ?_, ?_, fun h key => ?_, hpasses⟩
  · rw [← hw]
    split
    · exact .inl rfl
    · exact .inr rfl
  · simp only [applyAdvanceGCWatermark, hget, hw, hcollect]
  · rw [chain_setGCWatermark]
    exact hordered h key

theorem Sound.advanceGCWatermark (hs : f.Sound n) {cmd : AdvanceGCWatermarkCommand}
    (hw : cmd.watermark < 2 ^ 64) : (f.applyAdvanceGCWatermark n cmd).1.Sound (n + 1) := by
  have hmono := hs.mono (Nat.le_succ n)
  have hadv := f.applyAdvanceGCWatermark_advanced n cmd
  have hbelow := (hadv.collected f.store (.refl _ _)).below hmono.below
  cases hget : f.controlOutcomes.get cmd.requestID with
  | some outcome =>
    simp only [applyAdvanceGCWatermark, hget]
    exact hmono
  | none =>
    obtain ⟨w, store, cursor, passes, hw', heq, hordered, hpasses⟩ :=
      applyAdvanceGCWatermark_new (n := n) hget
    have hcopy := hadv.copy hs.copy
    rw [heq] at hbelow hcopy ⊢
    exact { hmono with
      ordered := hordered hs.ordered, below := hbelow, copy := hcopy
      controlOutcome := hmono.controlOutcome.insert (plainOutcome_committed _ _)
      gcWatermark_lt := by
        rcases hw' with rfl | rfl
        · exact hw
        · exact hs.gcWatermark_lt
      gcPasses_lt := hpasses hs.gcPasses_lt
      gcPassSeq_lt := Nat.mod_lt _ (by decide) }

theorem Sound.membership (hs : f.Sound n) (id : RequestID) (kind : MembershipKind)
    (nodeID address : Bytes) : (f.next (n, .membership id kind nodeID address)).Sound (n + 1) := by
  have hmono := hs.mono (Nat.le_succ n)
  rw [next, applyCommand, recordMembershipOutcome]
  cases f.membershipOutcomes.get id with
  | some e =>
    simp only
    split
    case h_1 f' _ h =>
      split at h
      · cases h
      · cases h
        exact hmono
    case h_2 => exact hmono
  | none =>
    exact { hmono with
      membershipOutcome := hmono.membershipOutcome.insert
        ⟨plainOutcome_committed _ _, length_sum256 _⟩ }

theorem Sound.next (hs : f.Sound n) {c : Command} (hrange : c.InRange) :
    (f.next (n, c)).Sound (n + 1) := by
  cases c with
  | commit cmd =>
    rcases hs.apply cmd with heq | ⟨store, o, heq, hsound⟩
    · rw [heq]
      exact hs.mono (Nat.le_succ n)
    · rw [heq]
      exact hsound
  | setClusterVersion cmd => exact hs.setClusterVersion cmd
  | advanceGCWatermark cmd => exact hs.advanceGCWatermark hrange
  | membership id kind nodeID address => exact hs.membership id kind nodeID address

/-! ## What is written at which generation

Each step of the generation records a control outcome, so the generation does not
wrap as long as their number fits its field. -/

structure Counted (f : FSM) : Prop where
  generation_le : f.clusterGeneration ≤ f.controlOutcomes.entries.length
  gated : f.controlOutcomes.entries.length < 2 ^ 32 → f.Gated

theorem counted_new : (new .new).Counted where
  generation_le := Nat.le_refl 0
  gated _ := ⟨fun _ => rfl, fun _ => rfl, fun _ => ⟨rfl, rfl, rfl, rfl⟩⟩

theorem Counted.setClusterVersion (hc : f.Counted) {cmd : SetClusterVersionCommand}
    (hadmitted : (Command.setClusterVersion cmd).Admitted f n) :
    (f.applySetClusterVersion n cmd).1.Counted := by
  rw [Command.Admitted] at hadmitted
  rw [applySetClusterVersion] at hadmitted ⊢
  cases hget : f.controlOutcomes.get cmd.requestID with
  | some outcome => exact hc
  | none =>
    simp only [hget] at hadmitted ⊢
    have hlen := fun o => length_insert_of_get_none hget o
    split at hadmitted
    case isTrue h =>
      rw [if_pos h]
      have hpos : f.clusterGeneration ≠ 0 := fun h0 => hadmitted h0 rfl
      refine ⟨?_, fun hlt => ?_⟩
      · rw [hlen]
        exact Nat.le_succ_of_le hc.generation_le
      · rw [hlen] at hlt
        have hg := hc.gated (by omega)
        exact ⟨fun h0 => absurd h0 hpos, hg.membership, hg.gc⟩
    case isFalse h =>
      rw [if_neg h]
      have htarget : cmd.targetGeneration = (f.clusterGeneration + 1) % 2 ^ 32 :=
        Decidable.not_not.mp h
      have hle := hc.generation_le
      refine ⟨?_, fun hlt => ?_⟩
      · rw [hlen]
        have := Nat.mod_le (f.clusterGeneration + 1) (2 ^ 32)
        simp only [htarget]
        omega
      · rw [hlen] at hlt
        have hg := hc.gated (by omega)
        have hsucc : cmd.targetGeneration = f.clusterGeneration + 1 := by
          rw [htarget, Nat.mod_eq_of_lt (by omega)]
        refine ⟨fun h0 => ?_, fun h2 => hg.membership ?_, fun h3 => hg.gc ?_⟩
        · simp only at h0
          omega
        · simp only at h2
          omega
        · simp only at h3
          omega

theorem Counted.advanceGCWatermark (hc : f.Counted) (cmd : AdvanceGCWatermarkCommand)
    (hgen : f.clusterGeneration ≥ 3) : (f.applyAdvanceGCWatermark n cmd).1.Counted := by
  cases hget : f.controlOutcomes.get cmd.requestID with
  | some outcome =>
    simp only [applyAdvanceGCWatermark, hget]
    exact hc
  | none =>
    obtain ⟨w, store, cursor, passes, _, heq, _⟩ := applyAdvanceGCWatermark_new (n := n) hget
    rw [heq]
    refine ⟨?_, fun _ => ⟨fun h => ?_, fun h => ?_, fun h => ?_⟩⟩
    · rw [length_insert_of_get_none hget]
      exact Nat.le_succ_of_le hc.generation_le
    all_goals
      simp only at h
      omega

theorem Counted.membership (hc : f.Counted) (id : RequestID) (kind : MembershipKind)
    (nodeID address : Bytes) (hgen : f.clusterGeneration ≥ 2) :
    (f.next (n, .membership id kind nodeID address)).Counted := by
  rw [FSM.next, applyCommand, recordMembershipOutcome]
  cases f.membershipOutcomes.get id with
  | some e =>
    simp only
    split
    case h_1 f' _ h =>
      split at h
      · cases h
      · cases h
        exact hc
    case h_2 => exact hc
  | none =>
    refine ⟨hc.generation_le, fun hlt => ?_⟩
    exact { hc.gated hlt with membership := fun h => absurd hgen (Nat.not_le.mpr h) }

theorem Counted.next (hs : f.Sound n) (hc : f.Counted) {c : Command}
    (hadmitted : c.Admitted f n) : (f.next (n, c)).Counted := by
  cases c with
  | commit cmd =>
    rcases hs.apply cmd with heq | ⟨store, o, heq, _⟩
    · rw [heq]
      exact hc
    · rw [heq]
      exact ⟨hc.generation_le, fun hlt =>
        ⟨(hc.gated hlt).control, (hc.gated hlt).membership, (hc.gated hlt).gc⟩⟩
  | setClusterVersion cmd => exact hc.setClusterVersion hadmitted
  | advanceGCWatermark cmd => exact hc.advanceGCWatermark cmd hadmitted
  | membership id kind nodeID address => exact hc.membership id kind nodeID address hadmitted

/-! ## Runs -/

theorem run_append (f : FSM) (h1 h2 : List (Nat × Command)) :
    f.run (h1 ++ h2) = (f.run h1).run h2 := List.foldl_append

theorem results_append (f : FSM) (h1 h2 : List (Nat × Command)) :
    f.results (h1 ++ h2) = f.results h1 ++ (f.run h1).results h2 := by
  induction h1 generalizing f with
  | nil => rfl
  | cons e h1 ih => rw [List.cons_append, results, results, ih]; rfl

theorem run_invariant {h : List (Nat × Command)} (hh : History f n h) (hs : f.Sound n)
    (hc : f.Counted) (hn : n ≤ 2 ^ 64) :
    (f.run h).Sound (nextIndex n h) ∧ (f.run h).Counted ∧ nextIndex n h ≤ 2 ^ 64 := by
  induction hh with
  | nil f n => exact ⟨hs, hc, hn⟩
  | cons hle hindex hrange hadmitted _ ih =>
    have hs' := hs.mono hle
    exact ih (hs'.next hrange) (hc.next hs' hadmitted) hindex

end FSM

end ChronicleDB.Fsm
