import ChronicleDB.Fsm.Machine
import ChronicleDB.Mvcc.Collection
import Mathlib.Data.List.Induction

/-!
# Collection is unobservable above the watermark

The state machine runs beside a reference that never collects and is fed only
the commits whose snapshot is not below the watermark in force.
-/

namespace ChronicleDB.Fsm

open Foundation Mvcc List SortedMap FSM

variable {cmd : CommitTxnCommand} {i : Nat}

namespace FSM

/-! ## Deciding a commit -/

theorem decision_collected {f r : FSM} (index : Nat)
    (hstore : Collected f.gcWatermark f.store r.store) (href : r.gcWatermark = 0)
    (hseq : f.gcWatermark ≤ cmd.startSeq) :
    (∃ e, f.decision index cmd = .error e ∧ r.decision index cmd = .error e) ∨
    ∃ s full outcome, f.decision index cmd = .ok (s, outcome) ∧
      r.decision index cmd = .ok (full, outcome) ∧ Collected f.gcWatermark s full ∧
      s.gcWatermark = f.store.gcWatermark ∧ full.gcWatermark = r.store.gcWatermark := by
  have hf : ¬cmd.startSeq < f.gcWatermark := Nat.not_lt.mpr hseq
  have hr : ¬cmd.startSeq < r.gcWatermark := by omega
  simp only [decision, if_neg hf, if_neg hr, ← hstore.checkConflicts_eq]
  cases f.store.checkConflicts cmd.startSeq cmd.mutations with
  | some conflict => exact .inr ⟨_, _, _, rfl, rfl, hstore, rfl, rfl⟩
  | none =>
    simp only [Store.applyCommit, ← hstore.checkMonotonic_eq]
    cases f.store.checkMonotonic index cmd.mutations with
    | error e => exact .inl ⟨_, rfl, rfl⟩
    | ok _ =>
      exact .inr ⟨_, _, _, rfl, rfl, hstore.foldl_push index cmd.mutations,
        Store.gcWatermark_foldl_push .., Store.gcWatermark_foldl_push ..⟩

/-! ## Advancing the watermark -/

theorem walk_collected {w : Nat} {full : Store} (maxVersions : Nat) (keys : List Bytes)
    {acc : Walk} (h : Collected w acc.store full) :
    Collected w (walk w maxVersions acc keys).store full := by
  induction keys generalizing acc with
  | nil => exact h
  | cons k ks ih =>
    rw [walk]
    split
    · exact h
    · exact ih (h.reclaimKey k _)

@[simp] theorem gcWatermark_walk (w maxVersions : Nat) (acc : Walk) (keys : List Bytes) :
    (walk w maxVersions acc keys).store.gcWatermark = acc.store.gcWatermark := by
  induction keys generalizing acc with
  | nil => rfl
  | cons k ks ih =>
    rw [walk]
    split
    · rfl
    · rw [ih, Store.gcWatermark_reclaimKey]

theorem walk_ordered (w maxVersions : Nat) (keys : List Bytes) {acc : Walk}
    (h : acc.store.Ordered) : (walk w maxVersions acc keys).store.Ordered := by
  induction keys generalizing acc with
  | nil => exact h
  | cons k ks ih =>
    rw [walk]
    split
    · exact h
    · exact ih (h.reclaimKey k _ _)

theorem collect_eq (f : FSM) (w maxVersions maxKeys : Nat) :
    ∃ store cursor passes,
      f.collect w maxVersions maxKeys =
        { f with store := store, gcCursor := cursor, gcPasses := passes } ∧
      store.gcWatermark = f.store.gcWatermark ∧
      (∀ full, Collected w f.store full → Collected w store full) ∧
      (f.store.Ordered → store.Ordered) ∧ (f.gcPasses < 2 ^ 64 → passes < 2 ^ 64) := by
  rw [collect]
  split
  case isFalse =>
    exact ⟨f.store, f.gcCursor, f.gcPasses, rfl, rfl, fun _ h => h, fun h => h, fun h => h⟩
  case isTrue =>
    have hkeep := fun full (h : Collected w f.store full) =>
      walk_collected maxVersions (f.store.keysFrom f.gcCursor maxKeys)
        (show Collected w (⟨f.store, 0, [], false⟩ : Walk).store full from h)
    have hordered := fun (h : f.store.Ordered) =>
      walk_ordered w maxVersions (f.store.keysFrom f.gcCursor maxKeys)
        (show (⟨f.store, 0, [], false⟩ : Walk).store.Ordered from h)
    simp only
    split
    · exact ⟨_, _, _, rfl, gcWatermark_walk .., hkeep, hordered, fun _ => Nat.mod_lt _ (by decide)⟩
    · split
      · exact ⟨_, _, _, rfl, gcWatermark_walk .., hkeep, hordered, fun h => h⟩
      · exact ⟨_, _, _, rfl, gcWatermark_walk .., hkeep, hordered, fun h => h⟩

structure Advanced (f f' : FSM) : Prop where
  outcomes : f'.outcomes = f.outcomes
  watermark_le : f.gcWatermark ≤ f'.gcWatermark
  copy : f.store.gcWatermark = f.gcWatermark → f'.store.gcWatermark = f'.gcWatermark
  collected : ∀ full, Collected f.gcWatermark f.store full →
    Collected f'.gcWatermark f'.store full

theorem applyAdvanceGCWatermark_advanced (f : FSM) (index : Nat)
    (cmd : AdvanceGCWatermarkCommand) :
    Advanced f (f.applyAdvanceGCWatermark index cmd).1 := by
  rw [applyAdvanceGCWatermark]
  cases f.controlOutcomes.get cmd.requestID with
  | some outcome => exact ⟨rfl, Nat.le_refl _, id, fun _ h => h⟩
  | none =>
    simp only
    generalize hw : (if cmd.watermark > f.gcWatermark then cmd.watermark
      else f.gcWatermark) = w
    have hle : f.gcWatermark ≤ w := by
      rw [← hw]
      split
      case isTrue h => exact Nat.le_of_lt h
      case isFalse => exact Nat.le_refl _
    obtain ⟨store, cursor, passes, hcollect, hmark, hkeep, _⟩ :=
      collect_eq { f with gcWatermark := w } w cmd.maxVersions cmd.maxKeys
    rw [hcollect]
    refine ⟨rfl, hle, fun hcopy => ?_, fun full h => ?_⟩
    · rw [Store.gcWatermark_setGCWatermark, hmark]
      change max f.store.gcWatermark w = w
      rw [hcopy]
      exact Nat.max_eq_right hle
    · exact (hkeep full (h.mono hle)).setGCWatermark w

end FSM

/-! ## The state machine and its reference -/

inductive Event where
  | commit (index : Nat) (cmd : CommitTxnCommand)
  | advance (index : Nat) (cmd : AdvanceGCWatermarkCommand)

def Event.index : Event → Nat
  | .commit index _ => index
  | .advance index _ => index

/-- The state after an event; a refused commit leaves it as it was. -/
def FSM.handle (f : FSM) : Event → FSM
  | .commit index cmd =>
    match f.apply index cmd with
    | .ok (f', _) => f'
    | .error _ => f
  | .advance index cmd => (f.applyAdvanceGCWatermark index cmd).1

/-- The reference is an FSM to which no advance is ever given. -/
structure Twin where
  fsm : FSM
  reference : FSM

namespace Twin

def start : Twin := ⟨.new .new, .new .new⟩

def step (t : Twin) (e : Event) : Twin where
  fsm := t.fsm.handle e
  reference :=
    match e with
    | .commit _ cmd =>
      if cmd.startSeq < t.fsm.gcWatermark then t.reference else t.reference.handle e
    | .advance _ _ => t.reference

def run (h : List Event) : Twin := h.foldl step start

theorem run_append_singleton (h : List Event) (e : Event) :
    run (h ++ [e]) = (run h).step e := by
  rw [run, foldl_append]
  rfl

end Twin

/-- A RequestID is repeated only with identical contents. -/
def ConsistentIDs (h : List Event) : Prop :=
  ∀ i cmd j cmd', .commit i cmd ∈ h → .commit j cmd' ∈ h →
    cmd.requestID = cmd'.requestID → cmd = cmd'

theorem ConsistentIDs.left {h more : List Event} (hids : ConsistentIDs (h ++ more)) :
    ConsistentIDs h := fun i cmd j cmd' hmem hmem' =>
  hids i cmd j cmd' (mem_append_left _ hmem) (mem_append_left _ hmem')

structure Agree (h : List Event) (t : Twin) : Prop where
  store : Collected t.fsm.gcWatermark t.fsm.store t.reference.store
  copy : t.fsm.store.gcWatermark = t.fsm.gcWatermark
  watermark_zero : t.reference.gcWatermark = 0
  copy_zero : t.reference.store.gcWatermark = 0
  known : ∀ id entry, t.reference.outcomes.get id = some entry →
    t.fsm.outcomes.get id = some entry
  /-- An outcome that the reference lacks is that of a commit it was not given. -/
  recorded : ∀ id entry, t.fsm.outcomes.get id = some entry → ∃ i cmd, .commit i cmd ∈ h ∧
    cmd.requestID = id ∧ entry.fingerprint = fingerprintOf cmd ∧
    (t.reference.outcomes.get id = some entry ∨ cmd.startSeq < t.fsm.gcWatermark)

namespace Agree

variable {h : List Event} {t : Twin}

theorem start : Agree [] Twin.start where
  store := .refl 0 _
  copy := rfl
  watermark_zero := rfl
  copy_zero := rfl
  known id entry hget := by simp [Twin.start, new] at hget
  recorded id entry hget := by simp [Twin.start, new] at hget

theorem weaken (ha : Agree h t) (e : Event) : Agree (h ++ [e]) t where
  __ := ha
  recorded id entry hget := by
    obtain ⟨i, cmd, hmem, hrest⟩ := ha.recorded id entry hget
    exact ⟨i, cmd, mem_append_left _ hmem, hrest⟩

theorem fingerprint_eq (ha : Agree h t)
    (hids : ConsistentIDs (h ++ [.commit i cmd])) {entry : OutcomeEntry}
    (hget : t.fsm.outcomes.get cmd.requestID = some entry) :
    entry.fingerprint = fingerprintOf cmd ∧
      (t.reference.outcomes.get cmd.requestID = some entry ∨
        cmd.startSeq < t.fsm.gcWatermark) := by
  obtain ⟨j, cmd', hmem, hid, hfp, hor⟩ := ha.recorded _ _ hget
  obtain rfl : cmd' = cmd := hids j cmd' i cmd (mem_append_left _ hmem)
    (mem_append_right _ (mem_singleton_self _)) hid
  exact ⟨hfp, hor⟩

theorem unknown (ha : Agree h t) {id : RequestID} (hget : t.fsm.outcomes.get id = none) :
    t.reference.outcomes.get id = none := by
  cases href : t.reference.outcomes.get id with
  | none => rfl
  | some entry => rw [ha.known id entry href] at hget; cases hget

theorem apply_stale (ha : Agree h t)
    (hids : ConsistentIDs (h ++ [.commit i cmd])) (hseq : cmd.startSeq < t.fsm.gcWatermark) :
    t.fsm.apply i cmd =
      match t.fsm.getOutcome cmd.requestID with
      | some outcome => .ok (t.fsm, outcome)
      | none =>
        let outcome := .abortedStale cmd.requestID
        .ok (t.fsm.record cmd t.fsm.store outcome, outcome) := by
  rw [getOutcome]
  cases hget : t.fsm.outcomes.get cmd.requestID with
  | some entry => exact apply_of_known i hget (ha.fingerprint_eq hids hget).1
  | none => rw [apply_of_unknown i hget, decision_stale i hseq]; rfl

theorem apply_fresh (ha : Agree h t)
    (hids : ConsistentIDs (h ++ [.commit i cmd])) (hseq : t.fsm.gcWatermark ≤ cmd.startSeq) :
    (∃ outcome, t.fsm.apply i cmd = .ok (t.fsm, outcome) ∧
      t.reference.apply i cmd = .ok (t.reference, outcome)) ∨
    (∃ e, t.fsm.apply i cmd = .error e ∧ t.reference.apply i cmd = .error e) ∨
    ∃ s full outcome, t.fsm.outcomes.get cmd.requestID = none ∧
      t.fsm.apply i cmd = .ok (t.fsm.record cmd s outcome, outcome) ∧
      t.reference.apply i cmd = .ok (t.reference.record cmd full outcome, outcome) ∧
      Collected t.fsm.gcWatermark s full ∧ s.gcWatermark = t.fsm.store.gcWatermark ∧
      full.gcWatermark = t.reference.store.gcWatermark := by
  cases hget : t.fsm.outcomes.get cmd.requestID with
  | some entry =>
    obtain ⟨hfp, hor⟩ := ha.fingerprint_eq hids hget
    have href := hor.resolve_right (Nat.not_lt.mpr hseq)
    exact .inl ⟨_, apply_of_known i hget hfp, apply_of_known i href hfp⟩
  | none =>
    rw [apply_of_unknown i hget, apply_of_unknown i (ha.unknown hget)]
    rcases decision_collected i ha.store ha.watermark_zero hseq with
      ⟨e, hf, hr⟩ | ⟨s, full, outcome, hf, hr, hrest⟩
    · exact .inr (.inl ⟨e, by rw [hf]; rfl, by rw [hr]; rfl⟩)
    · exact .inr (.inr ⟨s, full, outcome, rfl, by rw [hf]; rfl, by rw [hr]; rfl, hrest⟩)

theorem record_stale (ha : Agree h t) (hget : t.fsm.outcomes.get cmd.requestID = none)
    (hseq : cmd.startSeq < t.fsm.gcWatermark) (outcome : Outcome) :
    Agree (h ++ [.commit i cmd])
      ⟨t.fsm.record cmd t.fsm.store outcome, t.reference⟩ where
  store := ha.store
  copy := ha.copy
  watermark_zero := ha.watermark_zero
  copy_zero := ha.copy_zero
  known id entry href := by
    have hne : id ≠ cmd.requestID := by
      rintro rfl
      rw [ha.unknown hget] at href
      cases href
    exact (get_insert_of_ne _ _ hne).trans (ha.known id entry href)
  recorded id entry hrec := by
    replace hrec : (t.fsm.outcomes.insert cmd.requestID _).get id = some entry := hrec
    rw [get_insert] at hrec
    split at hrec
    case isTrue hid =>
      obtain rfl := Option.some.inj hrec
      exact ⟨i, cmd, by simp, hid.symm, rfl, .inr hseq⟩
    case isFalse => exact (ha.weaken _).recorded id entry hrec

theorem record_fresh (ha : Agree h t) {s full : Store}
    (outcome : Outcome) (hstore : Collected t.fsm.gcWatermark s full)
    (hs : s.gcWatermark = t.fsm.store.gcWatermark)
    (hfull : full.gcWatermark = t.reference.store.gcWatermark) :
    Agree (h ++ [.commit i cmd])
      ⟨t.fsm.record cmd s outcome, t.reference.record cmd full outcome⟩ where
  store := hstore
  copy := hs.trans ha.copy
  watermark_zero := ha.watermark_zero
  copy_zero := hfull.trans ha.copy_zero
  known id entry href := by
    replace href : (t.reference.outcomes.insert cmd.requestID _).get id = some entry := href
    change (t.fsm.outcomes.insert cmd.requestID _).get id = some entry
    rw [get_insert] at href ⊢
    split
    case isTrue hid => rwa [if_pos hid] at href
    case isFalse hid => exact ha.known id entry (by rwa [if_neg hid] at href)
  recorded id entry hrec := by
    replace hrec : (t.fsm.outcomes.insert cmd.requestID _).get id = some entry := hrec
    change ∃ j cmd', _ ∧ _ ∧ _ ∧
      ((t.reference.outcomes.insert cmd.requestID _).get id = some entry ∨ _)
    rw [get_insert] at hrec ⊢
    split at hrec
    case isTrue hid =>
      refine ⟨i, cmd, by simp, hid.symm, ?_, .inl (by rw [if_pos hid, hrec])⟩
      rw [← Option.some.inj hrec]
    case isFalse hid =>
      simp only [if_neg hid]
      exact (ha.weaken _).recorded id entry hrec

theorem step (ha : Agree h t) {e : Event} (hids : ConsistentIDs (h ++ [e])) :
    Agree (h ++ [e]) (t.step e) := by
  cases e with
  | advance i cmd =>
    have hadv := t.fsm.applyAdvanceGCWatermark_advanced i cmd
    refine ⟨hadv.collected _ ha.store, hadv.copy ha.copy, ha.watermark_zero, ha.copy_zero,
      fun id entry href => ?_, fun id entry hrec => ?_⟩
    · exact (congrArg (·.get id) hadv.outcomes).trans (ha.known id entry href)
    · obtain ⟨j, cmd', hmem, hid, hfp, hor⟩ := (ha.weaken (.advance i cmd)).recorded id entry
        ((congrArg (·.get id) hadv.outcomes).symm.trans hrec)
      exact ⟨j, cmd', hmem, hid, hfp,
        hor.imp_right fun hlt => Nat.lt_of_lt_of_le hlt hadv.watermark_le⟩
  | commit i cmd =>
    by_cases hseq : cmd.startSeq < t.fsm.gcWatermark
    · simp only [Twin.step, handle, if_pos hseq, ha.apply_stale hids hseq, getOutcome]
      cases hget : t.fsm.outcomes.get cmd.requestID with
      | some entry => exact ha.weaken _
      | none => exact ha.record_stale hget hseq _
    · simp only [Twin.step, handle, if_neg hseq]
      rcases ha.apply_fresh hids (Nat.not_lt.mp hseq) with
        ⟨outcome, hf, hr⟩ | ⟨e, hf, hr⟩ | ⟨s, full, outcome, _, hf, hr, hstore, hs, hfull⟩
      · rw [hf, hr]; exact ha.weaken _
      · rw [hf, hr]; exact ha.weaken _
      · rw [hf, hr]; exact ha.record_fresh outcome hstore hs hfull

end Agree

theorem agree_run {h : List Event} (hids : ConsistentIDs h) : Agree h (Twin.run h) := by
  induction h using reverseRecOn with
  | nil => exact .start
  | append_singleton h e ih =>
    rw [Twin.run_append_singleton]
    exact (ih hids.left).step hids

theorem FSM.gcWatermark_le_handle (f : FSM) (e : Event) :
    f.gcWatermark ≤ (f.handle e).gcWatermark := by
  cases e with
  | advance i cmd => exact (f.applyAdvanceGCWatermark_advanced i cmd).watermark_le
  | commit i cmd =>
    rw [handle]
    split
    case h_2 => exact Nat.le_refl _
    case h_1 f' outcome happly =>
      rw [apply] at happly
      split at happly
      · cases happly
        exact Nat.le_refl _
      · split at happly
        · cases happly
        · cases happly
          exact Nat.le_refl _
      · cases happly

theorem FSM.handle_below {f : FSM} {e : Event} (h : f.store.Below e.index) :
    (f.handle e).store.Below (e.index + 1) := by
  have hsame := h.mono (Nat.le_succ e.index)
  cases e with
  | advance i cmd =>
    exact ((f.applyAdvanceGCWatermark_advanced i cmd).collected f.store (.refl _ _)).below hsame
  | commit i cmd =>
    rw [handle, apply]
    cases f.precheck cmd with
    | ok outcome => exact hsame
    | error e =>
      cases e with
      | requestIDUnknown =>
        obtain ⟨store, outcome, hdecision, hbelow⟩ := f.decision_of_below h cmd
        rw [show Event.index (.commit i cmd) = i from rfl] at hdecision
        simp only [hdecision]
        exact hbelow
      | requestIDPayloadMismatch | requestIDConflict | store => exact hsame

theorem Twin.below_run {h : List Event} (hindex : (h.map Event.index).Pairwise (· < ·)) {n : Nat}
    (hn : ∀ e ∈ h, e.index < n) : (run h).fsm.store.Below n := by
  induction h using reverseRecOn generalizing n with
  | nil => exact Store.below_new n
  | append_singleton h e ih =>
    rw [map_append, pairwise_append] at hindex
    have hpast : ∀ e' ∈ h, e'.index < e.index := fun e' he' =>
      hindex.2.2 _ (mem_map_of_mem he') _ (mem_singleton_self _)
    rw [run_append_singleton]
    exact (handle_below (ih hindex.1 hpast)).mono (hn e (by simp))

theorem Twin.gcWatermark_le_run (h more : List Event) :
    (run h).fsm.gcWatermark ≤ (run (h ++ more)).fsm.gcWatermark := by
  induction more using reverseRecOn with
  | nil => rw [append_nil]
  | append_singleton more e ih =>
    rw [← append_assoc, run_append_singleton]
    exact Nat.le_trans ih (gcWatermark_le_handle _ e)

theorem collection_unobservable (pre post : List Event) (hids : ConsistentIDs (pre ++ post)) :
    (∀ i cmd rest, post = .commit i cmd :: rest →
      ((Twin.run pre).fsm.gcWatermark ≤ cmd.startSeq →
        ((Twin.run pre).fsm.apply i cmd).map Prod.snd =
          ((Twin.run pre).reference.apply i cmd).map Prod.snd) ∧
      (((pre ++ post).map Event.index).Pairwise (· < ·) →
        ((Twin.run pre).fsm.apply i cmd).isOk = true) ∧
      (cmd.startSeq < (Twin.run pre).fsm.gcWatermark →
        (Twin.run pre).fsm.apply i cmd =
          match (Twin.run pre).fsm.getOutcome cmd.requestID with
          | some outcome => .ok ((Twin.run pre).fsm, outcome)
          | none =>
            let outcome := .abortedStale cmd.requestID
            .ok ((Twin.run pre).fsm.record cmd (Twin.run pre).fsm.store outcome, outcome))) ∧
    (∀ startSeq,
      ((Twin.run pre).fsm.gcWatermark ≤ startSeq →
        (∀ key, (Twin.run pre).fsm.store.visible key startSeq =
          (Twin.run pre).reference.store.visible key startSeq) ∧
        ∀ stem, (Twin.run pre).fsm.store.scanVisible stem startSeq =
          (Twin.run pre).reference.store.scanVisible stem startSeq) ∧
      (startSeq < (Twin.run pre).fsm.gcWatermark →
        (∀ key, (Twin.run pre).fsm.store.visible key startSeq = .error .snapshotTooOld) ∧
        ∀ stem, (Twin.run pre).fsm.store.scanVisible stem startSeq = .error .snapshotTooOld)) ∧
    (Twin.run pre).fsm.gcWatermark ≤ (Twin.run (pre ++ post)).fsm.gcWatermark ∧
    (Twin.run pre).fsm.store.gcWatermark = (Twin.run pre).fsm.gcWatermark := by
  have ha := agree_run hids.left
  refine ⟨fun i cmd rest hpost => ?_, fun startSeq => ⟨fun hle => ?_, fun hlt => ?_⟩,
    Twin.gcWatermark_le_run pre post, ha.copy⟩
  · have hnext : ConsistentIDs (pre ++ [.commit i cmd]) := by
      rw [hpost, List.append_cons] at hids
      exact hids.left
    refine ⟨fun hseq => ?_, fun hindex => ?_, fun hseq => ha.apply_stale hnext hseq⟩
    · rcases ha.apply_fresh hnext hseq with
        ⟨outcome, hf, hr⟩ | ⟨e, hf, hr⟩ | ⟨s, full, outcome, _, hf, hr, _⟩
      · rw [hf, hr]; rfl
      · rw [hf, hr]
      · rw [hf, hr]; rfl
    · rw [hpost, List.map_append, List.pairwise_append] at hindex
      have hpast : ∀ e ∈ pre, e.index < i := fun e he =>
        hindex.2.2 _ (List.mem_map_of_mem he) _ List.mem_cons_self
      cases hget : (Twin.run pre).fsm.outcomes.get cmd.requestID with
      | some entry => rw [FSM.apply_of_known i hget (ha.fingerprint_eq hnext hget).1]; rfl
      | none =>
        obtain ⟨s, outcome, hdecision, _⟩ :=
          FSM.decision_of_below (Twin.below_run hindex.1 hpast) cmd
        rw [FSM.apply_of_unknown i hget, hdecision]
        rfl
  · have hf : ¬startSeq < (Twin.run pre).fsm.store.gcWatermark := by
      rw [ha.copy]
      exact Nat.not_lt.mpr hle
    have hr : ¬startSeq < (Twin.run pre).reference.store.gcWatermark := by
      rw [ha.copy_zero]
      exact Nat.not_lt_zero _
    refine ⟨fun key => ?_, fun stem => ?_⟩
    · rw [Store.visible, Store.visible, if_neg hf, if_neg hr,
        (ha.store.trimmed key).visibleIn_eq hle]
    · rw [Store.scanVisible, Store.scanVisible, if_neg hf, if_neg hr, ha.store.scan_eq stem hle]
  · rw [← ha.copy] at hlt
    exact ⟨fun key => if_pos hlt, fun stem => if_pos hlt⟩

/-- Two versions of one key, of which a collection at 2 removes the first. -/
def collectedHistory : List Event :=
  [.commit 1 ⟨[1], 1, 0, [⟨[7], some [10]⟩]⟩, .commit 2 ⟨[2], 2, 1, [⟨[7], some [20]⟩]⟩,
    .advance 3 ⟨[3], 2, 5, 5⟩]

theorem collectedHistory_unobservable :
    (Twin.run collectedHistory).fsm.store.chain [7] = [⟨2, some [20]⟩] ∧
    (Twin.run collectedHistory).reference.store.chain [7] = [⟨1, some [10]⟩, ⟨2, some [20]⟩] ∧
    (Twin.run collectedHistory).fsm.store.visible [7] 2 =
      (Twin.run collectedHistory).reference.store.visible [7] 2 ∧
    (Twin.run collectedHistory).fsm.store.visible [7] 1 = .error .snapshotTooOld := by
  have hids : ConsistentIDs (collectedHistory ++ []) := by
    intro i cmd j cmd' hmem hmem' hid
    simp only [collectedHistory, List.append_nil, List.mem_cons, Event.commit.injEq,
      List.not_mem_nil, reduceCtorEq, or_false] at hmem hmem'
    rcases hmem with ⟨-, rfl⟩ | ⟨-, rfl⟩ <;> rcases hmem' with ⟨-, rfl⟩ | ⟨-, rfl⟩ <;>
      first | rfl | cases hid
  have hmark : (Twin.run collectedHistory).fsm.gcWatermark = 2 := by decide +kernel
  have hreads := (collection_unobservable collectedHistory [] hids).2.1
  exact ⟨by decide +kernel, by decide +kernel, ((hreads 2).1 (by rw [hmark])).1 [7],
    ((hreads 1).2 (by rw [hmark]; decide)).1 [7]⟩

end ChronicleDB.Fsm
