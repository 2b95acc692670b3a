import ChronicleDB.Transactions.Log

/-!
# Outcomes after a failed sync

A commit whose sync fails leaves its record in the log, but the state machine of
the manager never sees it.  A restart replays it.  So the outcomes that were
returned are found again as long as no later commit meets such a record: by its
RequestID, or by a key that the record writes after the commit's start.
-/

namespace ChronicleDB.Transactions

open Foundation Mvcc Fsm Wal List FSM

/-! ## Runs -/

structure Returned where
  requestID : RequestID
  status : Status
  commitSeq : Nat
  deriving DecidableEq, Repr

/-- What the caller of `commit` learns about the fate of its mutations. -/
def returnedBy (cmd : CommitTxnCommand) : Except CommitError Outcome → List Returned
  | .ok outcome =>
    if cmd.mutations = [] then [] else [⟨cmd.requestID, outcome.status, outcome.commitSeq⟩]
  | .error (.conflict _ _ _) => [⟨cmd.requestID, .aborted, 0⟩]
  | .error _ => []

structure Service where
  manager : Manager
  returned : List Returned

inductive ServiceAct where
  | commit (cmd : CommitTxnCommand) (fault : Option Fault)
  | crash (nodeID : Bytes)

namespace Service

/-- A manager that cannot be opened again leaves the service as it was. -/
def act (v : Service) : ServiceAct → Service
  | .commit cmd fault =>
    let (m, r) := v.manager.commit cmd fault
    ⟨m, v.returned ++ returnedBy cmd r⟩
  | .crash nodeID =>
    match openManager v.manager.walog.dir v.manager.walog.segmentMaxSize nodeID with
    | .error _ => v
    | .ok m => { v with manager := m }

def run (v : Service) (acts : List ServiceAct) : Service := acts.foldl act v

/-- Whatever was returned is what a restart would find. -/
def Reproduces (v : Service) : Prop :=
  ∀ nodeID, ∃ m, openManager v.manager.walog.dir v.manager.walog.segmentMaxSize nodeID = .ok m ∧
    ∀ r ∈ v.returned, ∃ outcome, m.getRequestOutcome r.requestID = some outcome ∧
      outcome.status = r.status ∧ outcome.commitSeq = r.commitSeq

end Service

/-! ## The condition -/

def Manager.unapplied (m : Manager) : List (Nat × CommitTxnCommand) :=
  match m.walog.replay 1 with
  | .error _ => []
  | .ok recs => recs.filterMap fun rec =>
    match decodeCommitTxn rec.payload with
    | .error _ => none
    | .ok cmd => if m.fsm.outcomes.get cmd.requestID = none then some (rec.index, cmd) else none

/-- `cmd` does not meet the record `o`: it has another RequestID and, if it can succeed,
no key in common with a record past its start. -/
def Apart (cmd : CommitTxnCommand) (fault : Option Fault) (o : Nat × CommitTxnCommand) : Prop :=
  o.2.requestID ≠ cmd.requestID ∧ (fault = none → cmd.startSeq < o.1 →
    ∀ a ∈ o.2.mutations, ∀ b ∈ cmd.mutations, a.key ≠ b.key)

instance (cmd : CommitTxnCommand) (fault : Option Fault) (o : Nat × CommitTxnCommand) :
    Decidable (Apart cmd fault o) := inferInstanceAs (Decidable (_ ∧ _))

/-- The numbers are `uint64`s, and the commit meets no record that was not applied. -/
def ServiceAct.Clear (m : Manager) : ServiceAct → Prop
  | .commit cmd fault => cmd.txnID < 2 ^ 64 ∧ cmd.startSeq < 2 ^ 64 ∧
      m.walog.nextLogIndex < 2 ^ 64 ∧
      (cmd.mutations = [] ∨ fault = some .append ∨ ∀ o ∈ m.unapplied, Apart cmd fault o)
  | .crash _ => True

instance (m : Manager) (a : ServiceAct) : Decidable (a.Clear m) := by
  cases a <;> unfold ServiceAct.Clear <;> infer_instance

def Service.ClearAll : Service → List ServiceAct → Prop
  | _, [] => True
  | v, a :: acts => a.Clear v.manager ∧ (v.act a).ClearAll acts

instance Service.decidableClearAll : (v : Service) → (acts : List ServiceAct) →
    Decidable (v.ClearAll acts)
  | _, [] => inferInstanceAs (Decidable True)
  | v, a :: acts =>
    have := decidableClearAll (v.act a) acts
    inferInstanceAs (Decidable (a.Clear v.manager ∧ (v.act a).ClearAll acts))

/-! ## The state machine that a restart would find -/

/-- The outcome that a caller would be told, apart from the conflict it names. -/
def SameFate (entry entry' : OutcomeEntry) : Prop :=
  entry'.fingerprint = entry.fingerprint ∧ entry'.outcome.status = entry.outcome.status ∧
    entry'.outcome.commitSeq = entry.outcome.commitSeq

/-- `full` is `live` after the commands of the log that `live` has not seen. -/
structure Shadows (cmds : List CommitTxnCommand) (live full : FSM) : Prop where
  fates : ∀ id entry, live.outcomes.get id = some entry →
    ∃ entry', full.outcomes.get id = some entry' ∧ SameFate entry entry'
  logged : ∀ id entry, full.outcomes.get id = some entry → ∃ cmd ∈ cmds, cmd.requestID = id
  aborted : ∀ id entry, full.outcomes.get id = some entry → entry.outcome.status = .aborted →
    entry.outcome.commitSeq = 0
  latest_le : ∀ k l, live.store.latestCommitSeq k = some l →
    ∃ l', full.store.latestCommitSeq k = some l' ∧ l ≤ l'
  latest : ∀ k l, full.store.latestCommitSeq k = some l → live.store.latestCommitSeq k = some l ∨
    ∃ i cmd, cmds[i]? = some cmd ∧ l = i + 1 ∧ live.outcomes.get cmd.requestID = none ∧
      ∃ m ∈ cmd.mutations, m.key = k
  below : live.store.Below (cmds.length + 1) ∧ full.store.Below (cmds.length + 1)
  watermark : live.gcWatermark = 0 ∧ full.gcWatermark = 0

theorem Shadows.refl {cmds : List CommitTxnCommand} {live full : FSM} (h : Shadows cmds live full) :
    Shadows cmds full full where
  fates _ entry hget := ⟨entry, hget, rfl, rfl, rfl⟩
  logged := h.logged
  aborted := h.aborted
  latest_le _ l hl := ⟨l, hl, Nat.le_refl l⟩
  latest _ _ hl := .inl hl
  below := ⟨h.below.2, h.below.2⟩
  watermark := ⟨h.watermark.2, h.watermark.2⟩

theorem shadows_new : Shadows [] (.new .new) (.new .new) where
  fates id entry hget := by simp [new] at hget
  logged id entry hget := by simp [new] at hget
  aborted id entry hget := by simp [new] at hget
  latest_le k l hl := ⟨l, hl, Nat.le_refl l⟩
  latest k l hl := .inl hl
  below := ⟨Store.below_new _, Store.below_new _⟩
  watermark := ⟨rfl, rfl⟩

structure Decided (f : FSM) (n : Nat) (cmd : CommitTxnCommand) (f' : FSM) (outcome : Outcome) :
    Prop where
  apply_eq : f.apply n cmd = .ok (f', outcome)
  outcomes_eq : f'.outcomes = f.outcomes.insert cmd.requestID ⟨outcome, fingerprintOf cmd⟩
  below : f'.store.Below (n + 1)
  watermark : f'.gcWatermark = f.gcWatermark
  fate : (f.store.checkConflicts cmd.startSeq cmd.mutations = none ∧
      f'.store = cmd.mutations.foldl (Store.push n) f.store ∧
      outcome = .committed cmd.requestID n) ∨
    (f.store.checkConflicts cmd.startSeq cmd.mutations ≠ none ∧ f'.store = f.store ∧
      outcome.status = .aborted ∧ outcome.commitSeq = 0)

theorem exists_decided {f : FSM} {n : Nat} {cmd : CommitTxnCommand} (hmark : f.gcWatermark = 0)
    (hbelow : f.store.Below n) (hnew : f.outcomes.get cmd.requestID = none) :
    ∃ f' outcome, Decided f n cmd f' outcome := by
  have hmark' : f.gcWatermark ≤ cmd.startSeq := hmark ▸ Nat.zero_le _
  cases hconflict : f.store.checkConflicts cmd.startSeq cmd.mutations with
  | none =>
    refine ⟨f.record cmd (cmd.mutations.foldl (Store.push n) f.store) (.committed cmd.requestID n),
      _, ?_, rfl, hbelow.foldl_push _, rfl, .inl ⟨hconflict, rfl, rfl⟩⟩
    rw [apply_of_unknown _ hnew, decision_free hmark' hbelow hconflict]
    rfl
  | some conflict =>
    obtain ⟨key, latest⟩ := conflict
    refine ⟨f.record cmd f.store (.conflict cmd.requestID key latest), _, ?_, rfl,
      hbelow.mono (Nat.le_succ n), rfl, .inr ⟨by simp [hconflict], rfl, rfl, rfl⟩⟩
    rw [apply_of_unknown _ hnew, decision_conflict _ hmark' hconflict]
    rfl

namespace Decided

variable {f f' : FSM} {n : Nat} {cmd : CommitTxnCommand} {outcome : Outcome}

theorem get_outcomes (h : Decided f n cmd f' outcome) (id : RequestID) :
    f'.outcomes.get id = if id = cmd.requestID then some ⟨outcome, fingerprintOf cmd⟩
      else f.outcomes.get id := by
  rw [h.outcomes_eq, SortedMap.get_insert]

theorem latest (h : Decided f n cmd f' outcome) (k : Bytes) :
    f'.store.latestCommitSeq k = f.store.latestCommitSeq k ∨
      (f'.store.latestCommitSeq k = some n ∧ ∃ m ∈ cmd.mutations, m.key = k) := by
  obtain ⟨-, hstore, -⟩ | ⟨-, hstore, -⟩ := h.fate
  · rw [hstore]
    by_cases hk : ∃ m ∈ cmd.mutations, m.key = k
    · exact .inr ⟨f.store.latestCommitSeq_foldl_push_of_mem n hk, hk⟩
    · exact .inl (f.store.latestCommitSeq_foldl_push_of_not_mem n hk)
  · exact .inl (by rw [hstore])

theorem aborted (h : Decided f n cmd f' outcome) (hstatus : outcome.status = .aborted) :
    outcome.commitSeq = 0 := by
  obtain ⟨-, -, rfl⟩ | ⟨-, -, -, hzero⟩ := h.fate
  · cases hstatus
  · exact hzero

end Decided

namespace Shadows

variable {cmds : List CommitTxnCommand} {live full full' : FSM} {cmd : CommitTxnCommand}
  {outcome : Outcome}

theorem logged_concat (h : Shadows cmds live full)
    (hfull : Decided full (cmds.length + 1) cmd full' outcome) {id : RequestID}
    {entry : OutcomeEntry} (hget : full'.outcomes.get id = some entry) :
    ∃ c ∈ cmds ++ [cmd], c.requestID = id := by
  rw [hfull.get_outcomes] at hget
  split at hget
  case isTrue hid => exact ⟨cmd, by simp, hid.symm⟩
  case isFalse =>
    obtain ⟨c, hc, hid⟩ := h.logged id entry hget
    exact ⟨c, mem_append_left _ hc, hid⟩

theorem aborted_concat (h : Shadows cmds live full)
    (hfull : Decided full (cmds.length + 1) cmd full' outcome) {id : RequestID}
    {entry : OutcomeEntry} (hget : full'.outcomes.get id = some entry)
    (hstatus : entry.outcome.status = .aborted) : entry.outcome.commitSeq = 0 := by
  rw [hfull.get_outcomes] at hget
  split at hget
  case isTrue => cases hget; exact hfull.aborted hstatus
  case isFalse => exact h.aborted id entry hget hstatus

theorem orphan (h : Shadows cmds live full) (hlive : live.outcomes.get cmd.requestID = none)
    (hfull : Decided full (cmds.length + 1) cmd full' outcome) :
    Shadows (cmds ++ [cmd]) live full' where
  fates id entry hget := by
    have hne : id ≠ cmd.requestID := by
      rintro rfl
      rw [hlive] at hget
      cases hget
    rw [hfull.get_outcomes, if_neg hne]
    exact h.fates id entry hget
  logged _ _ hget := h.logged_concat hfull hget
  aborted _ _ hget := h.aborted_concat hfull hget
  latest_le k l hl := by
    obtain ⟨l', hl', hle⟩ := h.latest_le k l hl
    rcases hfull.latest k with hsame | ⟨hnew, -⟩
    · exact ⟨l', hsame.trans hl', hle⟩
    · exact ⟨_, hnew, (h.below.1.latest_lt hl).le⟩
  latest k l hl := by
    rcases hfull.latest k with hsame | ⟨hnew, hk⟩
    · rw [hsame] at hl
      obtain hl | ⟨i, c, hi, hrest⟩ := h.latest k l hl
      · exact .inl hl
      · exact .inr ⟨i, c, List.getElem?_append_left (List.getElem?_eq_some_iff.mp hi).1 ▸ hi, hrest⟩
    · rw [hnew] at hl
      obtain rfl := Option.some.inj hl
      exact .inr ⟨cmds.length, cmd, by simp, rfl, hlive, hk⟩
  below := by
    rw [List.length_append, List.length_singleton]
    exact ⟨h.below.1.mono (Nat.le_succ _), hfull.below⟩
  watermark := ⟨h.watermark.1, hfull.watermark.trans h.watermark.2⟩

def Unseen (cmds : List CommitTxnCommand) (live : FSM) (o : Nat × CommitTxnCommand) : Prop :=
  ∃ i, cmds[i]? = some o.2 ∧ o.1 = i + 1 ∧ live.outcomes.get o.2.requestID = none

/-- A command that is apart from the unseen records conflicts in both or in neither. -/
theorem changedSince_iff (h : Shadows cmds live full)
    (hapart : ∀ o, Unseen cmds live o → Apart cmd none o) {m : Mutation} (hm : m ∈ cmd.mutations) :
    live.store.ChangedSince cmd.startSeq m.key ↔ full.store.ChangedSince cmd.startSeq m.key := by
  constructor
  · rintro ⟨l, hl, hlt⟩
    obtain ⟨l', hl', hle⟩ := h.latest_le m.key l hl
    exact ⟨l', hl', lt_of_lt_of_le hlt hle⟩
  · rintro ⟨l, hl, hlt⟩
    obtain hl | ⟨i, c, hi, rfl, hunseen, a, ha, hkey⟩ := h.latest m.key l hl
    · exact ⟨l, hl, hlt⟩
    · exact absurd hkey ((hapart (i + 1, c) ⟨i, hi, rfl, hunseen⟩).2 rfl hlt a ha m hm)

theorem conflict_iff (h : Shadows cmds live full)
    (hapart : ∀ o, Unseen cmds live o → Apart cmd none o) :
    live.store.checkConflicts cmd.startSeq cmd.mutations = none ↔
      full.store.checkConflicts cmd.startSeq cmd.mutations = none := by
  rw [Store.checkConflicts_eq_none_iff, Store.checkConflicts_eq_none_iff]
  exact forall₂_congr fun m hm => not_congr (h.changedSince_iff hapart hm)

theorem sameFate (h : Shadows cmds live full) {live' : FSM} {o : Outcome}
    (hlive : Decided live (cmds.length + 1) cmd live' o)
    (hfull : Decided full (cmds.length + 1) cmd full' outcome)
    (hapart : ∀ o, Unseen cmds live o → Apart cmd none o) :
    outcome.status = o.status ∧ outcome.commitSeq = o.commitSeq ∧
      ((live'.store = cmd.mutations.foldl (Store.push (cmds.length + 1)) live.store ∧
          full'.store = cmd.mutations.foldl (Store.push (cmds.length + 1)) full.store) ∨
        (live'.store = live.store ∧ full'.store = full.store)) := by
  have hiff := h.conflict_iff hapart
  obtain ⟨hfree, hstore, rfl⟩ | ⟨hconf, hstore, hstatus, hseq⟩ := hlive.fate <;>
    obtain ⟨hfree', hstore', rfl⟩ | ⟨hconf', hstore', hstatus', hseq'⟩ := hfull.fate
  · exact ⟨rfl, rfl, .inl ⟨hstore, hstore'⟩⟩
  · exact absurd (hiff.mp hfree) hconf'
  · exact absurd (hiff.mpr hfree') hconf
  · exact ⟨hstatus'.trans hstatus.symm, hseq'.trans hseq.symm, .inr ⟨hstore, hstore'⟩⟩

theorem latest_together (h : Shadows cmds live full) {live' : FSM} {o : Outcome}
    (hlive : Decided live (cmds.length + 1) cmd live' o)
    (hfull : Decided full (cmds.length + 1) cmd full' outcome)
    (hapart : ∀ o, Unseen cmds live o → Apart cmd none o) (k : Bytes) :
    (live'.store.latestCommitSeq k = some (cmds.length + 1) ∧
        full'.store.latestCommitSeq k = some (cmds.length + 1)) ∨
      (live'.store.latestCommitSeq k = live.store.latestCommitSeq k ∧
        full'.store.latestCommitSeq k = full.store.latestCommitSeq k) := by
  obtain ⟨-, -, ⟨hlive', hfull'⟩ | ⟨hlive', hfull'⟩⟩ := h.sameFate hlive hfull hapart
  · rw [hlive', hfull']
    by_cases hk : ∃ m ∈ cmd.mutations, m.key = k
    · exact .inl ⟨Store.latestCommitSeq_foldl_push_of_mem _ _ hk,
        Store.latestCommitSeq_foldl_push_of_mem _ _ hk⟩
    · exact .inr ⟨Store.latestCommitSeq_foldl_push_of_not_mem _ _ hk,
        Store.latestCommitSeq_foldl_push_of_not_mem _ _ hk⟩
  · exact .inr ⟨by rw [hlive'], by rw [hfull']⟩

theorem commit (h : Shadows cmds live full) {live' : FSM} {o : Outcome}
    (hlive : Decided live (cmds.length + 1) cmd live' o)
    (hfull : Decided full (cmds.length + 1) cmd full' outcome)
    (hapart : ∀ o, Unseen cmds live o → Apart cmd none o) :
    Shadows (cmds ++ [cmd]) live' full' where
  fates id entry hget := by
    rw [hlive.get_outcomes] at hget
    rw [hfull.get_outcomes]
    split at hget
    case isTrue hid =>
      obtain rfl := Option.some.inj hget
      rw [if_pos hid]
      have hfate := h.sameFate hlive hfull hapart
      exact ⟨_, rfl, rfl, hfate.1, hfate.2.1⟩
    case isFalse hid =>
      rw [if_neg hid]
      exact h.fates id entry hget
  logged _ _ hget := h.logged_concat hfull hget
  aborted _ _ hget := h.aborted_concat hfull hget
  latest_le k l hl := by
    rcases h.latest_together hlive hfull hapart k with ⟨hl', hf'⟩ | ⟨hl', hf'⟩
    · rw [hl'] at hl
      exact ⟨l, hf'.trans hl, Nat.le_refl l⟩
    · rw [hf']
      exact h.latest_le k l (hl'.symm.trans hl)
  latest k l hl := by
    rcases h.latest_together hlive hfull hapart k with ⟨hl', hf'⟩ | ⟨hl', hf'⟩
    · rw [hf'] at hl
      exact .inl (hl'.trans hl)
    · rw [hl']
      obtain hl | ⟨i, c, hi, heq, hunseen, hk⟩ := h.latest k l (hf'.symm.trans hl)
      · exact .inl hl
      · refine .inr ⟨i, c, ?_, heq, ?_, hk⟩
        · rw [List.getElem?_append_left (List.getElem?_eq_some_iff.mp hi).1, hi]
        · rw [hlive.get_outcomes, if_neg, hunseen]
          exact (hapart (i + 1, c) ⟨i, hi, rfl, hunseen⟩).1
  below := by
    rw [List.length_append, List.length_singleton]
    exact ⟨hlive.below, hfull.below⟩
  watermark := ⟨hlive.watermark.trans h.watermark.1, hfull.watermark.trans h.watermark.2⟩

end Shadows

/-! ## The service -/

/-- What every run that meets no unapplied record keeps. -/
structure Faithful (v : Service) (cmds : List CommitTxnCommand) (full : FSM) : Prop where
  logged : Logged v.manager.walog cmds
  replays : Replays cmds full
  shadows : Shadows cmds v.manager.fsm full
  returned : ∀ r ∈ v.returned, ∃ entry, full.outcomes.get r.requestID = some entry ∧
    entry.outcome.status = r.status ∧ entry.outcome.commitSeq = r.commitSeq

namespace Faithful

variable {v : Service} {cmds : List CommitTxnCommand} {full : FSM}

theorem reproduces (h : Faithful v cmds full) : v.Reproduces := by
  intro nodeID
  refine ⟨_, h.logged.openManager h.replays nodeID, fun r hr => ?_⟩
  obtain ⟨entry, hget, hfate⟩ := h.returned r hr
  exact ⟨entry.outcome, by simp [Manager.getRequestOutcome, getOutcome, hget], hfate⟩

theorem mem_unapplied (h : Faithful v cmds full) {o : Nat × CommitTxnCommand}
    (ho : Shadows.Unseen cmds v.manager.fsm o) : o ∈ v.manager.unapplied := by
  obtain ⟨i, hi, hindex, hunseen⟩ := ho
  obtain ⟨hlt, hget⟩ := List.getElem?_eq_some_iff.mp hi
  rw [Manager.unapplied, h.logged.replay_eq]
  refine List.mem_filterMap.mpr ⟨commandRecord (i + 1) o.2, ?_, ?_⟩
  · refine List.mem_iff_getElem?.mpr ⟨i, ?_⟩
    simp [commandRecords, List.getElem?_mapIdx, hi]
  · simp [commandRecord, decodeCommitTxn_encode (h.logged.fit _ (hget ▸ List.getElem_mem hlt)),
      hunseen, ← hindex]

theorem crash (h : Faithful v cmds full) (nodeID : Bytes) :
    Faithful (v.act (.crash nodeID)) cmds full := by
  rw [Service.act, h.logged.openManager h.replays]
  exact ⟨h.logged, h.replays, h.shadows.refl, h.returned⟩

/-- A command that is new to the manager and apart from the unapplied records is new to a
restart as well. -/
theorem full_unknown (h : Faithful v cmds full) {cmd : CommitTxnCommand} {fault : Option Fault}
    (hapart : ∀ o ∈ v.manager.unapplied, Apart cmd fault o)
    (hnew : v.manager.fsm.outcomes.get cmd.requestID = none) :
    full.outcomes.get cmd.requestID = none := by
  rw [Option.eq_none_iff_forall_ne_some]
  intro entry hget
  obtain ⟨c, hc, hid⟩ := h.shadows.logged _ _ hget
  obtain ⟨i, hi⟩ := mem_iff_getElem?.mp hc
  exact (hapart _ (h.mem_unapplied (o := (i + 1, c)) ⟨i, hi, rfl, hid ▸ hnew⟩)).1 hid

end Faithful

theorem eq_of_mem_returnedBy {cmd : CommitTxnCommand} {o : Outcome} {startSeq : Nat} {r : Returned}
    (ho : o.status = .aborted → o.commitSeq = 0)
    (hr : r ∈ returnedBy cmd (conclude startSeq o)) :
    r = ⟨cmd.requestID, o.status, o.commitSeq⟩ := by
  rw [conclude] at hr
  split at hr
  case isTrue hstatus =>
    rw [mem_singleton.mp hr, hstatus, ho hstatus]
  case isFalse =>
    rw [returnedBy] at hr
    split at hr
    · cases hr
    · exact mem_singleton.mp hr

namespace Faithful

variable {v : Service} {cmds : List CommitTxnCommand} {full : FSM}

theorem same (h : Faithful v cmds full) {rs : List Returned}
    (hrs : ∀ r ∈ rs, ∃ entry, full.outcomes.get r.requestID = some entry ∧
      entry.outcome.status = r.status ∧ entry.outcome.commitSeq = r.commitSeq) :
    Faithful ⟨v.manager, v.returned ++ rs⟩ cmds full :=
  ⟨h.logged, h.replays, h.shadows, fun r hr => (mem_append.mp hr).elim (h.returned r) (hrs r)⟩

theorem returned_concat (h : Faithful v cmds full) {cmd : CommitTxnCommand} {full' : FSM}
    {outcome : Outcome} (hnew : full.outcomes.get cmd.requestID = none)
    (hfull : Decided full (cmds.length + 1) cmd full' outcome) {r : Returned}
    (hr : r ∈ v.returned) : ∃ entry, full'.outcomes.get r.requestID = some entry ∧
      entry.outcome.status = r.status ∧ entry.outcome.commitSeq = r.commitSeq := by
  obtain ⟨entry, hget, hfate⟩ := h.returned r hr
  have hne : r.requestID ≠ cmd.requestID := by
    intro hid
    rw [hid, hnew] at hget
    cases hget
  exact ⟨entry, by rw [hfull.get_outcomes, if_neg hne, hget], hfate⟩

theorem submit (h : Faithful v cmds full) {cmd : CommitTxnCommand} {fault : Option Fault}
    (hfault : fault ≠ some .append) (hlog : Loggable cmd) (hlen : cmds.length + 1 < 2 ^ 64)
    (hapart : ∀ o ∈ v.manager.unapplied, Apart cmd fault o)
    (hnew : v.manager.fsm.outcomes.get cmd.requestID = none) :
    ∃ full', Faithful ⟨(v.manager.submit cmd fault).1,
      v.returned ++ returnedBy cmd (v.manager.submit cmd fault).2⟩ (cmds ++ [cmd]) full' := by
  have hunknown := h.full_unknown hapart hnew
  obtain ⟨ops, w, happend, hlogged⟩ := h.logged.append hlog hlen
  obtain ⟨full', outcome, hfull⟩ :=
    exists_decided h.shadows.watermark.2 h.shadows.below.2 hunknown
  have hreplays := h.replays.concat hlog.fits hfull.apply_eq
  refine ⟨full', ?_⟩
  rw [Manager.submit, if_neg hfault, happend]
  cases fault with
  | some f =>
    obtain rfl : f = .sync := by
      cases f
      · exact absurd rfl hfault
      · rfl
    refine ⟨hlogged, hreplays, h.shadows.orphan hnew hfull, fun r hr => ?_⟩
    exact h.returned_concat hunknown hfull (by simpa [returnedBy] using hr)
  | none =>
    obtain ⟨live', o, hlive⟩ := exists_decided h.shadows.watermark.1 h.shadows.below.1 hnew
    have happart : ∀ o, Shadows.Unseen cmds v.manager.fsm o → Apart cmd none o :=
      fun o ho => hapart o (h.mem_unapplied ho)
    simp only [hlive.apply_eq]
    refine ⟨hlogged.sync, hreplays, h.shadows.commit hlive hfull happart, fun r hr => ?_⟩
    rcases mem_append.mp hr with hold | hr
    · exact h.returned_concat hunknown hfull hold
    · obtain rfl := eq_of_mem_returnedBy hlive.aborted hr
      obtain ⟨hstatus, hseq, -⟩ := h.shadows.sameFate hlive hfull happart
      exact ⟨_, by rw [hfull.get_outcomes, if_pos rfl], hstatus, hseq⟩

theorem commit (h : Faithful v cmds full) {cmd : CommitTxnCommand} {fault : Option Fault}
    (hclear : (ServiceAct.commit cmd fault).Clear v.manager) :
    ∃ cmds' full', Faithful (v.act (.commit cmd fault)) cmds' full' := by
  obtain ⟨htxn, hstart, hnext, hclear⟩ := hclear
  rw [h.logged.next] at hnext
  rw [Service.act]
  by_cases hnil : cmd.mutations = []
  · refine ⟨cmds, full, ?_⟩
    rw [Manager.commit, if_pos hnil]
    exact h.same (by simp [returnedBy, hnil])
  replace hclear := hclear.resolve_left hnil
  rw [Manager.commit, if_neg hnil, precheck]
  cases hget : v.manager.fsm.outcomes.get cmd.requestID with
  | some entry =>
    refine ⟨cmds, full, ?_⟩
    by_cases hfp : entry.fingerprint = fingerprintOf cmd
    · simp only [hfp, ne_eq, not_true_eq_false, if_false]
      obtain ⟨entry', hget', -, hstatus, hseq⟩ := h.shadows.fates _ _ hget
      refine h.same fun r hr => ?_
      have hzero : entry.outcome.status = .aborted → entry.outcome.commitSeq = 0 := by
        intro haborted
        rw [← hseq]
        exact h.shadows.aborted _ _ hget' (hstatus.trans haborted)
      obtain rfl := eq_of_mem_returnedBy hzero hr
      exact ⟨entry', hget', hstatus, hseq⟩
    · simp only [hfp, ne_eq, not_false_eq_true, if_true]
      exact h.same (by simp [returnedBy])
  | none =>
    by_cases hfault : fault = some .append
    · refine ⟨cmds, full, ?_⟩
      simp only [Manager.submit, if_pos hfault]
      exact h.same (by simp [returnedBy])
    by_cases hfit : (encodeCommitTxn cmd).length ≤ maxRecordPayloadSize
    · exact ⟨_, h.submit hfault ⟨htxn, hstart, hfit⟩ hnext (hclear.resolve_left hfault) hget⟩
    · refine ⟨cmds, full, ?_⟩
      simp only [Manager.submit, if_neg hfault, Logged.append_tooLarge _ (Nat.not_le.mp hfit)]
      exact h.same (by simp [returnedBy])

theorem run (h : Faithful v cmds full) {acts : List ServiceAct} (hclear : v.ClearAll acts) :
    ∃ cmds' full', Faithful (v.run acts) cmds' full' := by
  induction acts generalizing v cmds full with
  | nil => exact ⟨cmds, full, h⟩
  | cons a acts ih =>
    obtain ⟨ha, hrest⟩ := hclear
    cases a with
    | commit cmd fault =>
      obtain ⟨cmds', full', h'⟩ := h.commit ha
      exact ih h' hrest
    | crash nodeID => exact ih (h.crash nodeID) hrest

end Faithful

def Service.fresh (w : WAL) : Service := ⟨⟨w, .new .new, 0, 0⟩, []⟩

theorem faithful_fresh {maxSize : Nat} {nodeID : Bytes} {w : WAL} {report : RecoveryReport}
    (hid : nodeID.length < 2 ^ 16) (hopen : openWAL [] maxSize nodeID = .ok (w, report)) :
    Faithful (.fresh w) [] (.new .new) :=
  ⟨logged_fresh hid hopen, replays_nil, shadows_new, by simp [Service.fresh]⟩

/-- In every run in which no commit meets a record that was logged but not applied, a restart
succeeds and finds every outcome that was returned. -/
theorem outcomes_reproduced {maxSize : Nat} {nodeID : Bytes} {w : WAL} {report : RecoveryReport}
    (hid : nodeID.length < 2 ^ 16) (hopen : openWAL [] maxSize nodeID = .ok (w, report))
    {acts : List ServiceAct} (hclear : (Service.fresh w).ClearAll acts) :
    ((Service.fresh w).run acts).Reproduces := by
  obtain ⟨cmds, full, h⟩ := (faithful_fresh hid hopen).run hclear
  exact h.reproduces

def apartCommits : List ServiceAct :=
  [.commit ⟨[1], 1, 0, [⟨[7], some [1]⟩]⟩ (some .sync), .commit ⟨[2], 2, 0, [⟨[8], some [2]⟩]⟩ none]

theorem apartCommits_reproduced : ∃ w report, openWAL [] 0 (List.replicate 32 97) =
      .ok (w, report) ∧ ((Service.fresh w).run apartCommits).returned = [⟨[2], .committed, 2⟩] ∧
    ((Service.fresh w).run apartCommits).Reproduces := by
  have hid : (List.replicate 32 97 : Bytes).length < 2 ^ 16 := by decide
  refine ⟨_, _, rfl, by decide +kernel, outcomes_reproduced hid rfl ?_⟩
  decide +kernel

def meetingCommits : List ServiceAct :=
  [.commit ⟨[1], 1, 0, [⟨[7], some [1]⟩]⟩ (some .sync), .commit ⟨[2], 2, 0, [⟨[7], some [2]⟩]⟩ none]

/-- The second commit was told that it is committed; after a restart it is aborted. -/
theorem meetingCommits_lost : ∃ w report, openWAL [] 0 (List.replicate 32 97) =
      .ok (w, report) ∧ ((Service.fresh w).run meetingCommits).returned = [⟨[2], .committed, 2⟩] ∧
    ∃ m, openManager ((Service.fresh w).run meetingCommits).manager.walog.dir
        ((Service.fresh w).run meetingCommits).manager.walog.segmentMaxSize [] = .ok m ∧
      (m.getRequestOutcome [2]).map (·.status) = some .aborted := by
  refine ⟨_, _, rfl, by decide +kernel, ?_⟩
  set reopened := openManager _ _ []
  have hlost : reopened.toOption.any
      (fun m => decide ((m.getRequestOutcome [2]).map (·.status) = some .aborted)) = true := by
    decide +kernel
  cases hopen : reopened with
  | error e => simp [hopen, Except.toOption] at hlost
  | ok m => exact ⟨m, rfl, by simpa [hopen, Except.toOption] using hlost⟩

end ChronicleDB.Transactions
