import ChronicleDB.Sql.Outcomes

/-!
# Repeated requests

A statement in a transaction of its own whose RequestID is decided is answered from
the recorded outcome, and what was submitted before is not compared with it.  Which
statement a successful answer speaks of is told here, on both engines.
-/

namespace ChronicleDB.Sql

open Foundation Fsm List Option
open Transactions (Engine Fault Txn CommitError Manager)
open World (Run)

variable {s s' : Standalone} {seq t : Nat} {cmds : List CommitTxnCommand} {id : RequestID}
    {text : Bytes} {cmd : CommitTxnCommand} {e : Engine}

/-! ## Successful statements -/

/-- A statement that changes something, outside a transaction, and is about to return `seq`. -/
structure Running.Returns (r : Running) (seq : Nat) : Prop where
  autoCommit : r.txn = none
  mutating : ∃ stmt, parse r.text = .ok stmt ∧ isMutatingStatement stmt = true
  done : ∃ result txn, r.script = .done (.ok result, txn) ∧ result.commitSeq = seq

/-- The sequence comes from a recorded outcome, or from the commit of what was written. -/
theorem Running.Returns.cases {σ : Type} {M : Model σ} {issued : σ → Nat → Prop}
    (hissues : Issues M issued) (hb : Buffers M issued) {w₀ w : World σ}
    {events : List World.Event} (hrun : Run M w₀ events w) (hidle : w₀.Idle) {c : Nat}
    {r : Running} (hr : (w.clients c).running = some r) (h : r.Returns seq) :
    (∃ x ∈ r.trace, ∃ outcome, x.exchange = ⟨.lookup r.id, some outcome⟩ ∧
      outcome.committed = true ∧ seq = outcome.commitSeq) ∨
    (∃ x ∈ r.trace, ∃ t, x.exchange = ⟨.submit t r.id, some (.ok seq)⟩ ∧ x.command.isSome) ∨
    ∃ x ∈ r.trace, ∃ t, x.exchange = ⟨.await t r.id, .ok seq⟩ := by
  obtain ⟨result, txn, hscript, rfl⟩ := h.done
  have hleads := hrun.traced hidle c r hr
  rw [hscript] at hleads
  rcases execute_ok hleads with ⟨pre, t, answer, htrace, hpre, hwrote, hanswers⟩ | ⟨-, hfound⟩
  · obtain ⟨key, value, hwrite⟩ := hwrote h.mutating
    obtain ⟨before, last, hsplit, rfl, rfl⟩ := map_eq_append_iff.mp htrace
    have hdirty : Dirty t before := by
      obtain ⟨x, hx, hxe⟩ := mem_map.mp hwrite
      exact ⟨⟨x, hx, key, value, hxe⟩, fun x hx => hpre _ (mem_map_of_mem hx)⟩
    rcases hanswers with hlast | hlast
    · obtain ⟨x, rfl, hxe⟩ := map_eq_singleton_iff.mp hlast
      exact .inr (.inl ⟨x, by simp [hsplit], t, hxe,
        (hrun.handsIn hissues hb hidle hr).handed hsplit hxe hdirty⟩)
    · have hawait : (⟨.await t r.id, .ok result.commitSeq⟩ : Program.Exchange Op.Reply) ∈
          last.map Made.exchange := by
        rw [hlast]
        simp
      obtain ⟨x, hx, hxe⟩ := mem_map.mp hawait
      exact .inr (.inr ⟨x, by simp [hsplit, hx], t, hxe⟩)
  · obtain ⟨stmt, hparse, hmutating⟩ := h.mutating
    obtain ⟨outcome, hmem, hrest⟩ := hfound stmt hparse h.autoCommit hmutating
    obtain ⟨x, hx, hxe⟩ := mem_map.mp hmem
    exact .inl ⟨x, hx, outcome, hxe, hrest⟩

/-! ## The manager -/

/-- A commit with mutations leaves the state machine alone, or applies the command. -/
theorem commit_cases (m : Manager) (fault : Option Fault) (hne : cmd.mutations ≠ []) :
    ((m.commit cmd fault).1.fsm = m.fsm ∧ (m.commit cmd fault).1.lastSeq = m.lastSeq ∧
      m.walog.nextLogIndex ≤ (m.commit cmd fault).1.walog.nextLogIndex ∧
      ∀ o, (m.commit cmd fault).2 = .ok o → m.fsm.precheck cmd = .ok o ∧ o.status ≠ .aborted) ∨
    ∃ o, m.fsm.apply m.walog.nextLogIndex cmd = .ok ((m.commit cmd fault).1.fsm, o) ∧
      (m.commit cmd fault).1.lastSeq = m.walog.nextLogIndex ∧
      (m.commit cmd fault).1.walog.nextLogIndex = m.walog.nextLogIndex + 1 ∧
      ∀ o', (m.commit cmd fault).2 = .ok o' → o' = o ∧ o.status ≠ .aborted := by
  have hconclude : ∀ {o o' : Outcome}, Transactions.conclude cmd.startSeq o = .ok o' →
      o' = o ∧ o.status ≠ .aborted := by
    intro o o' ho
    rw [Transactions.conclude] at ho
    split at ho
    · cases ho
    · cases ho
      exact ⟨rfl, ‹_›⟩
  generalize h : m.commit cmd fault = p
  rw [Manager.commit, if_neg hne] at h
  split at h
  · rename_i o hcheck
    cases h
    refine .inl ⟨rfl, rfl, le_rfl, fun o' ho' => ?_⟩
    obtain ⟨rfl, hstatus⟩ := hconclude ho'
    exact ⟨hcheck, hstatus⟩
  · rw [Manager.submit] at h
    split at h
    · cases h
      exact .inl ⟨rfl, rfl, le_rfl, fun o ho => by cases ho⟩
    split at h
    · cases h
      exact .inl ⟨rfl, rfl, le_rfl, fun o ho => by cases ho⟩
    rename_i ops w idx happend
    obtain ⟨hidx, hnext⟩ := Wal.WAL.appendLogEntry_nextLogIndex happend
    split at h
    · cases h
      exact .inl ⟨rfl, rfl, hnext ▸ Nat.le_succ _, fun o ho => by cases ho⟩
    split at h
    · cases h
      exact .inl ⟨rfl, rfl, hnext ▸ Nat.le_succ _, fun o ho => by cases ho⟩
    rename_i fsm o happly
    cases h
    exact .inr ⟨o, hidx ▸ happly, hidx, hnext, fun o' ho' => hconclude ho'⟩
  · cases h
    exact .inl ⟨rfl, rfl, le_rfl, fun o ho => by cases ho⟩

namespace Standalone

def RecordedCommitted (s : Standalone) (id : RequestID) (seq : Nat) : Prop :=
  ∃ entry, s.engine.manager.fsm.outcomes.get id = some entry ∧
    entry.outcome.status = .committed ∧ entry.outcome.commitSeq = seq

/-- The command applied at `seq` is `cmd`, which was committed by it. -/
def CommittedAt (s : Standalone) (seq : Nat) (cmd : CommitTxnCommand) : Prop :=
  (seq, cmd) ∈ s.applied ∧ s.RecordedCommitted cmd.requestID seq

structure Sound (cmds : List CommitTxnCommand) (s : Standalone) : Prop where
  watermark : s.engine.manager.fsm.gcWatermark = 0
  below : s.engine.manager.lastSeq < s.engine.manager.walog.nextLogIndex
  decided : ∀ {id entry}, s.engine.manager.fsm.outcomes.get id = some entry →
    entry.outcome.status ≠ .abortedStale ∧ ∃ n cmd, (n, cmd) ∈ s.applied ∧ cmd.requestID = id ∧
      (entry.outcome.status = .committed → entry.outcome.commitSeq = n)
  handed : ∀ {n cmd}, (n, cmd) ∈ s.applied → cmd ∈ cmds

theorem Sound.mono {cmds' : List CommitTxnCommand} (h : Sound cmds s)
    (hsub : ∀ cmd ∈ cmds, cmd ∈ cmds') : Sound cmds' s :=
  ⟨h.watermark, h.below, h.decided, fun hmem => hsub _ (h.handed hmem)⟩

theorem Sound.congr (h : Sound cmds s) (hfsm : s'.engine.manager.fsm = s.engine.manager.fsm)
    (hlast : s'.engine.manager.lastSeq = s.engine.manager.lastSeq)
    (hnext : s.engine.manager.walog.nextLogIndex ≤ s'.engine.manager.walog.nextLogIndex)
    (happlied : s'.applied = s.applied) : Sound cmds s' where
  watermark := hfsm ▸ h.watermark
  below := hlast ▸ lt_of_lt_of_le h.below hnext
  decided := by rw [hfsm, happlied]; exact h.decided
  handed := by rw [happlied]; exact h.handed

theorem Sound.apply (h : Sound cmds s) {o : Outcome} (hcmd : cmd ∈ cmds)
    (happly : s.engine.manager.fsm.apply s.engine.manager.walog.nextLogIndex cmd =
      .ok (s'.engine.manager.fsm, o))
    (hlast : s'.engine.manager.lastSeq = s.engine.manager.walog.nextLogIndex)
    (hnext : s'.engine.manager.walog.nextLogIndex = s.engine.manager.walog.nextLogIndex + 1)
    (happlied : s'.applied = s.applied ++ [(s.engine.manager.walog.nextLogIndex, cmd)]) :
    Sound cmds s' := by
  have hold : ∀ {id : RequestID} {entry : OutcomeEntry},
      s.engine.manager.fsm.outcomes.get id = some entry →
      entry.outcome.status ≠ .abortedStale ∧ ∃ n cmd, (n, cmd) ∈ s'.applied ∧
        cmd.requestID = id ∧ (entry.outcome.status = .committed → entry.outcome.commitSeq = n) := by
    intro id entry hget
    obtain ⟨hstale, n, cmd', hmem, hrest⟩ := h.decided hget
    exact ⟨hstale, n, cmd', happlied ▸ mem_append_left _ hmem, hrest⟩
  have hhanded : ∀ {n cmd'}, (n, cmd') ∈ s'.applied → cmd' ∈ cmds := by
    intro n cmd' hmem
    rw [happlied] at hmem
    rcases mem_append.mp hmem with hmem | hmem
    · exact h.handed hmem
    · cases mem_singleton.mp hmem
      exact hcmd
  rcases FSM.apply_cases happly with ⟨hsame, -⟩ | ⟨hnew, hmark, hinsert, hseq, hstale⟩
  · refine ⟨hsame ▸ h.watermark, by omega, fun {id entry} hget => ?_, hhanded⟩
    exact hold (hsame ▸ hget)
  · refine ⟨hmark ▸ h.watermark, by omega, fun {id entry} hget => ?_, hhanded⟩
    rw [hinsert, SortedMap.get_insert] at hget
    split at hget
    case isTrue hid =>
      cases hget
      refine ⟨fun hstatus => ?_, _, cmd, happlied ▸ mem_append_right _
        (mem_singleton_self _), hid.symm, hseq⟩
      have := hstale hstatus
      rw [h.watermark] at this
      omega
    case isFalse => exact hold hget

theorem commit_active {y : Txn} (id : RequestID) (fault : Option Fault)
    (hy : e.txns t = some y) (hactive : y.state = .active) :
    (e.commit t id fault).1.manager =
        (e.manager.commit ⟨id, y.id, y.startSeq, y.localWrites⟩ fault).1 ∧
      ∀ seq, commitReply (e.commit t id fault).2 = .ok seq →
        ∃ o, (e.manager.commit ⟨id, y.id, y.startSeq, y.localWrites⟩ fault).2 = .ok o ∧
          seq = o.commitSeq := by
  rw [Engine.commit, Engine.onTxn, hy]
  simp only [hactive, if_true]
  cases hcommit : e.manager.commit ⟨id, y.id, y.startSeq, y.localWrites⟩ fault with
  | mk m r =>
    cases r with
    | error err => exact ⟨rfl, fun seq hseq => by cases err <;> cases hseq⟩
    | ok o =>
      refine ⟨rfl, fun seq hseq => ⟨o, rfl, ?_⟩⟩
      cases hseq
      rfl

theorem commit_inactive (id : RequestID) (fault : Option Fault)
    (h : ∀ y, e.txns t = some y → y.state ≠ .active) :
    (e.commit t id fault).1 = e ∧ ∀ seq, commitReply (e.commit t id fault).2 ≠ .ok seq := by
  rw [Engine.commit, Engine.onTxn]
  cases hy : e.txns t with
  | none => exact ⟨rfl, fun seq hseq => by cases hseq⟩
  | some y =>
    simp only [h y hy, if_false]
    exact ⟨trivial, fun seq hseq => by cases hseq⟩

theorem submit_cases {fault : Option Fault} {reply : Option (Except EngineError Nat)}
    (hbelow : s.engine.manager.lastSeq < s.engine.manager.walog.nextLogIndex)
    (h : s.handle fault (.submit t id) = (s', reply)) :
    (s'.engine.manager.fsm = s.engine.manager.fsm ∧
      s'.engine.manager.lastSeq = s.engine.manager.lastSeq ∧
      s.engine.manager.walog.nextLogIndex ≤ s'.engine.manager.walog.nextLogIndex ∧
      s'.applied = s.applied ∧
      ∀ seq cmd, reply = some (.ok seq) → s.command (.submit t id) = some cmd →
        ∃ o, s.engine.manager.fsm.precheck cmd = .ok o ∧ o.status ≠ .aborted ∧
          seq = o.commitSeq) ∨
    ∃ cmd o, s.command (.submit t id) = some cmd ∧
      s.engine.manager.fsm.apply s.engine.manager.walog.nextLogIndex cmd =
        .ok (s'.engine.manager.fsm, o) ∧
      s'.engine.manager.lastSeq = s.engine.manager.walog.nextLogIndex ∧
      s'.engine.manager.walog.nextLogIndex = s.engine.manager.walog.nextLogIndex + 1 ∧
      s'.applied = s.applied ++ [(s.engine.manager.walog.nextLogIndex, cmd)] ∧
      ∀ seq, reply = some (.ok seq) → o.status ≠ .aborted ∧ seq = o.commitSeq := by
  obtain ⟨rfl, rfl⟩ : s.note (.submit t id) (s.engine.commit t id fault).1 = s' ∧
      some (commitReply (s.engine.commit t id fault).2) = reply := Prod.mk.inj h
  by_cases hactive : ∃ y, s.engine.txns t = some y ∧ y.state = .active
  case neg =>
    obtain ⟨hsame, herror⟩ := commit_inactive id fault (e := s.engine) (t := t)
      fun y hy hstate => hactive ⟨y, hy, hstate⟩
    refine .inl ⟨by rw [note, hsame], by rw [note, hsame], by rw [note, hsame], ?_, ?_⟩
    · rw [note, hsame, if_pos rfl]
    · exact fun seq cmd hreply => absurd (some.inj hreply) (herror seq)
  case pos =>
    obtain ⟨y, hy, hstate⟩ := hactive
    obtain ⟨hmanager, hok⟩ := commit_active id fault hy hstate
    by_cases hwrites : y.localWrites = []
    · -- Nothing was written: the manager does nothing, and no command is handed in.
      have hnothing : (s.engine.commit t id fault).1.manager = s.engine.manager := by
        rw [hmanager, Manager.commit, if_pos hwrites]
      refine .inl ⟨congrArg (·.fsm) hnothing, congrArg (·.lastSeq) hnothing, ?_, ?_, ?_⟩
      · exact (congrArg (·.walog.nextLogIndex) hnothing).ge
      · rw [note, hnothing, if_pos rfl]
      · intro seq cmd _ hcmd
        simp [command, hy, hwrites] at hcmd
    · have hcmd : s.command (.submit t id) = some ⟨id, y.id, y.startSeq, y.localWrites⟩ := by
        simp [command, hy, hstate, hwrites]
      have hne : (⟨id, y.id, y.startSeq, y.localWrites⟩ : CommitTxnCommand).mutations ≠ [] :=
        hwrites
      rcases commit_cases s.engine.manager fault hne with
        ⟨hfsm, hlast, hnext, hcheck⟩ | ⟨o, happly, hlast, hnext, ho⟩
      · rw [← hmanager] at hfsm hlast hnext
        refine .inl ⟨hfsm, hlast, hnext, by rw [note, if_pos hlast], fun seq cmd hreply hcmd' => ?_⟩
        obtain ⟨o, hr, hseq⟩ := hok seq (some.inj hreply)
        obtain ⟨hprecheck, hstatus⟩ := hcheck o hr
        cases hcmd.symm.trans hcmd'
        exact ⟨o, hprecheck, hstatus, hseq⟩
      · rw [← hmanager] at happly hlast hnext
        refine .inr ⟨_, o, hcmd, happly, hlast, hnext, ?_, fun seq hreply => ?_⟩
        · rw [note, if_neg (by rw [hlast]; exact hbelow.ne'), hcmd, hlast]
          rfl
        · obtain ⟨o', hr, hseq⟩ := hok seq (some.inj hreply)
          obtain ⟨rfl, hstatus⟩ := ho o' hr
          exact ⟨hstatus, hseq⟩

theorem handle_manager (fault : Option Fault) (s : Standalone) {op : Op} (hop : ¬op.IsSubmit) :
    (s.handle fault op).1.engine.manager.fsm = s.engine.manager.fsm ∧
      (s.handle fault op).1.engine.manager.lastSeq = s.engine.manager.lastSeq ∧
      (s.handle fault op).1.engine.manager.walog = s.engine.manager.walog ∧
      (s.handle fault op).1.applied = s.applied := by
  cases op with
  | start | lookup | read | scan | await => exact ⟨rfl, rfl, rfl, rfl⟩
  | write t key value =>
    have hmanager : (s.engine.write t key value).1.manager = s.engine.manager := by
      rw [Engine.write]
      rcases onTxn_cases s.engine t fun y => (s.engine.set t (y.recordWriteLocked key value),
        .done) with ⟨hsame, -⟩ | ⟨y, -, -, heq⟩
      · rw [hsame]
      · rw [heq]
        rfl
    exact ⟨congrArg (·.fsm) hmanager, congrArg (·.lastSeq) hmanager,
      congrArg (·.walog) hmanager, rfl⟩
  | abort t =>
    have hmanager : (s.engine.abort t).1.manager = s.engine.manager := by
      rw [Engine.abort]
      rcases onTxn_cases s.engine t fun y => (s.engine.set t (y.close .aborted), .done) with
        ⟨hsame, -⟩ | ⟨y, -, -, heq⟩
      · rw [hsame]
      · rw [heq]
        rfl
    exact ⟨congrArg (·.fsm) hmanager, congrArg (·.lastSeq) hmanager,
      congrArg (·.walog) hmanager, rfl⟩
  | submit => exact absurd trivial hop

structure Fact (s : Standalone) (x : Made) : Prop where
  submit : ∀ {t id seq}, x.exchange = ⟨.submit t id, some (.ok seq)⟩ → x.command.isSome →
    s.RecordedCommitted id seq
  await : ∀ {t id seq}, x.exchange ≠ ⟨.await t id, .ok seq⟩
  lookup : ∀ {id outcome}, x.exchange = ⟨.lookup id, some outcome⟩ → outcome.committed = true →
    s.RecordedCommitted id outcome.commitSeq

theorem Fact.mono {x : Made} (h : Fact s x)
    (hkeep : ∀ id entry, s.engine.manager.fsm.outcomes.get id = some entry →
      s'.engine.manager.fsm.outcomes.get id = some entry) : Fact s' x where
  submit hx hcmd := by
    obtain ⟨entry, hget, hrest⟩ := h.submit hx hcmd
    exact ⟨entry, hkeep _ _ hget, hrest⟩
  await := h.await
  lookup hx hcommitted := by
    obtain ⟨entry, hget, hrest⟩ := h.lookup hx hcommitted
    exact ⟨entry, hkeep _ _ hget, hrest⟩

theorem committed_of_ne {o : Outcome} (haborted : o.status ≠ .aborted)
    (hstale : o.status ≠ .abortedStale) : o.status = .committed := by
  cases hstatus : o.status with
  | committed => rfl
  | aborted => exact absurd hstatus haborted
  | abortedStale => exact absurd hstatus hstale

theorem Sound.submit (h : Sound cmds s)
    {fault : Option Fault} {reply : Option (Except EngineError Nat)}
    (hstep : s.handle fault (.submit t id) = (s', reply)) :
    Sound (cmds ++ (s.command (.submit t id)).toList) s' ∧
      (∀ seq, reply = some (.ok seq) → (s.command (.submit t id)).isSome →
        s'.RecordedCommitted id seq) ∧
      ∀ id entry, s.engine.manager.fsm.outcomes.get id = some entry →
        s'.engine.manager.fsm.outcomes.get id = some entry := by
  have hmore := h.mono fun cmd hcmd =>
    mem_append_left (s.command (.submit t id)).toList hcmd
  have hid : ∀ {cmd}, s.command (.submit t id) = some cmd → cmd.requestID = id := by
    intro cmd hcmd
    simp only [command] at hcmd
    split at hcmd
    · cases hcmd
    · split at hcmd <;> cases hcmd
      rfl
  rcases submit_cases h.below hstep with ⟨hfsm, hlast, hnext, happlied, hreply⟩ |
    ⟨cmd, o, hcmd, happly, hlast, hnext, happlied, hreply⟩
  · refine ⟨hmore.congr hfsm hlast hnext happlied, fun seq hseq hsome => ?_, ?_⟩
    · obtain ⟨cmd, hcmd⟩ := isSome_iff_exists.mp hsome
      obtain ⟨o, hcheck, hstatus, rfl⟩ := hreply seq cmd hseq hcmd
      rw [FSM.precheck] at hcheck
      split at hcheck
      · cases hcheck
      · rename_i entry hget
        split at hcheck
        · cases hcheck
        · cases hcheck
          rw [hid hcmd] at hget
          refine ⟨entry, hfsm ▸ hget, ?_, rfl⟩
          exact committed_of_ne hstatus (h.decided hget).1
    · rw [hfsm]
      exact fun _ _ hget => hget
  · have hsound := hmore.apply (by simp [hcmd]) happly hlast hnext happlied
    have hkeep : ∀ id entry, s.engine.manager.fsm.outcomes.get id = some entry →
        s'.engine.manager.fsm.outcomes.get id = some entry := by
      intro id' entry hget
      rcases FSM.apply_cases happly with ⟨hsame, -⟩ | ⟨hnew, -, hinsert, -⟩
      · exact hsame ▸ hget
      · rw [hinsert, SortedMap.get_insert, if_neg]
        · exact hget
        · rintro rfl
          rw [hnew] at hget
          cases hget
    refine ⟨hsound, fun seq hseq _ => ?_, hkeep⟩
    obtain ⟨hstatus, rfl⟩ := hreply seq hseq
    have hget : s'.engine.manager.fsm.outcomes.get id = some ⟨o, fingerprintOf cmd⟩ := by
      rcases FSM.apply_cases happly with ⟨hsame, hget⟩ | ⟨-, -, hinsert, -⟩
      · rw [hsame, ← hid hcmd, hget]
      · rw [hinsert, SortedMap.get_insert, if_pos (hid hcmd).symm]
    exact ⟨_, hget, committed_of_ne hstatus (hsound.decided hget).1, rfl⟩

theorem ledger : Ledger model Sound Fact where
  more cmd h := h.mono fun cmd hmem => mem_append_left _ hmem
  step {cmds s op reply s'} h hstep := by
    obtain ⟨fault, hstep⟩ := hstep
    by_cases hop : op.IsSubmit
    · cases op with
      | submit t id =>
        obtain ⟨hsound, hreply, hkeep⟩ := h.submit hstep
        refine ⟨hsound, ⟨fun {t' id' seq} hx hcmd => ?_, fun hx => ?_, fun {id' o} hx => ?_⟩,
          fun x hx => hx.mono hkeep⟩
        · cases hx
          exact hreply seq rfl hcmd
        · cases hx
        · cases hx
      | start | lookup | read | scan | write | await | abort => exact hop.elim
    · obtain ⟨hfsm, hlast, hlog, happlied⟩ := handle_manager fault s hop
      rw [hstep] at hfsm hlast hlog happlied
      have hsound := h.congr hfsm hlast (by rw [hlog]) happlied
      refine ⟨hsound.mono fun cmd hmem => mem_append_left _ hmem,
        ⟨fun {t' id' seq} hx => ?_, fun {t' id' seq} hx => ?_, fun {id' o} hx hcommitted => ?_⟩,
        fun x hx => hx.mono fun id entry hget => ?_⟩
      · cases hx
        exact absurd trivial hop
      · cases hx
        cases hstep
      · cases hx
        have hreply : (s.engine.manager.getRequestOutcome id').map requestOutcome = some o :=
          congrArg Prod.snd hstep
        obtain ⟨o', ho', rfl⟩ := map_eq_some_iff.mp hreply
        obtain ⟨entry, hget, rfl⟩ := map_eq_some_iff.mp ho'
        exact ⟨entry, hfsm ▸ hget, of_decide_eq_true hcommitted, rfl⟩
      · exact hfsm ▸ hget
  environment h henv := henv.elim

theorem Sound.committedAt (h : Sound cmds s) (hr : s.RecordedCommitted id seq) :
    ∃ cmd ∈ cmds, s.CommittedAt seq cmd ∧ cmd.requestID = id := by
  obtain ⟨entry, hget, hstatus, rfl⟩ := hr
  obtain ⟨-, n, cmd, hmem, rfl, hseq⟩ := h.decided hget
  obtain rfl := hseq hstatus
  exact ⟨cmd, h.handed hmem, ⟨hmem, entry, hget, hstatus, rfl⟩, rfl⟩

theorem sound_fresh {maxSize : Nat} {nodeID : Bytes} (hid : nodeID.length < 2 ^ 16)
    (hfresh : Engine.fresh maxSize nodeID = .ok e) : Sound [] ⟨e, []⟩ := by
  obtain ⟨h, -⟩ := Transactions.simulates_fresh hid hfresh
  refine ⟨h.watermark.1, ?_, fun {id entry} hget => ?_, fun hmem => by cases hmem⟩
  · change e.manager.lastSeq < e.manager.walog.nextLogIndex
    rw [h.lastSeq, h.logged.next]
    exact Nat.lt_succ_self _
  · obtain ⟨cmd, hmem, -⟩ := h.known id entry hget
    cases hmem

end Standalone

/-! ## The statement that has happened -/

/-- Every command with the RequestID was handed in by a statement with this text. -/
def World.OneText {σ : Type} (w : World σ) (id : RequestID) (text : Bytes) : Prop :=
  ∀ sub ∈ w.submissions, sub.command.requestID = id → sub.text = some text

variable {σ : Type} {w : World σ}

theorem World.OneText.exists_submission (h : w.OneText id text) (hcmd : cmd ∈ w.commands)
    (hid : cmd.requestID = id) :
    ∃ sub ∈ w.submissions, sub.text = some text ∧ sub.command = cmd := by
  obtain ⟨sub, hsub, rfl⟩ := mem_map.mp hcmd
  exact ⟨sub, hsub, h sub hsub hid, rfl⟩

/-- The statement of client 0 has this text, changes something outside a transaction, and is
about to return `seq`. -/
def returning {σ : Type} (text : Bytes) (seq : Nat) (w : World σ) : Bool :=
  (w.answer 0).any fun (r, result) =>
    r.text = text && r.txn = none && (parse text).toOption.any isMutatingStatement &&
      result.commitSeq = seq

theorem returns_of_returning (h : returning text seq w = true) :
    ∃ r, (w.clients 0).running = some r ∧ r.text = text ∧ r.Returns seq := by
  rw [returning, Option.any_eq_true] at h
  obtain ⟨⟨r, result⟩, hanswer, h⟩ := h
  simp only [Bool.and_eq_true, decide_eq_true_eq] at h
  obtain ⟨⟨⟨rfl, htxn⟩, hmutating⟩, hseq⟩ := h
  obtain ⟨hrunning, txn, hscript⟩ := World.answer_eq_some hanswer
  refine ⟨r, hrunning, rfl, htxn, ?_, result, txn, hscript, hseq⟩
  cases hparse : parse r.text with
  | error e => simp [hparse, Except.toOption] at hmutating
  | ok stmt => exact ⟨stmt, rfl, by simpa [hparse, Except.toOption] using hmutating⟩

def insertText : Bytes := ascii "INSERT INTO t VALUES (7)"

def reused (text : Bytes) : List (World.Act Empty) :=
  [.submit 0 Replicated.tableText [1], .call 0, .call 0, .call 0, .call 0, .call 0, .reply 0,
    .submit 0 text [1], .call 0, .call 0, .call 0]

def standaloneNode : Bytes := List.replicate 32 97

theorem exists_reused {test : World Standalone → Bool}
    (h : (Engine.fresh 0 standaloneNode).toOption.any (fun e =>
      ((reused text).foldlM (World.play Standalone.player) (.init ⟨e, []⟩)).any test) = true) :
    ∃ e w events, Engine.fresh 0 standaloneNode = .ok e ∧
      Run Standalone.model (.init ⟨e, []⟩) events w ∧ test w = true := by
  cases hfresh : Engine.fresh 0 standaloneNode with
  | error err => simp [hfresh, Except.toOption] at h
  | ok e =>
    rw [hfresh] at h
    obtain ⟨w, events, hrun, htest⟩ := World.exists_run Standalone.player h
    exact ⟨e, w, events, rfl, hrun, htest⟩

theorem oneText_of_all (h : w.submissions.all (·.text = some text) = true) (id : RequestID) :
    w.OneText id text := by
  intro sub hsub _
  simpa using all_eq_true.mp h sub hsub

end ChronicleDB.Sql
