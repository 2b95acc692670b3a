import ChronicleDB.Sql.Engines

/-!
# What a successful commit says

The outcome that a statement reports against what the state machine has recorded
for it, on both engines.
-/

namespace ChronicleDB.Sql

open Foundation Fsm List Function
open Node (Applier)
open Raft (Entry)
open Transactions (Engine Fault Txn CommitError)
open World (Run Step)

variable {s s' : Replicated} {cmds : List CommitTxnCommand} {cmd : CommitTxnCommand}
    {id : RequestID} {seq : Nat}

/-! ## Facts about calls -/

/-- What an engine keeps, and what it keeps true of each call that was made on it. -/
structure Ledger {σ : Type} (M : Model σ) (I : List CommitTxnCommand → σ → Prop)
    (Fact : σ → Made → Prop) : Prop where
  more : ∀ {cmds e} (cmd : CommitTxnCommand), I cmds e → I (cmds ++ [cmd]) e
  step : ∀ {cmds e op reply e'}, I cmds e → M.step e op reply e' →
    I (cmds ++ (M.command e op).toList) e' ∧ Fact e' ⟨⟨op, reply⟩, M.command e op⟩ ∧
      ∀ x, Fact e x → Fact e' x
  environment : ∀ {cmds e e'}, I cmds e → M.environment cmds e e' →
    I cmds e' ∧ ∀ x, Fact e x → Fact e' x

namespace World

variable {σ : Type} {M : Model σ} {I : List CommitTxnCommand → σ → Prop} {Fact : σ → Made → Prop}

def Keeps (I : List CommitTxnCommand → σ → Prop) (Fact : σ → Made → Prop) (w : World σ) : Prop :=
  I w.commands w.engine ∧
    ∀ c r, (w.clients c).running = some r → ∀ x ∈ r.trace, Fact w.engine x

theorem Step.keeps (hl : Ledger M I Fact) {w w' : World σ} {event : Option Event}
    (hs : Step M w event w') (h : w.Keeps I Fact) : w'.Keeps I Fact := by
  obtain ⟨hinv, hfacts⟩ := h
  cases hs with
  | @submit c' text id hidle =>
    refine ⟨hinv, fun c r hr x hx => ?_⟩
    by_cases hc : c = c'
    · subst hc
      simp only [setClient, update_self, Option.some.injEq] at hr
      subst hr
      cases hx
    · exact hfacts c r (by simpa [setClient, update_of_ne hc] using hr) x hx
  | @call c' r' op next reply e hrunning hscript hstep =>
    obtain ⟨hinv', hfact, hold⟩ := hl.step hinv hstep
    refine ⟨?_, fun c r hr x hx => ?_⟩
    · have hcmds : ∀ o : Option CommitTxnCommand,
          (w.submissions ++ (o.map fun cmd => (⟨some r'.text, cmd⟩ : Submission)).toList).map
            (·.command) = w.commands ++ o.toList := by
        rintro (_ | cmd) <;> simp [commands]
      rw [← hcmds] at hinv'
      exact hinv'
    · by_cases hc : c = c'
      · subst hc
        simp only [setClient, update_self, Option.some.injEq] at hr
        subst hr
        rcases mem_append.mp hx with hx | hx
        · exact hold x (hfacts c r' hrunning x hx)
        · obtain rfl := mem_singleton.mp hx
          exact hfact
      · exact hold x (hfacts c r (by simpa [setClient, update_of_ne hc] using hr) x hx)
  | @reply c' r' result txn hrunning hscript =>
    refine ⟨hinv, fun c r hr x hx => ?_⟩
    by_cases hc : c = c'
    · subst hc
      simp [setClient] at hr
    · exact hfacts c r (by simpa [setClient, update_of_ne hc] using hr) x hx
  | other sub =>
    refine ⟨?_, hfacts⟩
    have := hl.more sub.command hinv
    simpa [commands] using this
  | environment henv =>
    obtain ⟨hinv', hold⟩ := hl.environment hinv henv
    exact ⟨hinv', fun c r hr x hx => hold x (hfacts c r hr x hx)⟩

theorem Run.keeps (hl : Ledger M I Fact) {w₀ w : World σ} (hidle : w₀.Idle)
    (hinit : I w₀.commands w₀.engine) {events : List Event} (hrun : Run M w₀ events w) :
    w.Keeps I Fact :=
  hrun.invariant ⟨hinit, fun c r hr => by simp [hidle c] at hr⟩ fun _ _ _ h hs => hs.keeps hl h

end World

/-! ## The node -/

namespace Replicated

theorem applyEntry_cases {a a' : Applier} {e : Entry} {r : Option (RequestID × Outcome)}
    (hindex : a.appliedIndex < e.index) (h : a.applyEntry e = .ok (a', r)) :
    (carried e = none ∧ a'.fsm.outcomes = a.fsm.outcomes) ∨
      ∃ cmd o, carried e = some cmd ∧ a.fsm.apply e.index cmd = .ok (a'.fsm, o) ∧
        r = some (cmd.requestID, o) := by
  rw [Applier.applyEntry, if_neg (Nat.not_le.mpr hindex)] at h
  cases htype : e.type with
  | config =>
    rw [htype] at h
    refine .inl ⟨by rw [carried, htype], ?_⟩
    simp only [Applier.applyConfigEntry] at h
    split at h
    · cases h
    split at h
    · cases h
      rfl
    split at h
    · cases h
    split at h
    · cases h
    rename_i fsm outcome hrecord
    cases h
    exact FSM.outcomes_recordMembershipOutcome hrecord
  | normal =>
    rw [htype] at h
    dsimp only at h
    split at h
    case isTrue hcontrol =>
      refine .inl ⟨by rw [carried, htype]; simp [hcontrol], ?_⟩
      rw [Applier.applyControlEntry] at h
      split at h
      · cases h
      split at h
      · rw [Applier.applySetClusterVersionEntry] at h
        split at h
        · cases h
        split at h
        · cases h
        cases h
        exact FSM.outcomes_applySetClusterVersion _ _ _
      split at h
      · rw [Applier.applyAdvanceGCWatermarkEntry] at h
        split at h
        · cases h
        split at h
        · cases h
        cases h
        exact FSM.outcomes_applyAdvanceGCWatermark _ _ _
      · cases h
    case isFalse hcontrol =>
      rw [Applier.applyCommitEntry] at h
      split at h
      · cases h
      rename_i cmd hdecode
      split at h
      · cases h
      rename_i fsm outcome happly
      cases h
      exact .inr ⟨cmd, outcome, by rw [carried, htype]; simp [hcontrol, hdecode, Except.toOption],
        happly, rfl⟩

def CommittedAt (s : Replicated) (c : Nat) (cmd : CommitTxnCommand) : Prop :=
  ∃ ent o, (ent, some (cmd.requestID, o)) ∈ s.results ∧ carried ent = some cmd ∧ ent.index = c ∧
    o.status = .committed ∧ o.commitSeq = c

structure Sound (cmds : List CommitTxnCommand) (s : Replicated) : Prop where
  requestID : ∀ {ent id o cmd}, (ent, some (id, o)) ∈ s.results → carried ent = some cmd →
    cmd.requestID = id
  recorded : ∀ {ent id o cmd}, (ent, some (id, o)) ∈ s.results → carried ent = some cmd →
    s.applier.fsm.outcomes.get id = some ⟨o, fingerprintOf cmd⟩
  decided : ∀ {id entry}, s.applier.fsm.outcomes.get id = some entry →
    ∃ ent cmd, (ent, some (id, entry.outcome)) ∈ s.results ∧ carried ent = some cmd ∧
      cmd.requestID = id ∧
      (entry.outcome.status = .committed → entry.outcome.commitSeq = ent.index)
  handed : ∀ {ent r cmd}, (ent, r) ∈ s.results → carried ent = some cmd → cmd ∈ cmds

theorem sound_fresh : Sound [] fresh where
  requestID hmem := by cases hmem
  recorded hmem := by cases hmem
  decided hget := by cases hget
  handed hmem := by cases hmem

theorem Sound.congr (h : Sound cmds s)
    (hfsm : s'.applier = s.applier) (hresults : s'.results = s.results) : Sound cmds s' where
  requestID := by rw [hresults]; exact h.requestID
  recorded := by rw [hfsm, hresults]; exact h.recorded
  decided := by rw [hfsm, hresults]; exact h.decided
  handed := by rw [hresults]; exact h.handed

theorem Sound.mono {cmds' : List CommitTxnCommand} (h : Sound cmds s)
    (hsub : ∀ cmd ∈ cmds, cmd ∈ cmds') : Sound cmds' s :=
  ⟨h.requestID, h.recorded, h.decided, fun hmem hcarried => hsub _ (h.handed hmem hcarried)⟩

theorem Sound.applies (h : Sound cmds s) (henv : Applies cmds s s') : Sound cmds s' := by
  obtain ⟨e, a, r, hindex, happly, hhanded, rfl⟩ := henv
  have hlast : ∀ {ent : Entry} {r' : Option (RequestID × Outcome)},
      (ent, r') ∈ s.results ++ [(e, r)] → (ent, r') ∈ s.results ∨ ent = e ∧ r' = r := by
    intro ent r' hmem
    simpa using hmem
  have hhanded' : ∀ {ent r' cmd}, (ent, r') ∈ s.results ++ [(e, r)] → carried ent = some cmd →
      cmd ∈ cmds := by
    intro ent r' cmd hmem hcarried
    rcases hlast hmem with hold | ⟨rfl, -⟩
    · exact h.handed hold hcarried
    · exact hhanded cmd hcarried
  rcases applyEntry_cases (by omega) happly with ⟨hnone, hout⟩ | ⟨cmd, o, hcarried, hfsm, rfl⟩
  · refine ⟨fun {ent id o cmd} hmem hcarried => ?_, fun {ent id o cmd} hmem hcarried => ?_,
      fun {id entry} hget => ?_, hhanded'⟩
    · rcases hlast hmem with hold | ⟨rfl, -⟩
      · exact h.requestID hold hcarried
      · rw [hnone] at hcarried
        cases hcarried
    · rcases hlast hmem with hold | ⟨rfl, -⟩
      · exact hout ▸ h.recorded hold hcarried
      · rw [hnone] at hcarried
        cases hcarried
    · obtain ⟨ent, cmd, hmem, hrest⟩ := h.decided (hout ▸ hget)
      exact ⟨ent, cmd, mem_append_left _ hmem, hrest⟩
  · have hrequest : ∀ {ent id o' cmd'}, (ent, some (id, o')) ∈ s.results ++ [(e, some (cmd.requestID, o))] →
        carried ent = some cmd' → cmd'.requestID = id := by
      intro ent id o' cmd' hmem hcarried'
      rcases hlast hmem with hold | ⟨rfl, hr⟩
      · exact h.requestID hold hcarried'
      · rw [hcarried] at hcarried'
        cases hcarried'
        cases hr
        rfl
    rcases FSM.apply_cases hfsm with ⟨hsame, hget⟩ | ⟨hnew, -, hinsert, hseq, -⟩
    · refine ⟨hrequest, fun {ent id o' cmd'} hmem hcarried' => ?_, fun {id entry} hget' => ?_, hhanded'⟩
      · change a.fsm.outcomes.get id = _
        rw [hsame]
        rcases hlast hmem with hold | ⟨rfl, hr⟩
        · exact h.recorded hold hcarried'
        · rw [hcarried] at hcarried'
          cases hcarried'
          cases hr
          exact hget
      · obtain ⟨ent, cmd', hmem, hrest⟩ := h.decided (hsame ▸ hget')
        exact ⟨ent, cmd', mem_append_left _ hmem, hrest⟩
    · refine ⟨hrequest, fun {ent id o' cmd'} hmem hcarried' => ?_, fun {id entry} hget' => ?_,
        hhanded'⟩
      · change a.fsm.outcomes.get id = _
        rw [hinsert, SortedMap.get_insert]
        rcases hlast hmem with hold | ⟨rfl, hr⟩
        · have hrec := h.recorded hold hcarried'
          have hne : id ≠ cmd.requestID := by
            rintro rfl
            rw [hnew] at hrec
            cases hrec
          rw [if_neg hne]
          exact hrec
        · rw [hcarried] at hcarried'
          cases hcarried'
          cases hr
          rw [if_pos rfl]
      · change a.fsm.outcomes.get id = _ at hget'
        rw [hinsert, SortedMap.get_insert] at hget'
        split at hget'
        case isTrue hid =>
          cases hget'
          exact ⟨e, cmd, by simp [hid], hcarried, hid.symm, hseq⟩
        case isFalse =>
          obtain ⟨ent, cmd', hmem, hrest⟩ := h.decided hget'
          exact ⟨ent, cmd', mem_append_left _ hmem, hrest⟩

theorem Sound.committedAt (h : Sound cmds s)
    {entry : OutcomeEntry} (hget : s.applier.fsm.outcomes.get id = some entry)
    (hstatus : entry.outcome.status = .committed) :
    ∃ cmd, s.CommittedAt entry.outcome.commitSeq cmd ∧ cmd.requestID = id := by
  obtain ⟨ent, cmd, hmem, hcarried, rfl, hseq⟩ := h.decided hget
  exact ⟨cmd, ⟨ent, entry.outcome, hmem, hcarried, (hseq hstatus).symm, hstatus, rfl⟩, rfl⟩

/-- Some entry with the RequestID has had an outcome that a commit reports as `seq`. -/
def Answered (s : Replicated) (id : RequestID) (seq : Nat) : Prop :=
  ∃ ent o, (ent, some (id, o)) ∈ s.results ∧ o.status ≠ .aborted ∧ seq = o.commitSeq

structure Fact (s : Replicated) (x : Made) : Prop where
  submit : ∀ {t id seq}, x.exchange = ⟨.submit t id, some (.ok seq)⟩ → ∀ cmd, x.command = some cmd →
    s.Answered id seq
  isSubmit : ∀ cmd, x.command = some cmd → x.exchange.op.IsSubmit
  await : ∀ {t id seq}, x.exchange = ⟨.await t id, .ok seq⟩ → s.Answered id seq
  lookup : ∀ {id outcome}, x.exchange = ⟨.lookup id, some outcome⟩ → outcome.committed = true →
    ∃ cmd, s.CommittedAt outcome.commitSeq cmd ∧ cmd.requestID = id

theorem Fact.mono {x : Made} (h : Fact s x)
    (hresults : ∀ y ∈ s.results, y ∈ s'.results) : Fact s' x where
  submit hx cmd hcmd := by
    obtain ⟨ent, o, hmem, hrest⟩ := h.submit hx cmd hcmd
    exact ⟨ent, o, hresults _ hmem, hrest⟩
  isSubmit := h.isSubmit
  await hx := by
    obtain ⟨ent, o, hmem, hrest⟩ := h.await hx
    exact ⟨ent, o, hresults _ hmem, hrest⟩
  lookup hx hcommitted := by
    obtain ⟨cmd, ⟨ent, o, hmem, hrest⟩, hid⟩ := h.lookup hx hcommitted
    exact ⟨cmd, ⟨ent, o, hresults _ hmem, hrest⟩, hid⟩

theorem conclude_ok {startSeq : Nat} {o : Outcome} (h : conclude startSeq o = .ok seq) :
    o.status ≠ .aborted ∧ seq = o.commitSeq := by
  rw [conclude] at h
  split at h
  case isTrue => cases h
  case isFalse hne =>
    cases h
    exact ⟨hne, rfl⟩

theorem command_isSubmit {op : Op} (h : s.command op = some cmd) : op.IsSubmit := by
  cases op with
  | submit => trivial
  | start | lookup | read | scan | write | await | abort => cases h

theorem command_requestID {t : Nat} (h : s.command (.submit t id) = some cmd) :
    cmd.requestID = id := by
  rw [command] at h
  split at h
  · cases h
  · split at h <;> cases h
    rfl

/-- A call moves only the transactions, and what it replies has its fact. -/
theorem Step.fact {op : Op} {reply : op.Reply} (h : Sound cmds s) (hstep : Step s op reply s') :
    s'.applier = s.applier ∧ s'.results = s.results ∧
      Fact s' ⟨⟨op, reply⟩, s.command op⟩ := by
  have hsub : ∀ cmd, s.command op = some cmd → op.IsSubmit := fun cmd hcmd => command_isSubmit hcmd
  cases hstep with
  | start | startFailed | read | scan | write | submitFailed | submitMismatch | submitWait
  | awaitFailed | abort =>
    refine ⟨rfl, rfl, ?_, hsub, ?_, ?_⟩
    all_goals
      intros
      rename_i hx
      simp_all
  | lookup id =>
    refine ⟨rfl, rfl, (by rintro t id' seq ⟨⟩), hsub, (by rintro t id' seq ⟨⟩), ?_⟩
    intro id' outcome hx hcommitted
    obtain ⟨hop, hreply⟩ := Program.Exchange.mk.inj hx
    obtain rfl : id = id' := by simpa using hop
    have hget : (s.applier.fsm.getOutcome id).map requestOutcome = some outcome := eq_of_heq hreply
    obtain ⟨o, ho, rfl⟩ := Option.map_eq_some_iff.mp hget
    obtain ⟨entry, hentry, rfl⟩ := Option.map_eq_some_iff.mp ho
    exact h.committedAt hentry (by simpa [requestOutcome] using hcommitted)
  | submitEmpty ht id hempty =>
    refine ⟨rfl, rfl, fun _ cmd hcmd => ?_, hsub, (by rintro t id' seq ⟨⟩), (by rintro id' o ⟨⟩)⟩
    rw [hempty] at hcmd
    cases hcmd
  | @submitKnown t id cmd o hcmd hcheck =>
    refine ⟨rfl, rfl, fun {t' id' seq} hx cmd' hcmd' => ?_, hsub, (by rintro t id' seq ⟨⟩),
      (by rintro id' o ⟨⟩)⟩
    obtain ⟨hop, hreply⟩ := Program.Exchange.mk.inj hx
    obtain ⟨rfl, rfl⟩ : t = t' ∧ id = id' := by simpa using hop
    have hok : conclude cmd.startSeq o = .ok seq := Option.some.inj (eq_of_heq hreply)
    obtain ⟨hne, hseq⟩ := conclude_ok hok
    rw [FSM.precheck] at hcheck
    split at hcheck
    · cases hcheck
    · rename_i entry hget
      split at hcheck
      · cases hcheck
      · cases hcheck
        obtain ⟨ent, cmd'', hmem, -⟩ := h.decided hget
        exact ⟨ent, entry.outcome, command_requestID hcmd ▸ hmem, hne, hseq⟩
  | @await t n cmd e o hwaiting hresult =>
    refine ⟨rfl, rfl, (by rintro t id' seq ⟨⟩), hsub, fun {t' id' seq} hx => ?_,
      (by rintro id' o ⟨⟩)⟩
    obtain ⟨hop, hreply⟩ := Program.Exchange.mk.inj hx
    obtain ⟨rfl, rfl⟩ : t = t' ∧ cmd.requestID = id' := by simpa using hop
    obtain ⟨hne, hseq⟩ := conclude_ok (eq_of_heq hreply)
    exact ⟨e, o, mem_of_mem_drop hresult, hne, hseq⟩

theorem ledger : Ledger model Sound Fact where
  more cmd h := h.mono fun cmd hmem => mem_append_left _ hmem
  step h hstep := by
    obtain ⟨happlier, hresults, hfact⟩ := Step.fact h hstep
    refine ⟨(h.congr happlier hresults).mono fun cmd hmem => mem_append_left _ hmem, hfact,
      fun x hx => hx.mono ?_⟩
    rw [hresults]
    exact fun y hy => hy
  environment h henv := by
    refine ⟨h.applies henv, fun x hx => hx.mono ?_⟩
    obtain ⟨e, a, r, -, -, -, rfl⟩ := henv
    exact fun y hy => mem_append_left _ hy

theorem answered_of_endsInCommit {wrote : Prop} {trace : List Made}
    (hfacts : ∀ x ∈ trace, Fact s x) (hends : EndsInCommit wrote id seq (trace.map Made.exchange))
    (hcmd : ∃ x ∈ trace, x.command = some cmd) : s.Answered id seq := by
  obtain ⟨pre, t, answer, htrace, hpre, -, hanswers⟩ := hends
  obtain ⟨x, hx, hxcmd⟩ := hcmd
  have hmem : x.exchange ∈ pre ++ answer := htrace ▸ mem_map_of_mem hx
  rcases hanswers with rfl | rfl
  · rcases mem_append.mp hmem with hmem | hmem
    · exact absurd ((hfacts x hx).isSubmit cmd hxcmd).ends (hpre _ hmem)
    · exact (hfacts x hx).submit (mem_singleton.mp hmem) cmd hxcmd
  · have hawait : (⟨.await t id, .ok seq⟩ : Program.Exchange Op.Reply) ∈
        trace.map Made.exchange := by
      rw [htrace]
      simp
    obtain ⟨y, hy, hyx⟩ := mem_map.mp hawait
    exact (hfacts y hy).await hyx

def RecordedCommitted (s : Replicated) (id : RequestID) (seq : Nat) : Prop :=
  ∃ entry, s.applier.fsm.outcomes.get id = some entry ∧ entry.outcome.status = .committed ∧
    entry.outcome.commitSeq = seq

def CommandCommitted (s : Replicated) (cmd : CommitTxnCommand) (seq : Nat) : Prop :=
  ∃ entry, s.applier.fsm.outcomes.get cmd.requestID = some entry ∧
    entry.fingerprint = fingerprintOf cmd ∧ entry.outcome.status = .committed ∧
    entry.outcome.commitSeq = seq

end Replicated

namespace Replicated

def tableText : Bytes := ascii "CREATE TABLE t (a INTEGER PRIMARY KEY)"

def finalized (n : Nat) : Entry :=
  ⟨n, 1, .normal, encodeSetClusterVersion ⟨[1, n.toUInt8], n⟩⟩

def electionNoOp (term : Nat) : CommitTxnCommand := ⟨[0, term.toUInt8], term, 0, []⟩

def commitEntry (index term : Nat) (cmd : CommitTxnCommand) : Entry :=
  ⟨index, term, .normal, encodeCommitTxn cmd⟩

def collected (index term watermark : Nat) : Entry :=
  ⟨index, term, .normal, encodeAdvanceGCWatermark ⟨[2], watermark, 100, 100⟩⟩

/-- The command of the statement, on a node that has applied three entries. -/
def tableCommand : CommitTxnCommand :=
  ⟨[9], txnIDFromRequestID [9], 3, [⟨schemaKey (ascii "t"),
    some (encodeSchema ⟨ascii "t", [⟨ascii "a", .integer⟩], 0⟩)⟩]⟩

def creating : List (World.Act Entry) :=
  [.environment (finalized 1), .environment (finalized 2), .environment (finalized 3),
    .submit 0 tableText [9], .call 0, .call 0, .call 0, .call 0]

def created : List (World.Act Entry) :=
  creating ++ [.call 0, .environment (commitEntry 4 1 tableCommand), .call 0]

/-- Another leader collects before the node leads again and the commit is handed in. -/
def collectedFirst : List (World.Act Entry) :=
  creating ++
    [.other ⟨none, electionNoOp 2⟩, .environment (commitEntry 4 2 (electionNoOp 2)),
      .environment (collected 5 2 4), .other ⟨none, electionNoOp 3⟩,
      .environment (commitEntry 6 3 (electionNoOp 3)), .call 0,
      .environment (commitEntry 7 3 tableCommand), .call 0]

/-- The statement of client 0 has handed in `cmd`, the only command of its RequestID that
was applied, and is about to return without an error. -/
def reports (cmd : CommitTxnCommand) (status : Status) (seq : Nat) (w : World Replicated) : Bool :=
  (w.answer 0).any fun (r, result) =>
    r.id = cmd.requestID && result.commitSeq = seq && r.trace.any (·.command = some cmd) &&
      w.engine.results.all (fun x => x.2.all fun y => y.1 ≠ cmd.requestID ∨ carried x.1 = some cmd) &&
      (w.engine.applier.fsm.getOutcome cmd.requestID).any (·.status = status)

theorem created_reports :
    (created.foldlM (World.play player) (.init fresh)).any (reports tableCommand .committed 4) =
      true := by
  decide +kernel

theorem collectedFirst_reports :
    (collectedFirst.foldlM (World.play player) (.init fresh)).any
      (reports tableCommand .abortedStale 0) = true := by
  decide +kernel

theorem answer_of_reports {status : Status}
    {w : World Replicated} (h : reports cmd status seq w = true) :
    ∃ r result txn, (w.clients 0).running = some r ∧ r.script = .done (.ok result, txn) ∧
      r.id = cmd.requestID ∧ result.commitSeq = seq ∧ (∃ x ∈ r.trace, x.command = some cmd) ∧
      (∀ ent o, (ent, some (r.id, o)) ∈ w.engine.results → carried ent = some cmd) ∧
      ∃ o, w.engine.applier.fsm.getOutcome r.id = some o ∧ o.status = status := by
  rw [reports, Option.any_eq_true] at h
  obtain ⟨⟨r, result⟩, hanswer, h⟩ := h
  simp only [Bool.and_eq_true, decide_eq_true_eq, any_eq_true, all_eq_true,
    Option.all_eq_true, Option.any_eq_true] at h
  obtain ⟨⟨⟨⟨hid, hseq⟩, hcmd⟩, hown⟩, houtcome⟩ := h
  obtain ⟨hrunning, txn, hscript⟩ := World.answer_eq_some hanswer
  refine ⟨r, result, txn, hrunning, hscript, hid, hseq, hcmd, fun ent o hmem => ?_, ?_⟩
  · exact (hown _ hmem _ rfl).resolve_left (absurd hid)
  · rw [hid]
    exact houtcome

end Replicated

end ChronicleDB.Sql
