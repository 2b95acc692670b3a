import ChronicleDB.Foundation.Scripts
import ChronicleDB.Node.Apply
import ChronicleDB.Node.Storage
import Mathlib.Logic.Function.Basic

/-!
# Proposals by clients

`Propose`, `handlePropose` and `proposeElectionNoOp` of `internal/node/node.go`,
and the logs that they lead to.  The replicas of a group agree on a log and how
much of it is committed; what is not committed may be lost when the leader
changes.  A call of `Propose` is checked against the state machine of the node
it was made on, and reaches the event loop of that node some time later.
-/

namespace ChronicleDB.Node

open Foundation Fsm List Function Applier
open Raft (Entry EntryType NodeID)

variable {cmds : List CommitTxnCommand} {es : List Entry} {i : Nat} {cmd : CommitTxnCommand}
    {a : Applier} {e : Entry}

/-! ## Election no-ops -/

/-- The text "\x00chronicledb-election-noop\x00". -/
def electionNoOpStem : Bytes :=
  0 :: ("chronicledb-election-noop".toList.map fun c => UInt8.ofNat c.toNat) ++ [0]

def decimal (n : Nat) : Bytes := (Nat.toDigits 10 n).map fun c => UInt8.ofNat c.toNat

def electionNoOp (id : NodeID) (term : Nat) : CommitTxnCommand :=
  ⟨electionNoOpStem ++ (id ++ 0 :: decimal term), term, 0, []⟩

/-! ## Groups -/

structure Member where
  applier : Applier
  failure : Option ApplyFailure

structure Group where
  log : List Entry
  committed : Nat
  members : NodeID → Member
  /-- The calls that have passed the check and wait for the event loop. -/
  calls : List (NodeID × CommitTxnCommand)

variable {g : Group}

inductive GroupAct where
  | call (n : NodeID) (cmd : CommitTxnCommand)
  | handle (n : NodeID) (term : Nat) (cmd : CommitTxnCommand)
  | elect (n : NodeID) (term : Nat)
  | commit (count : Nat)
  | lose (count : Nat)
  | apply (n : NodeID)
  | restart (n : NodeID)

/-- The numbers are `uint64`s, and the entry fits in a record of the log. -/
def Proposable (cmd : CommitTxnCommand) : Prop :=
  cmd.txnID < 2 ^ 64 ∧ cmd.startSeq < 2 ^ 64 ∧
    (encodeEntryPayload 0 .normal (encodeCommitTxn cmd)).length ≤ Wal.maxRecordPayloadSize

instance (cmd : CommitTxnCommand) : Decidable (Proposable cmd) :=
  inferInstanceAs (Decidable (_ ∧ _ ∧ _))

namespace Group

def fresh : Group := ⟨[], 0, fun _ => ⟨.fresh, none⟩, []⟩

def append (g : Group) (term : Nat) (cmd : CommitTxnCommand) : Group :=
  { g with log := g.log ++ [⟨g.log.length + 1, term, .normal, encodeCommitTxn cmd⟩] }

def applyNext (m : Member) (e : Entry) : Member :=
  match m.applier.applyEntry e with
  | .error f => { m with failure := some f }
  | .ok (a, _) => { m with applier := a }

def step (g : Group) : GroupAct → Option Group
  | .call n cmd =>
    if ¬Proposable cmd then none
    else match (g.members n).applier.fsm.precheck cmd with
      | .error .requestIDUnknown => some { g with calls := (n, cmd) :: g.calls }
      | _ => some g
  | .handle n term cmd =>
    if (n, cmd) ∈ g.calls then
      some { g.append term cmd with calls := g.calls.erase (n, cmd) }
    else none
  | .elect n term =>
    let cmd := electionNoOp n term
    if ¬Proposable cmd then none
    else match (g.members n).applier.fsm.precheck cmd with
      | .error .requestIDUnknown => some (g.append term cmd)
      | _ => some g
  | .commit count =>
    if g.committed ≤ count ∧ count ≤ g.log.length then some { g with committed := count }
    else none
  | .lose count =>
    if g.committed ≤ count then some { g with log := g.log.take count } else none
  | .apply n =>
    let m := g.members n
    if m.failure.isSome ∨ g.committed ≤ m.applier.appliedIndex then none
    else match g.log[m.applier.appliedIndex]? with
      | none => none
      | some e => some { g with members := Function.update g.members n (applyNext m e) }
  | .restart n => some { g with members := Function.update g.members n ⟨.fresh, none⟩ }

def Reachable (g : Group) : Prop :=
  Relation.ReflTransGen (fun g g' => ∃ a, step g a = some g') fresh g

def exec (g : Group) (acts : List GroupAct) : Option Group := acts.foldlM step g

def history (g : Group) : List CommitTxnCommand :=
  (g.log.take g.committed).filterMap fun e => (decodeCommitTxn e.data).toOption

/-- Nothing has stopped `n`, and nothing in the rest of the committed log will. -/
def Healthy (g : Group) (n : NodeID) : Prop :=
  (g.members n).failure = none ∧
    ((g.members n).applier.applyCommitted
      ((g.log.take g.committed).drop (g.members n).applier.appliedIndex)).isOk = true

end Group

/-! ## Logs of commands -/

def Carries : Nat → List Entry → List CommitTxnCommand → Prop
  | _, [], [] => True
  | i, e :: es, cmd :: cmds =>
    (e.index = i + 1 ∧ e.type = .normal ∧ e.data = encodeCommitTxn cmd ∧ cmd.Fits) ∧
      Carries (i + 1) es cmds
  | _, _, _ => False

def OneCommandPerID (cmds : List CommitTxnCommand) : Prop :=
  ∀ cmd ∈ cmds, ∀ cmd' ∈ cmds, cmd.requestID = cmd'.requestID →
    fingerprintOf cmd = fingerprintOf cmd'

theorem OneCommandPerID.left {more : List CommitTxnCommand} (h : OneCommandPerID (cmds ++ more)) :
    OneCommandPerID cmds := fun cmd hcmd cmd' hcmd' =>
  h cmd (mem_append_left _ hcmd) cmd' (mem_append_left _ hcmd')

structure Records (cmds : List CommitTxnCommand) (a : Applier) : Prop where
  appliedIndex_eq : a.appliedIndex = cmds.length
  below : a.fsm.store.Below (cmds.length + 1)
  sound : ∀ id entry, a.fsm.outcomes.get id = some entry →
    ∃ cmd ∈ cmds, cmd.requestID = id ∧ entry.fingerprint = fingerprintOf cmd
  complete : ∀ cmd ∈ cmds, ∃ entry, a.fsm.outcomes.get cmd.requestID = some entry ∧
    entry.fingerprint = fingerprintOf cmd

theorem records_fresh : Records [] .fresh where
  appliedIndex_eq := rfl
  below := Mvcc.Store.below_new _
  sound id entry hget := by simp [fresh, FSM.new] at hget
  complete := by simp

theorem Records.consistent (h : Records cmds a) :
    OneCommandPerID cmds := by
  intro cmd hcmd cmd' hcmd' hid
  obtain ⟨entry, hget, hfp⟩ := h.complete cmd hcmd
  obtain ⟨entry', hget', hfp'⟩ := h.complete cmd' hcmd'
  rw [hid, hget'] at hget
  rw [← hfp, ← hfp', Option.some.inj hget]

/-- The next command is applied if it agrees with those of its RequestID, and stops the
node otherwise. -/
theorem Records.applyEntry (h : Records cmds a) (hindex : e.index = cmds.length + 1)
    (htype : e.type = .normal) (hdata : e.data = encodeCommitTxn cmd) (hfits : cmd.Fits) :
    (OneCommandPerID (cmds ++ [cmd]) ∧
      ∃ a' r, a.applyEntry e = .ok (a', r) ∧ Records (cmds ++ [cmd]) a') ∨
    (¬OneCommandPerID (cmds ++ [cmd]) ∧ ∃ f, a.applyEntry e = .error f) := by
  have hbelow : a.fsm.store.Below e.index := hindex ▸ h.below
  rw [applyEntry_commit (by rw [h.appliedIndex_eq]; omega) htype hdata hfits]
  cases hget : a.fsm.outcomes.get cmd.requestID with
  | none =>
    obtain ⟨store, outcome, hdecision, hbelow'⟩ := FSM.decision_of_below hbelow cmd
    have hrecords : Records (cmds ++ [cmd])
        { a with fsm := a.fsm.record cmd store outcome, appliedIndex := e.index } := by
      refine ⟨by simp [hindex], ?_, fun id entry hrec => ?_, fun cmd' hcmd' => ?_⟩
      · simpa [FSM.record, hindex] using hbelow'
      · replace hrec : (a.fsm.outcomes.insert cmd.requestID _).get id = some entry := hrec
        rw [SortedMap.get_insert] at hrec
        split at hrec
        case isTrue hid =>
          exact ⟨cmd, by simp, hid.symm, by rw [← Option.some.inj hrec]⟩
        case isFalse =>
          obtain ⟨cmd', hcmd', hrest⟩ := h.sound id entry hrec
          exact ⟨cmd', mem_append_left _ hcmd', hrest⟩
      · change ∃ entry, (a.fsm.outcomes.insert cmd.requestID _).get _ = _ ∧ _
        rw [SortedMap.get_insert]
        rcases mem_append.mp hcmd' with hold | hnew
        · obtain ⟨entry, hentry, hfp⟩ := h.complete cmd' hold
          have hne : cmd'.requestID ≠ cmd.requestID := by
            intro hid
            rw [hid, hget] at hentry
            cases hentry
          rw [if_neg hne]
          exact ⟨entry, hentry, hfp⟩
        · obtain rfl := mem_singleton.mp hnew
          exact ⟨_, if_pos rfl, rfl⟩
    refine .inl ⟨hrecords.consistent, _, some (cmd.requestID, outcome), ?_, hrecords⟩
    rw [FSM.apply_of_unknown _ hget, hdecision]
    rfl
  | some entry =>
    obtain ⟨first, hfirst, hid, hfp⟩ := h.sound _ _ hget
    rw [FSM.apply_of_recorded _ hget]
    by_cases heq : entry.fingerprint = fingerprintOf cmd
    · rw [if_pos heq]
      have hrecords : Records (cmds ++ [cmd]) { a with appliedIndex := e.index } := by
        refine ⟨by simp [hindex], ?_, fun id entry hrec => ?_, fun cmd' hcmd' => ?_⟩
        · exact h.below.mono (by simp)
        · obtain ⟨cmd', hcmd', hrest⟩ := h.sound id entry hrec
          exact ⟨cmd', mem_append_left _ hcmd', hrest⟩
        · rcases mem_append.mp hcmd' with hold | hnew
          · exact h.complete cmd' hold
          · obtain rfl := mem_singleton.mp hnew
            exact ⟨entry, hget, heq⟩
      exact .inl ⟨hrecords.consistent, _, _, rfl, hrecords⟩
    · rw [if_neg heq]
      refine .inr ⟨fun hcons => heq ?_, _, rfl⟩
      rw [hfp]
      exact hcons first (mem_append_left _ hfirst) cmd (by simp) hid

theorem Records.applyCommitted {rest : List CommitTxnCommand}
    (h : Records cmds a) (hes : Carries cmds.length es rest) :
    (a.applyCommitted es).isOk = true ↔ OneCommandPerID (cmds ++ rest) := by
  induction es generalizing cmds rest a with
  | nil =>
    cases rest with
    | nil => simpa [applyCommitted, Except.isOk, Except.toBool] using h.consistent
    | cons cmd rest => exact hes.elim
  | cons e es ih =>
    cases rest with
    | nil => exact hes.elim
    | cons cmd rest =>
      obtain ⟨⟨hindex, htype, hdata, hfits⟩, hes⟩ := hes
      rw [applyCommitted, append_cons]
      rcases h.applyEntry hindex htype hdata hfits with
        ⟨_, a', r, happly, hrecords⟩ | ⟨hnot, f, happly⟩
      · rw [happly]
        exact ih hrecords (by simpa using hes)
      · rw [happly]
        refine iff_of_false (by simp [Except.isOk, Except.toBool]) fun hcons => hnot hcons.left

/-! ## Reachable groups -/

theorem Proposable.fits (h : Proposable cmd) : cmd.Fits := by
  obtain ⟨htxn, hstart, hsize⟩ := h
  refine ⟨htxn, hstart, ?_⟩
  simp only [encodeEntryPayload, length_append, length_putUint, Wal.maxRecordPayloadSize]
    at hsize
  omega

theorem Carries.length_eq (h : Carries i es cmds) : es.length = cmds.length := by
  induction es generalizing i cmds with
  | nil => cases cmds with
    | nil => rfl
    | cons => exact h.elim
  | cons e es ih => cases cmds with
    | nil => exact h.elim
    | cons => simp [ih h.2]

theorem Carries.append (h : Carries i es cmds)
    (hindex : e.index = i + es.length + 1) (htype : e.type = .normal)
    (hdata : e.data = encodeCommitTxn cmd) (hfits : cmd.Fits) :
    Carries i (es ++ [e]) (cmds ++ [cmd]) := by
  induction es generalizing i cmds with
  | nil => cases cmds with
    | nil => exact ⟨⟨by simpa using hindex, htype, hdata, hfits⟩, trivial⟩
    | cons => exact h.elim
  | cons e' es ih => cases cmds with
    | nil => exact h.elim
    | cons => exact ⟨h.1, ih h.2 (by rw [hindex, length_cons]; omega)⟩

theorem Carries.take (h : Carries i es cmds) (n : Nat) : Carries i (es.take n) (cmds.take n) := by
  induction n generalizing i es cmds with
  | zero => simp [Carries]
  | succ n ih =>
    cases es <;> cases cmds
    case nil.nil => trivial
    case nil.cons => exact h.elim
    case cons.nil => exact h.elim
    case cons.cons => exact ⟨h.1, ih h.2⟩

theorem Carries.drop (h : Carries i es cmds) {n : Nat} (hn : n ≤ es.length) :
    Carries (i + n) (es.drop n) (cmds.drop n) := by
  induction n generalizing i es cmds with
  | zero => exact h
  | succ n ih =>
    cases es <;> cases cmds
    case nil.nil => simp at hn
    case nil.cons => exact h.elim
    case cons.nil => exact h.elim
    case cons.cons =>
      rw [← Nat.add_assoc, Nat.add_right_comm]
      exact ih h.2 (by simpa using hn)

theorem Carries.commands_eq (h : Carries i es cmds) :
    (es.filterMap fun e => (decodeCommitTxn e.data).toOption) = cmds := by
  induction es generalizing i cmds with
  | nil => cases cmds with
    | nil => rfl
    | cons => exact h.elim
  | cons e es ih => cases cmds with
    | nil => exact h.elim
    | cons cmd cmds =>
      obtain ⟨⟨-, -, hdata, hfits⟩, hes⟩ := h
      rw [filterMap_cons_some (b := cmd), ih hes]
      rw [hdata, decodeCommitTxn_encode hfits]
      rfl

namespace Group

/-- A member has applied a part of the committed commands, or met two that disagree. -/
def Follows (history : List CommitTxnCommand) (m : Member) : Prop :=
  (m.failure = none ∧ m.applier.appliedIndex ≤ history.length ∧
    Records (history.take m.applier.appliedIndex) m.applier) ∨
  (m.failure.isSome = true ∧ ¬OneCommandPerID history)

/-- What every reachable group keeps: the log holds `cmds`, and every member follows
the committed part of it. -/
structure Agrees (g : Group) (cmds : List CommitTxnCommand) : Prop where
  holds : Carries 0 g.log cmds
  committed_le : g.committed ≤ cmds.length
  calls_fit : ∀ call ∈ g.calls, Proposable call.2
  follows : ∀ n, Follows (cmds.take g.committed) (g.members n)

theorem follows_fresh (history : List CommitTxnCommand) : Follows history ⟨.fresh, none⟩ :=
  .inl ⟨rfl, Nat.zero_le _, by simpa [Applier.fresh] using records_fresh⟩

theorem Follows.mono {history more : List CommitTxnCommand} {m : Member}
    (h : Follows history m) : Follows (history ++ more) m := by
  obtain ⟨hnone, hle, hrecords⟩ | ⟨hfailed, hnot⟩ := h
  · refine .inl ⟨hnone, by rw [length_append]; omega, ?_⟩
    rwa [take_append_of_le_length hle]
  · exact .inr ⟨hfailed, fun hcons => hnot hcons.left⟩

theorem Follows.applyNext {history : List CommitTxnCommand}
    (hes : Carries 0 es history) {m : Member} (h : Follows history m) (hnone : m.failure = none)
    (he : es[m.applier.appliedIndex]? = some e) : Follows history (applyNext m e) := by
  obtain ⟨-, hle, hrecords⟩ | ⟨hfailed, -⟩ := h
  case inr => simp [hnone] at hfailed
  set k := m.applier.appliedIndex with hk
  obtain ⟨hlt, rfl⟩ := List.getElem?_eq_some_iff.mp he
  have hlt' : k < history.length := hes.length_eq ▸ hlt
  have hlength : (history.take k).length = k := by simp [hle]
  have hrest := hes.drop hlt.le
  rw [List.drop_eq_getElem_cons hlt, List.drop_eq_getElem_cons hlt'] at hrest
  obtain ⟨hindex, htype, hdata, hfits⟩ := hrest.1
  have hnext : history.take k ++ [history[k]] = history.take (k + 1) := by simp
  rcases hrecords.applyEntry (by rw [hindex, hlength]; omega) htype hdata hfits with
    ⟨-, a', r, happly, hrecords'⟩ | ⟨hnot, f, happly⟩
  · rw [Group.applyNext, happly]
    rw [hnext] at hrecords'
    have happlied : a'.appliedIndex = k + 1 := by
      rw [hrecords'.appliedIndex_eq]
      simp [Nat.succ_le_of_lt hlt']
    exact .inl ⟨hnone, happlied ▸ Nat.succ_le_of_lt hlt', by simpa [happlied] using hrecords'⟩
  · rw [Group.applyNext, happly]
    refine .inr ⟨rfl, fun hcons => hnot ?_⟩
    rw [hnext]
    exact (List.take_append_drop (k + 1) history ▸ hcons).left

theorem agrees_fresh : Agrees fresh [] where
  holds := trivial
  committed_le := Nat.le_refl _
  calls_fit := by simp [fresh]
  follows n := follows_fresh _

theorem Agrees.append (h : g.Agrees cmds) (term : Nat) (hfits : cmd.Fits) :
    (g.append term cmd).Agrees (cmds ++ [cmd]) where
  holds := h.holds.append (by simp) rfl rfl hfits
  committed_le := by
    have := h.committed_le
    rw [length_append]
    exact Nat.le_add_right_of_le this
  calls_fit := h.calls_fit
  follows n := by
    change Follows ((cmds ++ [cmd]).take g.committed) (g.members n)
    rw [take_append_of_le_length h.committed_le]
    exact h.follows n

theorem Agrees.step {g' : Group} {a : GroupAct}
    (h : g.Agrees cmds) (hstep : g.step a = some g') : ∃ cmds', g'.Agrees cmds' := by
  have hlength := h.holds.length_eq
  cases a with
  | call n cmd =>
    simp only [Group.step, ite_not] at hstep
    split at hstep
    case isFalse => cases hstep
    case isTrue hok =>
      split at hstep <;> cases hstep
      · refine ⟨cmds, { h with calls_fit := fun call hcall => ?_ }⟩
        rcases mem_cons.mp hcall with rfl | hcall
        · exact hok
        · exact h.calls_fit call hcall
      · exact ⟨cmds, h⟩
  | handle n term cmd =>
    simp only [Group.step] at hstep
    split at hstep <;> cases hstep
    rename_i hmem
    exact ⟨_, { h.append term (h.calls_fit _ hmem).fits with
      calls_fit := fun call hcall => h.calls_fit call (mem_of_mem_erase hcall) }⟩
  | elect n term =>
    simp only [Group.step, ite_not] at hstep
    split at hstep
    case isFalse => cases hstep
    case isTrue hok =>
      split at hstep <;> cases hstep
      · exact ⟨_, h.append term hok.fits⟩
      · exact ⟨cmds, h⟩
  | commit count =>
    simp only [Group.step] at hstep
    split at hstep <;> cases hstep
    rename_i hcount
    refine ⟨cmds, { h with committed_le := hlength ▸ hcount.2, follows := fun n => ?_ }⟩
    change Follows (cmds.take count) _
    rw [← take_append_drop g.committed (cmds.take count), take_take, Nat.min_eq_left hcount.1]
    exact (h.follows n).mono
  | lose count =>
    simp only [Group.step] at hstep
    split at hstep <;> cases hstep
    rename_i hcount
    refine ⟨cmds.take count, h.holds.take count, ?_, h.calls_fit, fun n => ?_⟩
    · simp [hcount, h.committed_le]
    · change Follows ((cmds.take count).take g.committed) _
      rw [take_take, Nat.min_eq_left hcount]
      exact h.follows n
  | apply n =>
    simp only [Group.step] at hstep
    split at hstep
    case isTrue => cases hstep
    case isFalse hcan =>
      split at hstep <;> cases hstep
      rename_i e he
      refine ⟨cmds, { h with follows := fun k => ?_ }⟩
      simp only [not_or, Bool.not_eq_true, Option.isSome_eq_false_iff, Option.isNone_iff_eq_none,
        not_le] at hcan
      by_cases hk : k = n
      · subst hk
        simp only [update_self]
        refine (h.follows k).applyNext (h.holds.take g.committed) hcan.1 ?_
        rw [getElem?_take_of_lt hcan.2]
        exact he
      · simpa only [update_of_ne hk] using h.follows k
  | restart n =>
    cases hstep
    refine ⟨cmds, { h with follows := fun k => ?_ }⟩
    by_cases hk : k = n
    · subst hk
      simpa only [update_self] using follows_fresh _
    · simpa only [update_of_ne hk] using h.follows k

theorem Reachable.agrees (h : g.Reachable) : ∃ cmds, g.Agrees cmds := by
  induction h with
  | refl => exact ⟨[], agrees_fresh⟩
  | tail _ hstep ih =>
    obtain ⟨cmds, hagrees⟩ := ih
    obtain ⟨a, hstep⟩ := hstep
    exact hagrees.step hstep

theorem reachable_of_script {acts : List GroupAct} {test : Group → Bool}
    (h : (fresh.exec acts).any test = true) : ∃ g : Group, g.Reachable ∧ test g = true :=
  exists_of_foldlM_any (fun a _ _ _ hstep => ⟨a, hstep⟩) h

end Group

/-- In every reachable group, no replica is ever stopped by the committed log exactly when
no two committed commands share a RequestID and differ. -/
theorem replicas_healthy_iff {g : Group} (h : g.Reachable) (n : NodeID) :
    g.Healthy n ↔ OneCommandPerID g.history := by
  obtain ⟨cmds, hagrees⟩ := h.agrees
  have hcommitted := hagrees.holds.take g.committed
  rw [Group.history, hcommitted.commands_eq, Group.Healthy]
  obtain ⟨hnone, hle, hrecords⟩ | ⟨hfailed, hnot⟩ := hagrees.follows n
  · have hlength : (cmds.take g.committed).length = (g.log.take g.committed).length :=
      hcommitted.length_eq.symm
    have hrest := hcommitted.drop (hlength ▸ hle)
    rw [Nat.zero_add] at hrest
    have hiff := hrecords.applyCommitted (by rwa [List.length_take_of_le hle])
    rw [List.take_append_drop] at hiff
    rw [hiff]
    exact and_iff_right hnone
  · refine iff_of_false (fun hhealthy => ?_) hnot
    rw [hhealthy.1] at hfailed
    cases hfailed

def smallGroup : List GroupAct :=
  [.elect [97] 1, .call [97] ⟨[1], 1, 0, [⟨[2], some [3]⟩]⟩,
    .handle [97] 1 ⟨[1], 1, 0, [⟨[2], some [3]⟩]⟩, .commit 2, .apply [97], .apply [97]]

theorem smallGroup_healthy : ∃ g : Group, g.Reachable ∧ g.history.length = 2 ∧
    (g.Healthy [97] ↔ OneCommandPerID g.history) := by
  have hrun : (Group.fresh.exec smallGroup).any (fun g => g.history.length = 2) = true := by
    decide +kernel
  obtain ⟨g, hreach, hlength⟩ := Group.reachable_of_script hrun
  exact ⟨g, hreach, of_decide_eq_true hlength, replicas_healthy_iff hreach [97]⟩

/-- Two calls with the RequestID 1 are in flight at the node `a` with different contents;
both reach the log. -/
def collidingCalls : List GroupAct :=
  [.call [97] ⟨[1], 1, 0, [⟨[2], some [3]⟩]⟩, .call [97] ⟨[1], 1, 0, [⟨[2], none⟩]⟩,
    .handle [97] 1 ⟨[1], 1, 0, [⟨[2], some [3]⟩]⟩, .handle [97] 1 ⟨[1], 1, 0, [⟨[2], none⟩]⟩,
    .commit 2, .apply [97], .apply [97], .apply [98], .apply [98]]

theorem collidingCalls_stop_replicas : ∃ g : Group, g.Reachable ∧
    (g.members [97]).failure = some (.apply 2 (.requestIDPayloadMismatch [1])) ∧
    (g.members [98]).failure = some (.apply 2 (.requestIDPayloadMismatch [1])) := by
  have hrun : (Group.fresh.exec collidingCalls).any (fun g =>
      (g.members [97]).failure = some (.apply 2 (.requestIDPayloadMismatch [1])) ∧
      (g.members [98]).failure = some (.apply 2 (.requestIDPayloadMismatch [1]))) = true := by
    decide +kernel
  obtain ⟨g, hreach, hfailed⟩ := Group.reachable_of_script hrun
  exact ⟨g, hreach, of_decide_eq_true hfailed⟩

end ChronicleDB.Node
