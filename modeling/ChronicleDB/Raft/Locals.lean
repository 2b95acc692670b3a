import ChronicleDB.Raft.Accesses
import ChronicleDB.Raft.Entries

/-!
# The invariants of one core

What a core keeps from one call to the next: where its indices lie, which entries it
reports as committed and in which order, and that it misuses no slice and no map.
-/

namespace ChronicleDB.Raft

open Foundation Checked List Option

/-! ## Calls -/

inductive CoreCall where
  | step (input : Input)
  | proposeConfigChange (kind : MembershipChangeKind) (requestID : Bytes) (targetID : NodeID)
      (targetAddr : Bytes)
  | setApplied (index : Nat)
  | compact (uptoIndex : Nat)
  deriving DecidableEq, Repr

/-- A call that is refused leaves the core as it is. -/
def Memory.call (m : Memory) : CoreCall → Checked Panic (Memory × Output)
  | .step input => m.step input
  | .proposeConfigChange kind requestID targetID targetAddr => do
      match ← m.proposeConfigChange kind requestID targetID targetAddr with
      | .ok r => .ok r
      | .error _ => .ok (m, {})
  | .setApplied index => .ok (m.setApplied index, {})
  | .compact uptoIndex => do
      match ← m.compact uptoIndex with
      | some m' => .ok (m', {})
      | none => .ok (m, {})

def Core.call (c : Core) : CoreCall → Except Panic (Core × Output)
  | .step input => c.step input
  | .proposeConfigChange kind requestID targetID targetAddr =>
    match c.proposeConfigChange kind requestID targetID targetAddr with
    | .ok r => .ok r
    | .error (.panic p) => .error p
    | .error (.error _) => .ok (c, {})
  | .setApplied index => .ok (c.setApplied index, {})
  | .compact uptoIndex => .ok ((c.compact uptoIndex).getD c, {})

def Store.openMemory (s : Store) (cfg : Config) : Checked Panic (Option Memory) :=
  Memory.newCoreFromSnapshot cfg s.hardState s.boundaryIndex s.boundaryTerm s.boundaryConfig
    s.boundaryHasConfig s.entries

/-! ## The entries a call reports -/

namespace Core

/-- The call installs a snapshot; the entries it covers are not reported. -/
def Installs (c : Core) (call : CoreCall) (c' : Core) (out : Output) : Prop :=
  ∃ msg index term cfg hasCfg, call = .step (.message msg) ∧
    msg.body = .installSnapshotRequest index term cfg hasCfg ∧ c.commitIndex < index ∧
    c'.snapshotIndex = index ∧ c'.commitIndex = index ∧ out.committedEntries = []

/-- Every index between the two commit indices is reported once, in order. -/
def Lists (c c' : Core) (out : Output) : Prop :=
  out.committedEntries.map (·.index) =
    List.range' (c.commitIndex + 1) (c'.commitIndex - c.commitIndex)

structure Progress (c : Core) (call : CoreCall) (c' : Core) (out : Output) : Prop where
  backed : ∃ ℓ, c'.Backed (fun _ => True) ℓ
  commit : c.commitIndex ≤ c'.commitIndex
  term : c.currentTerm ≤ c'.currentTerm
  lists : c.Lists c' out ∨ c.Installs call c' out
  exclusive : out.persistRequest = none ∨ out.committedEntries = []

theorem lists_nil {c c' : Core} {out : Output} (hcommit : c'.commitIndex = c.commitIndex)
    (hout : out.committedEntries = []) : c.Lists c' out := by
  rw [Lists, hout, hcommit, Nat.sub_self]
  rfl

theorem Progress.quiet {c c' : Core} {call : CoreCall} {out : Output}
    (backed : ∃ ℓ, c'.Backed (fun _ => True) ℓ) (commit : c'.commitIndex = c.commitIndex)
    (term : c'.currentTerm = c.currentTerm) (hout : out.committedEntries = []) :
    c.Progress call c' out :=
  ⟨backed, commit.ge, term.ge, .inl (lists_nil commit hout), .inr hout⟩

theorem Backed.newlyCommitted_index {K : Entry → Prop} {c : Core} {ℓ : List Entry}
    (h : c.Backed K ℓ) {n : Nat} (hn : n ≤ c.lastIndex) :
    (c.newlyCommitted n).map (·.index) =
      range' (c.commitIndex + 1) (n - c.commitIndex) := by
  have hb := h.boundary
  have hlast : c.lastIndex = c.snapshotIndex + c.log.length := rfl
  apply ext_getElem?
  intro k
  have hget : (c.newlyCommitted n)[k]? =
      if k < n - c.commitIndex then ℓ[c.commitIndex + k]? else none := by
    unfold newlyCommitted slice
    rw [Nat.max_eq_left (by omega), getElem?_drop, getElem?_take, h.shows.log]
    split
    · rw [if_pos (by omega), getElem?_drop]
      congr 1
      omega
    · rw [if_neg (by omega)]
  have hlen := h.shows.lastIndex_eq
  rw [getElem?_map, hget]
  split
  case isTrue hk =>
    have hlt : c.commitIndex + k < ℓ.length := by omega
    have hindex := h.indexed (c.commitIndex + k) _ (getElem?_eq_getElem hlt)
    rw [getElem?_eq_getElem hlt, map_some, hindex, getElem?_range' hk]
    congr 1
    omega
  case isFalse hk =>
    rw [getElem?_eq_none (by rw [length_range']; omega)]
    rfl

/-! ## Steps -/

theorem VoteMove.term_le {c c' : Core} {input : Input} {out : Output}
    (h : c.VoteMove input c' out) : c.currentTerm ≤ c'.currentTerm := by
  cases h with
  | stay term => exact term.ge
  | clear term => exact term.ge
  | adopt higher term => omega
  | campaign _ _ term => omega
  | count _ _ _ term => exact term.ge
  | cast _ _ _ free _ _ term => omega

theorem CommitMove.lists {K : Entry → Prop} {c c' : Core} {input : Input} {out : Output}
    {ℓ : List Entry} (h : c.CommitMove input c' out) (hbacked : c.Backed K ℓ) :
    c.commitIndex ≤ c'.commitIndex ∧
      (c.Lists c' out ∨ c.Installs (.step input) c' out) := by
  cases h with
  | keep commit _ _ reports => exact ⟨commit.ge, .inl (lists_nil commit reports)⟩
  | leader _ _ _ rule _ reports =>
    refine ⟨rule.above.le, .inl ?_⟩
    rw [Lists, reports]
    exact hbacked.newlyCommitted_index rule.within
  | follower _ _ above commit _ reports =>
    refine ⟨above.le, .inl ?_⟩
    rw [Lists, reports]
    exact hbacked.newlyCommitted_index (by omega)
  | install body _ new snapshot _ commit _ reports =>
    exact ⟨by omega, .inr ⟨_, _, _, _, _, rfl, body, new, snapshot, commit, reports⟩⟩

/-! ## Progress -/

section Progress

variable {c c' : Core} {ℓ : List Entry} {out : Output}

theorem Backed.effect_progress (h : c.Backed (fun _ => True) ℓ) {input : Input}
    (heffect : c.Effect input c' out)
    (hmsg : ∀ msg, input = .message msg → msg.Backed (fun _ => True))
    (hexclusive : out.persistRequest = none ∨ out.committedEntries = []) :
    c.Progress (.step input) c' out := by
  obtain ⟨hcommit, hlists⟩ := heffect.commit.lists h
  exact ⟨h.step heffect hmsg fun _ _ => trivial, hcommit, heffect.votes.term_le, hlists, hexclusive⟩

theorem Backed.complete_progress (h : c.Backed (fun _ => True) ℓ) (seq : Nat) :
    c.Progress (.step (.persistenceComplete seq)) (c.handlePersistenceComplete seq).1
      (c.handlePersistenceComplete seq).2 := by
  obtain ⟨hframe, -, hpr, hadv, -⟩ := c.handlePersistenceComplete_spec seq
  have hextends := handlePersistenceComplete_extends c seq h.boundary
  refine ⟨⟨ℓ, h.complete seq fun _ _ => trivial⟩, hextends.le, ?_, .inl ?_, .inl hpr⟩
  · exact hframe.currentTerm.ge
  · rw [Lists, hextends.reports, nil_append]
    apply h.newlyCommitted_index
    have hwithin := h.within
    have hlast := h.shows.lastIndex_eq
    rcases hadv.within with hsame | hmoved <;> omega

theorem Backed.step_progress (h : c.Backed (fun _ => True) ℓ) {input : Input}
    (hmsg : ∀ msg, input = .message msg → msg.Backed (fun _ => True))
    (hstep : c.step input = .ok (c', out)) : c.Progress (.step input) c' out := by
  by_cases hcomplete : ∃ seq, input = .persistenceComplete seq
  · obtain ⟨seq, rfl⟩ := hcomplete
    have hr : c.handlePersistenceComplete seq = (c', out) := Except.ok.inj hstep
    have := h.complete_progress seq
    rwa [hr] at this
  · have hinput : ∀ seq, input ≠ .persistenceComplete seq := fun seq hseq => hcomplete ⟨seq, hseq⟩
    exact h.effect_progress (step_effect hstep hinput) hmsg ((step_outcome hstep hinput).exclusive)

theorem Progress.of_step {c c' : Core} {out : Output} {input : Input}
    (h : c.Progress (.step input) c' out) (hinput : ∀ msg, input ≠ .message msg)
    (call : CoreCall) : c.Progress call c' out := by
  refine ⟨h.backed, h.commit, h.term, .inl (h.lists.resolve_right ?_), h.exclusive⟩
  rintro ⟨msg, index, term, cfg, hasCfg, hcall, -⟩
  exact hinput msg (CoreCall.step.inj hcall)

theorem Backed.propose_progress (h : c.Backed (fun _ => True) ℓ) {kind : MembershipChangeKind}
    {requestID : Bytes} {targetID : NodeID} {targetAddr : Bytes}
    (hpropose : c.proposeConfigChange kind requestID targetID targetAddr = .ok (c', out)) :
    c.Progress (.proposeConfigChange kind requestID targetID targetAddr) c' out := by
  obtain ⟨data, heffect⟩ := proposeConfigChange_effect hpropose
  have hprogress := h.effect_progress heffect (by simp) (.inr (by
    cases heffect.commit with
    | keep _ _ _ reports => exact reports))
  exact hprogress.of_step (by simp) _

theorem Backed.apply_progress (h : c.Backed (fun _ => True) ℓ) {index : Nat}
    (hle : index ≤ c.commitIndex) : c.Progress (.setApplied index) (c.setApplied index) {} := by
  exact .quiet ⟨ℓ, h.setApplied hle⟩ (by rw [setApplied_eq]) (by rw [setApplied_eq]) rfl

theorem Backed.compact_progress (h : c.Backed (fun _ => True) ℓ) {index : Nat}
    (hcompact : c.compact index = some c') : c.Progress (.compact index) c' {} := by
  obtain ⟨-, hc'⟩ := compact_eq hcompact
  exact .quiet ⟨ℓ, h.compact hcompact⟩ (by rw [hc']) (by rw [hc']) rfl

end Progress

end Core

/-! ## Calls in memory -/

/-- The indices of a core lie in order, and its log is contiguous from the boundary on. -/
structure Memory.Bounded (m : Memory) : Prop where
  boundary : m.snapshotIndex ≤ m.commitIndex
  within : m.commitIndex ≤ m.lastIndex
  contiguous : ∀ (i : Nat) (e : Entry), m.log[i]? = some e → e.index = m.snapshotIndex + i

theorem Memory.Formed.bounded {m : Memory} (h : m.Formed) {K : Entry → Prop} {ℓ : List Entry}
    (hbacked : m.core.Backed K ℓ) : m.Bounded := by
  have hlast := hbacked.shows.lastIndex_eq
  rw [Memory.lastIndex_core] at hlast
  refine ⟨hbacked.boundary, hlast ▸ hbacked.within, fun i e he => ?_⟩
  rw [h.log] at he
  cases i with
  | zero =>
    cases he
    rfl
  | succ i =>
    rw [getElem?_cons_succ] at he
    have hget : ℓ[m.snapshotIndex + i]? = some e := by
      rw [← getElem?_drop, ← he]
      exact congrArg (·[i]?) hbacked.shows.log.symm
    rw [hbacked.indexed _ e hget]
    omega

structure Called where
  before : Memory
  call : CoreCall
  out : Output
  after : Memory

namespace Called

def Lists (r : Called) : Prop :=
  r.out.committedEntries.map (·.index) =
    List.range' (r.before.commitIndex + 1) (r.after.commitIndex - r.before.commitIndex)

def Installs (r : Called) : Prop :=
  ∃ msg index term cfg hasCfg, r.call = .step (.message msg) ∧
    msg.body = .installSnapshotRequest index term cfg hasCfg ∧ r.before.commitIndex < index ∧
    r.after.snapshotIndex = index ∧ r.after.commitIndex = index ∧ r.out.committedEntries = []

structure Sound (r : Called) : Prop where
  bounded : r.after.Bounded
  commit : r.before.commitIndex ≤ r.after.commitIndex
  term : r.before.currentTerm ≤ r.after.currentTerm
  lists : r.Lists ∨ r.Installs
  exclusive : r.out.persistRequest = none ∨ r.out.committedEntries = []

end Called

theorem Core.Progress.sound {m m' : Memory} {call : CoreCall} {out : Output}
    (h : m.core.Progress call m'.core out) (hm' : m'.Formed) :
    (⟨m, call, out, m'⟩ : Called).Sound := by
  obtain ⟨ℓ, hbacked⟩ := h.backed
  exact ⟨hm'.bounded hbacked, h.commit, h.term, h.lists, h.exclusive⟩

/-- The calls that the driver of `n` may make next. -/
inductive Cluster.Offers (s : Cluster) (n : NodeID) : CoreCall → Prop where
  | electionTimeout (idle : (s.replicas n).writing = none) : Offers s n (.step .electionTimeout)
  | heartbeatTimeout (idle : (s.replicas n).writing = none) : Offers s n (.step .heartbeatTimeout)
  | deliver {msg} (idle : (s.replicas n).writing = none) (known : msg ∈ s.net)
      (receiver : msg.receiver = n) : Offers s n (.step (.message msg))
  | propose {data} (idle : (s.replicas n).writing = none) : Offers s n (.step (.propose data))
  | complete {seq} (done : (s.replicas n).writing = some (seq, [])) :
      Offers s n (.step (.persistenceComplete seq))
  | proposeConfig {kind requestID targetID targetAddr} (idle : (s.replicas n).writing = none) :
      Offers s n (.proposeConfigChange kind requestID targetID targetAddr)
  | apply {c index} (up : (s.replicas n).core = some c) (idle : (s.replicas n).writing = none)
      (le : index ≤ c.commitIndex) : Offers s n (.setApplied index)
  | compact {index} (idle : (s.replicas n).writing = none) : Offers s n (.compact index)

theorem Memory.Formed.call {m : Memory} (h : m.Formed) {K : Entry → Prop} {ℓ : List Entry}
    (hbacked : m.core.Backed K ℓ) (call : CoreCall) :
    Refines Memory.Returns (m.call call) (m.core.call call) := by
  cases call with
  | step input => exact h.step hbacked.boundary input
  | proposeConfigChange kind requestID targetID targetAddr =>
    have hanswers := h.proposeConfigChange kind requestID targetID targetAddr
    rw [Memory.call, Core.call]
    generalize m.proposeConfigChange kind requestID targetID targetAddr = x,
      m.core.proposeConfigChange kind requestID targetID targetAddr = y at hanswers ⊢
    cases hanswers with
    | refused e => exact ⟨(m, {}), rfl, ⟨rfl, h⟩, rfl⟩
    | panics p => exact rfl
    | appended hreturns => exact ⟨_, rfl, hreturns⟩
  | setApplied index => exact ⟨_, rfl, h.setApplied index, rfl⟩
  | compact upto =>
    have hwithin : m.appliedIndex ≤ m.lastIndex :=
      hbacked.applied.trans (h.bounded hbacked).within
    obtain ⟨made, hmade, hcore, hformed⟩ := h.compact hwithin upto
    rw [Memory.call, Core.call, hmade, ← hcore]
    cases made with
    | none => exact ⟨(m, {}), rfl, ⟨rfl, h⟩, rfl⟩
    | some m' => exact ⟨(m', {}), rfl, ⟨rfl, hformed m' rfl⟩, rfl⟩

theorem Core.Backed.call_progress {c c' : Core} {ℓ : List Entry} {call : CoreCall} {out : Output}
    (h : c.Backed (fun _ => True) ℓ)
    (hmsg : ∀ msg, call = .step (.message msg) → msg.Backed (fun _ => True))
    (happly : ∀ index, call = .setApplied index → index ≤ c.commitIndex)
    (hcall : c.call call = .ok (c', out)) : c.Progress call c' out := by
  cases call with
  | step input => exact h.step_progress (fun msg hinput => hmsg msg (congrArg _ hinput)) hcall
  | proposeConfigChange kind requestID targetID targetAddr =>
    rw [Core.call] at hcall
    split at hcall
    case h_1 r hr =>
      cases hcall
      exact h.propose_progress hr
    case h_2 => cases hcall
    case h_3 =>
      cases hcall
      exact .quiet ⟨ℓ, h⟩ rfl rfl rfl
  | setApplied index =>
    cases hcall
    exact h.apply_progress (happly index rfl)
  | compact upto =>
    cases hcall
    cases hcompact : c.compact upto with
    | none => exact .quiet ⟨ℓ, h⟩ rfl rfl rfl
    | some c' => exact h.compact_progress hcompact

theorem Cluster.Backed.answered {s : Cluster} (hs : s.Backed) {n : NodeID} {m : Memory}
    (hm : m.Formed) (hcore : (s.replicas n).core = some m.core) {call : CoreCall}
    (hoffers : s.Offers n call) :
    (∃ p, m.call call = .error (.panic p)) ∨
      ∃ m' out, m.call call = .ok (m', out) ∧ m.core.call call = .ok (m'.core, out) ∧
        m'.Formed ∧ m.core.Progress call m'.core out := by
  obtain ⟨ℓ, hreported⟩ := (hs.replica n).core m.core hcore
  have hbacked : m.core.Backed (fun _ => True) ℓ := hreported.mono fun _ _ => trivial
  have hrefines := hm.call hbacked call
  cases hcall : m.core.call call with
  | error p =>
    rw [hcall] at hrefines
    exact .inl ⟨p, hrefines⟩
  | ok r =>
    rw [hcall] at hrefines
    obtain ⟨⟨m', out⟩, hmade, ⟨hcore', hformed⟩, hout⟩ := hrefines
    have hr : r = (m'.core, out) := (Prod.ext hcore' hout).symm
    subst hr
    refine .inr ⟨m', out, hmade, rfl, hformed, hbacked.call_progress ?_ ?_ hcall⟩
    · rintro msg rfl
      cases hoffers with
      | deliver _ known => exact (hs.net _ known).mono fun _ _ => trivial
    · rintro index rfl
      cases hoffers with
      | apply up _ le =>
        rw [hcore] at up
        cases up
        exact le

/-! ## Sequences of calls -/

def listed (calls : List Called) : List Nat :=
  calls.flatMap fun r => r.out.committedEntries.map (·.index)

/-- What holds along a sequence of calls that takes `m₀` to `m`. -/
structure Trace (m₀ m : Memory) (calls : List Called) : Prop where
  sound : ∀ r ∈ calls, r.Sound
  latest : ∀ r ∈ calls, r.after.commitIndex ≤ m.commitIndex ∧ r.after.currentTerm ≤ m.currentTerm
  grows : calls.Pairwise fun r r' =>
    r.after.commitIndex ≤ r'.before.commitIndex ∧ r.after.currentTerm ≤ r'.before.currentTerm
  below : ∀ i ∈ listed calls, i ≤ m.commitIndex
  ordered : (listed calls).Pairwise (· < ·)
  covered : ∀ i, m₀.commitIndex < i → i ≤ m.commitIndex → i ∈ listed calls ∨
    ∃ r ∈ calls, r.Installs ∧ r.before.commitIndex < i ∧ i ≤ r.after.commitIndex

namespace Trace

theorem nil (m : Memory) : Trace m m [] where
  sound := by simp
  latest := by simp
  grows := .nil
  below := by simp [listed]
  ordered := .nil
  covered i hlt hle := absurd (hlt.trans_le hle) (Nat.lt_irrefl _)

variable {m₀ m : Memory} {calls : List Called}

theorem append {r : Called} (h : Trace m₀ r.before calls) (hr : r.Sound) :
    Trace m₀ r.after (calls ++ [r]) := by
  have hlisted : listed (calls ++ [r]) =
      listed calls ++ r.out.committedEntries.map (·.index) := by
    simp [listed]
  have hnew : ∀ i ∈ r.out.committedEntries.map (·.index),
      r.before.commitIndex < i ∧ i ≤ r.after.commitIndex := by
    intro i hi
    rcases hr.lists with hlists | ⟨_, _, _, _, _, _, _, _, _, _, hnone⟩
    · rw [hlists, mem_range'_1] at hi
      omega
    · simp [hnone] at hi
  refine ⟨fun q hq => ?_, fun q hq => ?_, ?_, fun i hi => ?_, ?_, fun i hlt hle => ?_⟩
  · rcases mem_append.mp hq with hq | hq
    · exact h.sound q hq
    · rwa [mem_singleton.mp hq]
  · rcases mem_append.mp hq with hq | hq
    · exact ⟨(h.latest q hq).1.trans hr.commit, (h.latest q hq).2.trans hr.term⟩
    · rw [mem_singleton.mp hq]
      exact ⟨le_rfl, le_rfl⟩
  · refine pairwise_append.mpr ⟨h.grows, pairwise_singleton _ _, fun q hq q' hq' => ?_⟩
    rw [mem_singleton.mp hq']
    exact h.latest q hq
  · rw [hlisted] at hi
    rcases mem_append.mp hi with hi | hi
    · exact (h.below i hi).trans hr.commit
    · exact (hnew i hi).2
  · rw [hlisted]
    refine pairwise_append.mpr ⟨h.ordered, ?_, fun i hi j hj => ?_⟩
    · rcases hr.lists with hlists | ⟨_, _, _, _, _, _, _, _, _, _, hnone⟩
      · rw [hlists]
        exact pairwise_lt_range'
      · simp [hnone]
    · exact (h.below i hi).trans_lt (hnew j hj).1
  · rw [hlisted]
    rcases Nat.lt_or_ge r.before.commitIndex i with hi | hi
    · rcases hr.lists with hlists | hinstalls
      · refine .inl (mem_append_right _ ?_)
        rw [hlists, mem_range'_1]
        omega
      · exact .inr ⟨r, by simp, hinstalls, hi, hle⟩
    · rcases h.covered i hlt hi with hi | ⟨q, hq, hskip⟩
      · exact .inl (mem_append_left _ hi)
      · exact .inr ⟨q, mem_append_left _ hq, hskip⟩

end Trace

/-! ## Runs -/

namespace Cluster

def callOf (s : Cluster) (n : NodeID) : Act → Option CoreCall
  | .start _ => none
  | .crash _ => none
  | .electionTimeout k => if k = n then some (.step .electionTimeout) else none
  | .heartbeatTimeout k => if k = n then some (.step .heartbeatTimeout) else none
  | .deliver msg => if msg.receiver = n then some (.step (.message msg)) else none
  | .propose k data => if k = n then some (.step (.propose data)) else none
  | .proposeConfig k kind requestID targetID targetAddr =>
    if k = n then some (.proposeConfigChange kind requestID targetID targetAddr) else none
  | .persist k =>
    match (s.replicas n).writing with
    | some (seq, []) => if k = n then some (.step (.persistenceComplete seq)) else none
    | _ => none
  | .apply k index => if k = n then some (.setApplied index) else none
  | .compact k index => if k = n then some (.compact index) else none

section StepCall

variable {boot : NodeID → Configuration} {s s' : Cluster} {n : NodeID} {a : Act} {call : CoreCall}
  {c c' : Core} {out : Output}

theorem feed_core {store : Store} {input : Input} (h : c.step input = .ok (c', out)) :
    ((s.feed n store c input).replicas n).core = some c' := by
  simp [feed, h, processOutput, update]

theorem idle_of_core {c₁ : Core} (hidle : s.idle n = some c₁)
    (hcore : (s.replicas n).core = some c) : c₁ = c ∧ (s.replicas n).writing = none := by
  obtain ⟨hup, hwriting⟩ := idle_eq_some hidle
  rw [hcore] at hup
  exact ⟨(some.inj hup).symm, hwriting⟩

theorem step_call (hstep : s.step boot a = some s') (hcall : s.callOf n a = some call)
    (hcore : (s.replicas n).core = some c) :
    s.Offers n call ∧ ∀ c' out, c.call call = .ok (c', out) → (s'.replicas n).core = some c' := by
  cases a with
  | start => cases hcall
  | crash => cases hcall
  | electionTimeout k =>
    obtain ⟨rfl, ⟨⟩⟩ := ite_none_right_eq_some.mp hcall
    obtain ⟨c₁, hidle, rfl⟩ := map_eq_some_iff.mp hstep
    obtain ⟨rfl, hwriting⟩ := idle_of_core hidle hcore
    exact ⟨.electionTimeout hwriting, fun c' out h => feed_core h⟩
  | heartbeatTimeout k =>
    obtain ⟨rfl, ⟨⟩⟩ := ite_none_right_eq_some.mp hcall
    obtain ⟨c₁, hidle, rfl⟩ := map_eq_some_iff.mp hstep
    obtain ⟨rfl, hwriting⟩ := idle_of_core hidle hcore
    exact ⟨.heartbeatTimeout hwriting, fun c' out h => feed_core h⟩
  | propose k data =>
    obtain ⟨rfl, ⟨⟩⟩ := ite_none_right_eq_some.mp hcall
    obtain ⟨c₁, hidle, rfl⟩ := map_eq_some_iff.mp hstep
    obtain ⟨rfl, hwriting⟩ := idle_of_core hidle hcore
    exact ⟨.propose hwriting, fun c' out h => feed_core h⟩
  | deliver msg =>
    obtain ⟨rfl, ⟨⟩⟩ := ite_none_right_eq_some.mp hcall
    rw [step] at hstep
    obtain ⟨hknown, hstep⟩ := ite_none_left_eq_some.mp hstep
    obtain ⟨c₁, hidle, rfl⟩ := map_eq_some_iff.mp hstep
    obtain ⟨rfl, hwriting⟩ := idle_of_core hidle hcore
    exact ⟨.deliver hwriting (not_not.mp hknown) rfl, fun c' out h => feed_core h⟩
  | proposeConfig k kind requestID targetID targetAddr =>
    obtain ⟨rfl, ⟨⟩⟩ := ite_none_right_eq_some.mp hcall
    rw [step] at hstep
    split at hstep
    · cases hstep
    case h_2 c₁ hidle =>
      obtain ⟨rfl, hwriting⟩ := idle_of_core hidle hcore
      refine ⟨.proposeConfig hwriting, fun c' out h => ?_⟩
      rw [Core.call] at h
      split at hstep
      · cases hstep
      case h_2 p hp =>
        rw [hp] at h
        cases h
      case h_3 r hr =>
        rw [hr] at h
        cases h
        obtain ⟨-, hstep⟩ := ite_none_right_eq_some.mp hstep
        cases hstep
        simp [processOutput, update]
  | persist k =>
    rw [callOf] at hcall
    split at hcall
    case h_1 seq hwriting =>
      obtain ⟨rfl, ⟨⟩⟩ := ite_none_right_eq_some.mp hcall
      rw [step, hwriting, hcore] at hstep
      cases hstep
      exact ⟨.complete hwriting, fun c' out h => feed_core h⟩
    case h_2 => cases hcall
  | apply k index =>
    obtain ⟨rfl, ⟨⟩⟩ := ite_none_right_eq_some.mp hcall
    rw [step] at hstep
    split at hstep
    · cases hstep
    case h_2 c₁ hidle =>
      obtain ⟨rfl, hwriting⟩ := idle_of_core hidle hcore
      obtain ⟨hle, hstep⟩ := ite_none_right_eq_some.mp hstep
      cases hstep
      refine ⟨.apply hcore hwriting hle, fun c' out h => ?_⟩
      cases h
      simp [update]
  | compact k index =>
    obtain ⟨rfl, ⟨⟩⟩ := ite_none_right_eq_some.mp hcall
    rw [step] at hstep
    split at hstep
    · cases hstep
    case h_2 c₁ hidle =>
      obtain ⟨rfl, hwriting⟩ := idle_of_core hidle hcore
      obtain ⟨c₂, hcompact, rfl⟩ := map_eq_some_iff.mp hstep
      refine ⟨.compact hwriting, fun c' out h => ?_⟩
      rw [Core.call, hcompact] at h
      cases h
      simp [update]

theorem step_silent (hstep : s.step boot a = some s') (hcall : s.callOf n a = none)
    (hcrash : a ≠ .crash n) (hcore : (s.replicas n).core = some c) :
    (s'.replicas n).core = some c := by
  obtain ⟨k, r', ms, reps, ps, hmoves, rfl⟩ := step_moves hstep
  by_cases hk : k = n
  · subst hk
    simp only [moved, Function.update_self]
    cases hmoves with
    | start down => simp [hcore] at down
    | crash => exact absurd rfl hcrash
    | input _ _ hands => cases hands <;> simp_all [callOf]
    | panic _ _ hands => cases hands <;> simp_all [callOf]
    | _ => simp_all [callOf]
  · simpa [moved, Function.update_of_ne (Ne.symm hk)] using hcore

end StepCall

end Cluster

/-- A cluster in which the calls to one core are recorded, and made in memory as well. -/
structure Watch where
  cluster : Cluster
  memory : Memory
  calls : List Called

namespace Watch

def start (boot : NodeID → Configuration) (n : NodeID) (s : Cluster) : Option Watch :=
  match s.step boot (.start n), (s.replicas n).store.openMemory ⟨n, boot n⟩ with
  | some s', .ok (some m) => some ⟨s', m, []⟩
  | _, _ => none

def made (w : Watch) (call : CoreCall) (s' : Cluster) : Option Watch :=
  match w.memory.call call with
  | .ok (m', out) => some ⟨s', m', w.calls ++ [⟨w.memory, call, out, m'⟩]⟩
  | .error _ => none

def step (boot : NodeID → Configuration) (n : NodeID) (w : Watch) (a : Act) : Option Watch :=
  if a = .crash n then none
  else match w.cluster.step boot a, w.cluster.callOf n a with
    | none, _ => none
    | some s', none => some { w with cluster := s' }
    | some s', some call => w.made call s'

inductive Step (boot : NodeID → Configuration) (n : NodeID) (w : Watch) : Watch → Prop where
  | act {w'} (a : Act) (stepped : w.step boot n a = some w') : Step boot n w w'
  | refused {call : CoreCall} (offered : w.cluster.Offers n call)
      (refused : w.memory.call call = .ok (w.memory, {})) :
      Step boot n w { w with calls := w.calls ++ [⟨w.memory, call, {}, w.memory⟩] }

structure Kept (boot : NodeID → Configuration) (n : NodeID) (m₀ : Memory) (w : Watch) : Prop where
  run : Cluster.Run boot (fun _ _ => True) .fresh w.cluster
  core : (w.cluster.replicas n).core = some w.memory.core
  formed : w.memory.Formed
  trace : Trace m₀ w.memory w.calls

variable {boot : NodeID → Configuration} {n : NodeID} {s : Cluster} {w w' : Watch} {m₀ : Memory}

theorem kept_start (hrun : Cluster.Run boot (fun _ _ => True) .fresh s)
    (h : start boot n s = some w) : w.Kept boot n w.memory := by
  rw [start] at h
  split at h
  case h_1 s' m hstep hopen =>
    cases h
    obtain ⟨made, hmade, hcore, hformed⟩ := Memory.newCoreFromSnapshot_eq ⟨n, boot n⟩
      (s.replicas n).store.hardState (s.replicas n).store.boundaryIndex
      (s.replicas n).store.boundaryTerm (s.replicas n).store.boundaryConfig
      (s.replicas n).store.boundaryHasConfig (s.replicas n).store.entries
    rw [Store.openMemory, hmade] at hopen
    cases hopen
    refine ⟨hrun.tail ⟨_, trivial, hstep⟩, ?_, hformed m rfl, .nil m⟩
    rw [Cluster.step] at hstep
    obtain ⟨-, hstep⟩ := ite_none_left_eq_some.mp hstep
    rw [Store.open, ← hcore] at hstep
    cases hstep
    simp [Cluster.update]
  case h_2 => cases h

theorem Kept.answered (h : w.Kept boot n m₀) {call : CoreCall}
    (hoffers : w.cluster.Offers n call) :
    (∃ p, w.memory.call call = .error (.panic p)) ∨
      ∃ m' out, w.memory.call call = .ok (m', out) ∧
        w.memory.core.call call = .ok (m'.core, out) ∧ m'.Formed ∧
        (⟨w.memory, call, out, m'⟩ : Called).Sound := by
  rcases (Cluster.Run.backed h.run).answered h.formed h.core hoffers with
    hpanic | ⟨m', out, hmade, hcall, hformed, hprogress⟩
  · exact .inl hpanic
  · exact .inr ⟨m', out, hmade, hcall, hformed, hprogress.sound hformed⟩

theorem Kept.step (h : w.Kept boot n m₀) (hstep : Step boot n w w') : w'.Kept boot n m₀ := by
  cases hstep with
  | act a hstep =>
    rw [Watch.step] at hstep
    obtain ⟨hcrash, hstep⟩ := ite_none_left_eq_some.mp hstep
    split at hstep
    · cases hstep
    case h_2 s' hs' hcall =>
      cases hstep
      exact ⟨h.run.tail ⟨a, trivial, hs'⟩, Cluster.step_silent hs' hcall hcrash h.core, h.formed,
        h.trace⟩
    case h_3 s' call hs' hcall =>
      obtain ⟨hoffers, hcore⟩ := Cluster.step_call hs' hcall h.core
      rcases h.answered hoffers with ⟨p, hpanic⟩ | ⟨m', out, hmade, hreturned, hformed, hsound⟩
      · rw [made, hpanic] at hstep
        cases hstep
      · rw [made, hmade] at hstep
        cases hstep
        exact ⟨h.run.tail ⟨a, trivial, hs'⟩, hcore _ _ hreturned, hformed, h.trace.append hsound⟩
  | refused offered hrefused =>
    rcases h.answered offered with ⟨p, hpanic⟩ | ⟨m', out, hmade, -, -, hsound⟩
    · rw [hpanic] at hrefused
      cases hrefused
    · rw [hmade] at hrefused
      cases hrefused
      exact ⟨h.run, h.core, h.formed, h.trace.append hsound⟩

theorem Kept.run_steps (h : w.Kept boot n m₀)
    (hsteps : Relation.ReflTransGen (Step boot n) w w') : w'.Kept boot n m₀ := by
  induction hsteps with
  | refl => exact h
  | tail _ hstep ih => exact ih.step hstep

end Watch

/-- The local invariants of a core: after any calls from its construction on, its indices and
its log are in order, the calls have reported every index once and in order except where
they installed a snapshot, and no call that the driver may make next misuses a slice or a
map or breaks any of this. -/
theorem core_local_invariants {boot : NodeID → Configuration} {n : NodeID} {s : Cluster}
    {w₀ w : Watch} (hrun : Cluster.Run boot (fun _ _ => True) .fresh s)
    (hstart : Watch.start boot n s = some w₀)
    (hsteps : Relation.ReflTransGen (Watch.Step boot n) w₀ w) :
    (w.cluster.replicas n).core = some w.memory.core ∧ w.memory.Bounded ∧
      Trace w₀.memory w.memory w.calls ∧
      (∀ call, w.cluster.Offers n call →
        (∃ p, w.memory.call call = .error (.panic p)) ∨
          ∃ m' out, w.memory.call call = .ok (m', out) ∧
            (⟨w.memory, call, out, m'⟩ : Called).Sound) ∧
      ∀ (store : Store) (cfg : Config), ∃ made, store.openMemory cfg = .ok made := by
  have hkept := (Watch.kept_start hrun hstart).run_steps hsteps
  obtain ⟨ℓ, hbacked⟩ := ((Cluster.Run.backed hkept.run).replica n).core _ hkept.core
  refine ⟨hkept.core, hkept.formed.bounded hbacked, hkept.trace, fun call hoffers => ?_,
    fun store cfg => ?_⟩
  · rcases hkept.answered hoffers with hpanic | ⟨m', out, hmade, -, -, hsound⟩
    · exact .inl hpanic
    · exact .inr ⟨m', out, hmade, hsound⟩
  · obtain ⟨made, hmade, -⟩ := Memory.newCoreFromSnapshot_eq cfg store.hardState
      store.boundaryIndex store.boundaryTerm store.boundaryConfig store.boundaryHasConfig
      store.entries
    exact ⟨made, hmade⟩

theorem core_local_invariants_learnerAdded :
    ∃ w : Watch, listed w.calls = [1, 2] ∧ w.memory.snapshotIndex = 2 ∧ w.memory.Bounded ∧
      ∀ call, w.cluster.Offers [1] call →
        (∃ p, w.memory.call call = .error (.panic p)) ∨
          ∃ m' out, w.memory.call call = .ok (m', out) ∧
            (⟨w.memory, call, out, m'⟩ : Called).Sound := by
  obtain ⟨w₀, hstart⟩ : ∃ w₀, Watch.start (fun _ => oneVoter) [1] .fresh = some w₀ :=
    Option.isSome_iff_exists.mp (by decide +kernel)
  have hsteps : ((Watch.start (fun _ => oneVoter) [1] .fresh).bind fun w₀ =>
      (learnerAdded.tail ++ [Act.compact [1] 2]).foldlM (Watch.step (fun _ => oneVoter) [1]) w₀).any
        (fun w => listed w.calls == [1, 2] && w.memory.snapshotIndex == 2) = true := by
    decide +kernel
  rw [hstart] at hsteps
  obtain ⟨w, hsteps, htest⟩ := exists_of_foldlM_any (R := Watch.Step (fun _ => oneVoter) [1])
    (fun a _ _ _ hstep => .act a hstep) hsteps
  simp only [Bool.and_eq_true, beq_iff_eq] at htest
  obtain ⟨-, hbounded, -, hoffers, -⟩ := core_local_invariants .refl hstart hsteps
  exact ⟨w, htest.1, htest.2, hbounded, hoffers⟩

end ChronicleDB.Raft
