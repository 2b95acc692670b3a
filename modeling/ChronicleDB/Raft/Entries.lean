import ChronicleDB.Raft.Lives

/-!
# Where entries come from

Every entry in a core, in a store or on the network was appended by a leader.  What
holds of the entries that leaders append holds of all of them.
-/

namespace ChronicleDB.Raft

open Foundation List Raft.Core

def Act.node : Act → NodeID
  | .start n | .crash n | .electionTimeout n | .heartbeatTimeout n | .propose n _
  | .proposeConfig n _ _ _ _ | .persist n | .apply n _ | .compact n _ => n
  | .deliver msg => msg.receiver

structure Core.Appends (c c' : Core) (e : Entry) : Prop where
  leads : c.role = .leader
  stays : c'.role = .leader
  index : e.index = c.lastIndex + 1
  entryTerm : e.term = c.currentTerm
  term : c'.currentTerm = c.currentTerm
  log : c'.log = c.log ++ [e]
  boundary : Core.SameBoundary c c'

def Body.ofLeader : Body → Bool
  | .appendEntriesRequest _ _ _ _ | .installSnapshotRequest _ _ _ _ => true
  | _ => false

section Carries

variable (P : Entry → Prop)

def Message.Carries (m : Message) : Prop :=
  ∀ prev prevTerm entries commit, m.body = .appendEntriesRequest prev prevTerm entries commit →
    ∀ e ∈ entries, P e

structure Replica.Carries (r : Replica) : Prop where
  core : ∀ c, r.core = some c → ∀ e ∈ c.log, P e
  store : ∀ e ∈ r.store.entries, P e
  writing : ∀ seq ops, r.writing = some (seq, ops) → ∀ entries, .append entries ∈ ops →
    ∀ e ∈ entries, P e

structure Cluster.Carries (s : Cluster) : Prop where
  replica : ∀ n, (s.replicas n).Carries P
  net : ∀ m ∈ s.net, m.Carries P

end Carries

variable {P : Entry → Prop}

/-! ## Messages -/

theorem Core.mem_of_mem_slice {c : Core} {first last : Nat} {e : Entry}
    (h : e ∈ c.slice first last) : e ∈ c.log :=
  mem_of_mem_take (mem_of_mem_drop h)

theorem Core.Replicates.carries {c : Core} {m : Message} (h : c.Replicates m)
    (hlog : ∀ e ∈ c.log, P e) : m.Carries P := by
  intro prev prevTerm entries commit hbody e he
  rcases h.body with ⟨next, -, hm⟩ | ⟨hm, -⟩
  · rw [hbody] at hm
    cases hm
    split at he
    · exact hlog e (mem_of_mem_slice he)
    · cases he
  · rw [hbody] at hm
    cases hm

theorem Core.Sent.carries {c c' : Core} {input : Input} {m : Message} (h : c.Sent input c' m)
    (hlog : ∀ e ∈ c'.log, P e) : m.Carries P := by
  obtain ⟨-, -, hbody⟩ := h
  generalize hb : m.body = b at hbody
  cases hbody with
  | @replicate _ m' leads sent =>
    intro prev prevTerm entries commit hm
    exact sent.carries hlog prev prevTerm entries commit (hb.symm.trans hm)
  | _ =>
    intro prev prevTerm entries commit hm
    rw [hb] at hm
    cases hm

theorem Core.Emits.carries {c : Core} {p : PendingItem} {m : Message} (h : c.Emits p m) :
    m.Carries P := by
  cases h <;> exact nofun

/-! ## Moves -/

theorem Core.mem_logWith {c : Core} {truncateFrom : Option Nat} {new : List Entry} {e : Entry}
    (h : e ∈ c.logWith truncateFrom new) : e ∈ c.log ∨ e ∈ new := by
  cases truncateFrom with
  | none => exact mem_append.mp h
  | some idx => exact (mem_append.mp h).imp_left mem_of_mem_take

theorem Core.LogMove.carries {c c' : Core} {input : Input} {out : Output}
    (h : c.LogMove input c' out) (hlog : ∀ e ∈ c.log, P e)
    (hmsg : ∀ msg, input = .message msg → msg.Carries P)
    (hown : ∀ data e, input = .propose data → c.Appends c' e → P e) :
    (∀ e ∈ c'.log, P e) ∧ ∀ pr, out.persistRequest = some pr → ∀ e ∈ pr.entries, P e := by
  cases h with
  | keep log _ idle =>
    refine ⟨log ▸ hlog, fun pr hpr e he => ?_⟩
    rw [(idle pr hpr).2] at he
    cases he
  | append leader index entryTerm term role log boundary stores =>
    have he := hown _ _ rfl ⟨leader, role, index, entryTerm, term, log, boundary⟩
    refine ⟨fun e' he' => ?_, fun pr hpr e' he' => ?_⟩
    · rw [log] at he'
      rcases mem_append.mp he' with he' | he'
      · exact hlog e' he'
      · exact mem_singleton.mp he' ▸ he
    · rw [stores] at hpr
      cases hpr
      exact mem_singleton.mp he' ▸ he
  | @accept msg _ _ prev entries commit truncateFrom new accepts log _ _ _ stores =>
    obtain ⟨kept, hk⟩ := scanEntries_spec accepts.scan
    have hnew : ∀ e ∈ new, P e := fun e he =>
      hmsg msg rfl _ _ _ _ accepts.body e (hk.parts ▸ mem_append_right kept he)
    refine ⟨fun e he => ?_, fun pr hpr e he => ?_⟩
    · rw [log] at he
      exact (mem_logWith he).elim (hlog e) (hnew e)
    · rw [(stores pr hpr).2.2] at he
      exact hnew e he
  | install _ _ _ _ log _ _ _ _ _ _ idle =>
    refine ⟨by simp [log], fun pr hpr e he => ?_⟩
    rw [(idle pr hpr).2] at he
    cases he

theorem Cluster.storeOn_entries {store : Store} {c : Core} {input : Input} {e : Entry}
    (h : e ∈ (storeOn store c input).entries) : e ∈ store.entries := by
  cases input with
  | message msg =>
    rw [storeOn, storeFor] at h
    split at h
    · split at h
      · cases h
      · exact h
    · exact h
  | _ => exact h

theorem StoreOp.apply_carries {op : StoreOp} {store : Store} (hstore : ∀ e ∈ store.entries, P e)
    (hop : ∀ entries, op = .append entries → ∀ e ∈ entries, P e) :
    ∀ e ∈ (op.apply store).entries, P e := by
  intro e he
  cases op with
  | truncate index => exact hstore e (mem_of_mem_take he)
  | setHardState hs => exact hstore e he
  | append entries => exact (mem_append.mp he).elim (hstore e) (hop entries rfl e)

theorem PersistRequest.append_mem_ops {pr : PersistRequest} {entries : List Entry}
    (h : .append entries ∈ pr.ops) : entries = pr.entries := by
  simp only [PersistRequest.ops, mem_append, mem_map, reduceCtorEq, and_false,
    exists_false, false_or, or_false] at h
  split at h
  · cases h
  · cases mem_singleton.mp h
    rfl

section Moves

variable {boot : NodeID → Configuration} {net : List Message} {n : NodeID} {r r' : Replica}
  {a : Act} {ms : List Message} {reps : List Report} {ps : List (NodeID × Panic)}

theorem Moves.node_eq (hm : Moves boot net n r a r' ms reps ps) : a.node = n := by
  cases hm with
  | input _ _ hands | panic _ _ hands =>
    cases hands with
    | deliver receiver => exact receiver
    | _ => rfl
  | _ => rfl

theorem Moves.reports_node (hm : Moves boot net n r a r' ms reps ps) :
    ∀ rep ∈ reps, rep.node = n := by
  cases hm with
  | input | complete =>
    intro rep hrep
    obtain ⟨e, -, rfl⟩ := mem_map.mp hrep
    rfl
  | _ => exact nofun

theorem Moves.reports_of_down (hm : Moves boot net n r a r' ms reps ps) (h : r'.core = none) :
    reps = [] := by
  cases hm with
  | crash | panic => rfl
  | _ => cases h

theorem Moves.replicates (hm : Moves boot net n r a r' ms reps ps) {m : Message} (hmem : m ∈ ms)
    (hbody : m.body.ofLeader = true) :
    ∃ c', r'.core = some c' ∧ c'.role = .leader ∧ c'.Replicates m := by
  cases hm with
  | @input _ c input c' out up idle hands known effect =>
    obtain ⟨hsender, hterm, hsent⟩ := effect.sent m hmem
    refine ⟨c', rfl, ?_⟩
    generalize hb : m.body = b at hsent hbody
    cases hsent with
    | replicate leads sent =>
      exact ⟨leads, by rw [hsender, effect.numbered.1], hterm, hb ▸ sent.body⟩
    | _ => cases hbody
  | @complete c seq =>
    obtain ⟨-, hms, -⟩ := c.handlePersistenceComplete_spec seq
    obtain ⟨p, -, hemits⟩ := hms m hmem
    cases hemits <;> cases hbody
  | _ => cases hmem

theorem Replica.Carries.moves (h : r.Carries P) (hnet : ∀ m ∈ net, m.Carries P)
    (hm : Moves boot net n r a r' ms reps ps)
    (hown : ∀ data c c' e, Hands n a (.propose data) → r.core = some c → r.writing = none →
      r'.core = some c' → c.Appends c' e → P e) :
    r'.Carries P ∧ ∀ m ∈ ms, m.Carries P := by
  have hup : ∀ {c : Core} {store : Store} {writing : Option (Nat × List StoreOp)},
      (∀ e ∈ c.log, P e) → (∀ e ∈ store.entries, P e) →
      (∀ seq ops, writing = some (seq, ops) → ∀ entries, .append entries ∈ ops →
        ∀ e ∈ entries, P e) → Replica.Carries P ⟨some c, store, writing⟩ := by
    intro c store writing hlog hstore hwriting
    refine ⟨fun c' hc => ?_, hstore, hwriting⟩
    cases hc
    exact hlog
  cases hm with
  | start down opened =>
    have hlog := (Store.open_stored opened).1.entries
    exact ⟨hup (hlog ▸ h.store) h.store nofun, by simp⟩
  | crash => exact ⟨⟨nofun, h.store, nofun⟩, by simp⟩
  | panic => exact ⟨⟨nofun, fun e he => h.store e (Cluster.storeOn_entries he), nofun⟩, by simp⟩
  | @input _ c input c' out up idle hands known effect =>
    have hmsg : ∀ msg, input = .message msg → msg.Carries P := by
      rintro msg rfl
      cases hands
      exact hnet msg (known _ rfl)
    obtain ⟨hlog, hstores⟩ := effect.log.carries (h.core c up) hmsg
      fun data e hinput he => hown data c c' e (hinput ▸ hands) up idle rfl he
    refine ⟨hup hlog (fun e he => h.store e (Cluster.storeOn_entries he)) ?_,
      fun m hm => (effect.sent m hm).carries hlog⟩
    rintro seq ops hw entries hop
    obtain ⟨pr, hpr, hops⟩ := Option.map_eq_some_iff.mp hw
    cases hops
    rw [PersistRequest.append_mem_ops hop]
    exact hstores pr hpr
  | @write c seq op ops up busy =>
    have hwriting := h.writing _ _ busy
    refine ⟨hup (h.core _ up) (StoreOp.apply_carries h.store ?_) ?_, by simp⟩
    · rintro entries rfl
      exact hwriting entries (mem_cons_self ..)
    · intro seq' ops' hw entries hop
      cases hw
      exact hwriting entries (mem_cons_of_mem _ hop)
  | @complete c seq up done =>
    obtain ⟨hframe, hms, -⟩ := c.handlePersistenceComplete_spec seq
    refine ⟨hup (hframe.log ▸ h.core c up) h.store nofun, fun m hm => ?_⟩
    obtain ⟨p, -, hemits⟩ := hms m hm
    exact hemits.carries
  | @apply c index up =>
    rw [setApplied_eq]
    exact ⟨hup (h.core c up) h.store nofun, by simp⟩
  | compact up _ compacted =>
    refine ⟨hup (fun e he => ?_) (fun e he => h.store e (mem_of_mem_drop he)) nofun, by simp⟩
    rw [(compact_eq compacted).2] at he
    exact h.core _ up e (mem_of_mem_drop he)

end Moves

namespace Cluster

theorem Carries.fresh : Carries P fresh :=
  ⟨fun _ => ⟨nofun, by simp [Cluster.fresh, Store.fresh], nofun⟩, by simp [Cluster.fresh]⟩

theorem Carries.step {boot : NodeID → Configuration} {s s' : Cluster} {a : Act}
    (h : s.Carries P) (hstep : s.step boot a = some s')
    (hown : ∀ data c c' e, Hands a.node a (.propose data) → s.idle a.node = some c →
      (s'.replicas a.node).core = some c' → c.Appends c' e → P e) : s'.Carries P := by
  obtain ⟨n, r', ms, reps, ps, hmoves, rfl⟩ := step_moves hstep
  obtain rfl := hmoves.node_eq
  obtain ⟨hr', hms⟩ := (h.replica _).moves h.net hmoves fun data c c' e hhands hc hidle hc' he =>
    hown data c c' e hhands (by rw [idle, hidle, hc]) (by simpa [moved] using hc') he
  refine ⟨fun m => ?_, fun m hm => ?_⟩
  · by_cases hm : m = a.node
    · rw [hm]
      simpa [moved] using hr'
    · simpa [moved, Function.update_of_ne hm] using h.replica m
  · exact (mem_append.mp hm).elim (h.net m) (hms m)

theorem step_propose_type {boot : NodeID → Configuration} {s s' : Cluster} {n : NodeID}
    {data : Bytes} (hstep : s.step boot (.propose n data) = some s') {c c' : Core}
    (hidle : s.idle n = some c) (hc' : (s'.replicas n).core = some c') {e : Entry}
    (happends : c.Appends c' e) : e.type = .normal := by
  rw [step, hidle, Option.map_some] at hstep
  cases hstep
  rw [feed, Core.step, Core.handlePropose, if_neg (by simp [happends.leads])] at hc'
  split at hc'
  · simp [panicked, update] at hc'
  case h_2 r happend =>
    obtain ⟨nx, mx, active, index, ms, rfl, -⟩ := Core.appendLeaderEntry_core happend
    have hlog := happends.log
    simp only [processOutput, update, Function.update_self, Option.some.injEq] at hc'
    rw [← hc'] at hlog
    have := append_cancel_left hlog
    cases this
    rfl

theorem lt_of_fits {data : Bytes} (h : fits data = true) : data.length < 2 ^ 32 := by
  have hle : (Node.encodeEntryPayload 0 .config data).length ≤ Wal.maxRecordPayloadSize := by
    simpa [fits] using h
  have hmax : Wal.maxRecordPayloadSize < 2 ^ 32 := by decide
  simp only [Node.encodeEntryPayload, length_append, length_cons] at hle
  omega

theorem step_proposeConfig {boot : NodeID → Configuration} {s s' : Cluster} {n : NodeID}
    {kind : MembershipChangeKind} {requestID addr : Bytes} {target : NodeID}
    (hstep : s.step boot (.proposeConfig n kind requestID target addr) = some s') {c c' : Core}
    (hidle : s.idle n = some c) (hc' : (s'.replicas n).core = some c') :
    ∃ out, c.proposeConfigChange kind requestID target addr = .ok (c', out) ∧
      ∀ e, c'.log = c.log ++ [e] → fits e.data = true := by
  simp only [step, hidle] at hstep
  split at hstep
  · cases hstep
  · cases hstep
    simp [panicked, update] at hc'
  case h_3 r hr =>
    split at hstep
    case isFalse => cases hstep
    case isTrue hfits =>
      cases hstep
      simp only [processOutput, update, Function.update_self, Option.some.injEq] at hc'
      refine ⟨r.2, by rw [hr, ← hc'], fun e he => ?_⟩
      obtain ⟨data, heffect⟩ := proposeConfigChange_effect hr
      rw [← hc'] at he
      cases heffect.log with
      | keep log => simp [log] at he
      | append _ _ _ _ _ log _ stores =>
        rw [stores, Option.map_some] at hfits
        have hsame := append_cancel_left (log.symm.trans he)
        exact all_eq_true.mp (Option.some.inj hfits) e (by rw [hsame]; exact mem_cons_self ..)

end Cluster

/-! ## Deliveries

What a step reports as committed is the piece of the log over which the commit index moves.
-/

theorem drop_take_append {α : Type} {ℓ : List α} {i j k : Nat} (hij : i ≤ j) (hjk : j ≤ k) :
    (ℓ.take j).drop i ++ (ℓ.take k).drop j = (ℓ.take k).drop i := by
  have htake : ℓ.take j = (ℓ.take k).take j := by rw [take_take, Nat.min_eq_left hjk]
  rw [htake, drop_take]
  conv_rhs => rw [← take_append_drop (j - i) ((ℓ.take k).drop i), drop_drop,
    Nat.add_sub_cancel' hij]

namespace Core

theorem newlyCommitted_self (c : Core) : c.newlyCommitted c.commitIndex = [] := by
  unfold newlyCommitted slice
  apply drop_eq_nil_of_le
  rw [length_take]
  omega

theorem newlyCommitted_append {c c' : Core} (hboundary : c.snapshotIndex ≤ c.commitIndex)
    (hlog : c'.log = c.log) (hindex : c'.snapshotIndex = c.snapshotIndex) {n : Nat}
    (hlow : c.commitIndex ≤ c'.commitIndex) (hhigh : c'.commitIndex ≤ n) :
    c.newlyCommitted c'.commitIndex ++ c'.newlyCommitted n = c.newlyCommitted n := by
  have hpiece : ∀ {d : Core} (k : Nat), d.snapshotIndex ≤ d.commitIndex → d.newlyCommitted k =
      (d.log.take (k - d.snapshotIndex)).drop (d.commitIndex - d.snapshotIndex) := by
    intro d k hd
    rw [newlyCommitted, slice]
    congr 1
    omega
  rw [hpiece _ hboundary, hpiece _ hboundary, hpiece n (by omega), hlog, hindex,
    drop_take_append (by omega) (by omega)]

/-- The entries up to the commit index of `r` are reported after those of `out`. -/
structure Extends (c : Core) (out : Output) (r : Core × Output) : Prop where
  le : c.commitIndex ≤ r.1.commitIndex
  reports : r.2.committedEntries = out.committedEntries ++ c.newlyCommitted r.1.commitIndex

theorem Extends.same {c c' : Core} {out out' : Output} (hcommit : c'.commitIndex = c.commitIndex)
    (hout : out'.committedEntries = out.committedEntries) : Extends c out (c', out') :=
  ⟨hcommit.ge, by rw [hout, hcommit, newlyCommitted_self, append_nil]⟩

theorem advanceFollowerCommit_extends (c : Core) (n : Nat) (out : Output) :
    Extends c out (c.advanceFollowerCommit n out) := by
  obtain ⟨-, h⟩ | ⟨hlt, h⟩ := c.advanceFollowerCommit_cases n out
  · rw [h]
    exact .same rfl rfl
  · rw [h]
    exact ⟨hlt.le, rfl⟩

theorem advanceLeaderCommit_extends (c : Core) (out : Output) :
    Extends c out (c.advanceLeaderCommit out) := by
  obtain h | ⟨n, hlt, -, -, -, h⟩ := c.advanceLeaderCommit_cases out
  · rw [h]
    exact .same rfl rfl
  · rw [h]
    obtain hstep | ⟨-, -, hstep⟩ := maybeStepDown_cases _ _
    · rw [hstep]
      exact ⟨hlt.le, rfl⟩
    · rw [hstep]
      exact ⟨hlt.le, rfl⟩

theorem releaseItem_extends (r : Core × Output) (p : PendingItem) :
    Extends r.1 r.2 (releaseItem r p) := by
  unfold releaseItem
  dsimp only
  split
  case h_1 => split <;> exact .same rfl rfl
  case h_2 => split <;> exact .same rfl rfl
  case h_3 =>
    split
    · exact advanceFollowerCommit_extends _ _ _
    · exact .same rfl rfl
  case h_4 index entryTerm hkind =>
    split
    case isTrue =>
      split
      · obtain ⟨hle, hreports⟩ := advanceLeaderCommit_extends
          { r.1 with matchIndex := r.1.matchIndex.set r.1.cfg.id index } r.2
        exact ⟨hle, hreports⟩
      · exact advanceLeaderCommit_extends r.1 r.2
    case isFalse => exact .same rfl rfl

theorem foldl_releaseItem_extends (items : List PendingItem) (r : Core × Output)
    (hboundary : r.1.snapshotIndex ≤ r.1.commitIndex) :
    Extends r.1 r.2 (items.foldl releaseItem r) := by
  induction items generalizing r with
  | nil => exact .same rfl rfl
  | cons p items ih =>
    have hframe := (releaseItem_releases r p).frame
    have hp := releaseItem_extends r p
    have hitems := ih (releaseItem r p) (by rw [hframe.boundary.index]; exact hboundary.trans hp.le)
    refine ⟨hp.le.trans hitems.le, ?_⟩
    rw [foldl_cons, hitems.reports, hp.reports, append_assoc,
      newlyCommitted_append hboundary hframe.log hframe.boundary.index hp.le hitems.le]

theorem handlePersistenceComplete_extends (c : Core) (seq : Nat)
    (hboundary : c.snapshotIndex ≤ c.commitIndex) :
    Extends c {} (c.handlePersistenceComplete seq) := by
  obtain ⟨hle, hreports⟩ := foldl_releaseItem_extends (c.completed seq)
    ({ c with persistedSeq := max c.persistedSeq seq }, {}) hboundary
  exact ⟨hle, hreports⟩

end Core

/-- What becomes of the commit index of a core in one move, and what the move reports. -/
inductive Delivers (boot : NodeID → Configuration) (n : NodeID) (r : Replica) (a : Act)
    (c' : Core) (reps : List Report) : Prop where
  | opened (start : a = .start n) (opened : r.store.open ⟨n, boot n⟩ = some c') (none : reps = [])
  | keep {c} (up : r.core = some c) (commit : c'.commitIndex = c.commitIndex) (none : reps = [])
  | advance {c} (up : r.core = some c) (above : c.commitIndex < c'.commitIndex)
      (log : c'.log = c.log) (index : c'.snapshotIndex = c.snapshotIndex)
      (reports : reps.map (·.entry) = c.newlyCommitted c'.commitIndex)
  | install {c msg index term cfg hasCfg} (up : r.core = some c) (act : a = .deliver msg)
      (body : msg.body = .installSnapshotRequest index term cfg hasCfg)
      (msgTerm : c.currentTerm ≤ msg.term) (above : c.snapshotIndex < index)
      (new : c.commitIndex < index) (commit : c'.commitIndex = index) (none : reps = [])

theorem Moves.delivers {boot : NodeID → Configuration} {net : List Message} {n : NodeID}
    {r r' : Replica} {a : Act} {ms : List Message} {reps : List Report}
    {ps : List (NodeID × Panic)} (hm : Moves boot net n r a r' ms reps ps)
    (hb : ∀ c, r.core = some c → c.snapshotIndex ≤ c.commitIndex) {c' : Core}
    (hc' : r'.core = some c') : Delivers boot n r a c' reps := by
  cases hm with
  | start down opened =>
    cases hc'
    exact .opened rfl opened rfl
  | crash | panic => cases hc'
  | write up =>
    cases hc'
    exact .keep up rfl rfl
  | @apply c index up =>
    cases hc'
    exact .keep up (by rw [setApplied_eq]) rfl
  | compact up _ compacted =>
    cases hc'
    exact .keep up (by rw [(compact_eq compacted).2]) rfl
  | @complete c seq up =>
    cases hc'
    obtain ⟨hframe, -, -, hadvances, -⟩ := c.handlePersistenceComplete_spec seq
    have hcommitted := (c.handlePersistenceComplete_extends seq (hb c up)).reports
    rw [nil_append] at hcommitted
    rcases hadvances.within with heq | ⟨hlt, -⟩
    · refine .keep up heq ?_
      rw [hcommitted, heq, newlyCommitted_self, map_nil]
    · refine .advance up hlt hframe.log hframe.boundary.index ?_
      rw [hcommitted, map_map]
      exact map_id _
  | @input _ c input c' out up idle hands known effect =>
    cases hc'
    have hmap : (out.committedEntries.map fun e => (⟨n, c'.currentTerm, e⟩ : Report)).map (·.entry) =
        out.committedEntries := by
      rw [map_map]
      exact map_id _
    cases effect.commit with
    | keep commit _ _ reports => exact .keep up commit (by rw [reports, map_nil])
    | @leader msg _ _ index leads msgTerm body rule _ reports =>
      cases effect.log with
      | keep log boundary =>
        exact .advance up rule.above log boundary.index (hmap.trans reports)
      | accept accepts =>
        rcases body with ⟨_, _, hbody⟩ | hbody <;> cases hbody.symm.trans accepts.body
      | install hinstall =>
        rcases body with ⟨_, _, hbody⟩ | hbody <;> cases hbody.symm.trans hinstall
    | follower accepts log above _ _ reports =>
      cases effect.log with
      | keep _ boundary => exact .advance up above log boundary.index (hmap.trans reports)
      | accept _ _ boundary => exact .advance up above log boundary.index (hmap.trans reports)
      | install hinstall => cases accepts.body.symm.trans hinstall
    | install body msgTerm new snapshot log commit _ reports =>
      cases hands
      cases effect.log with
      | keep _ boundary =>
        have := boundary.index
        have := hb c up
        omega
      | accept accepts => cases accepts.body.symm.trans body
      | install hbody _ above =>
        cases hbody.symm.trans body
        exact .install up rfl body msgTerm above new commit (by rw [reports, map_nil])

end ChronicleDB.Raft
