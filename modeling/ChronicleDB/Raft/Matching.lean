import ChronicleDB.Raft.Elections

/-!
# Log matching

A cluster of at least two voters, which never change.  The leader of a term has a log to
which it only appends, and every log, in memory, on disk or on its way, is put together from
the logs of leaders.
-/

namespace ChronicleDB.Raft

open Foundation Consensus List Function Raft.Core

section Ledger

variable (V : Finset NodeID) (votes : Set (NodeID × Nat × NodeID)) (llog : Nat → List Entry)
  (led : Nat → Option NodeID) (n : NodeID)

/-- The entries of a store are those of a sound log above the boundary. -/
def Store.Kept (store : Store) : Prop :=
  ∃ ℓ, Sound llog ℓ ∧ store.boundaryIndex ≤ ℓ.length ∧
    store.entries = ℓ.drop store.boundaryIndex ∧ store.boundaryTerm = termAt ℓ store.boundaryIndex

/-- A node that has led in a term does not campaign in it again. -/
structure Core.Kept (c : Core) : Prop where
  whole : ∃ ℓ, c.Shows ℓ ∧ Sound llog ℓ
  leader : c.role = .leader → led c.currentTerm = some n ∧ c.Shows (llog c.currentTerm)
  past : ∀ t, led t = some n → t ≤ c.currentTerm ∧ (c.role = .candidate → t < c.currentTerm)

structure Replica.Kept (r : Replica) : Prop where
  store : r.store.Kept llog
  past : ∀ t, led t = some n → t ≤ r.store.hardState.currentTerm
  core : ∀ c, r.core = some c → c.Kept llog led n

/-- Requests with entries hold a piece of the log of the leader of their term, and the
boundary of a snapshot is an entry of the leader of its term. -/
def Message.Sound (m : Message) : Prop :=
  match m.body with
  | .appendEntriesRequest prev prevTerm entries _ =>
    entries ≠ [] → Segment (llog m.term) prev prevTerm entries
  | .installSnapshotRequest index term _ _ =>
    index ≤ (llog term).length ∧ termAt (llog term) index = term
  | _ => True

/-- `led t` has led in term `t`, and `llog t` is the log with which it did. -/
structure Cluster.Ledger (s : Cluster) : Prop where
  polled : s.Polled V votes
  sound : ∀ t, Sound llog (llog t)
  empty : ∀ t, led t = none → llog t = []
  won : ∀ t n, led t = some n → Elected V votes n t
  replica : ∀ n, (s.replicas n).Kept llog led n
  net : ∀ m ∈ s.net, m.Sound llog

/-- The logs of the leaders after a move of `n`. -/
structure LogsGrow (llog' : Nat → List Entry) (led' : Nat → Option NodeID) : Prop where
  grows : ∀ t, llog t <+: llog' t
  same : ∀ t, llog' t = llog t ∧ led' t = led t ∨ Sound llog' (llog' t) ∧ led' t = some n ∧
    Elected V votes n t ∧ ∀ m, led t = some m → m = n

end Ledger

variable {V : Finset NodeID} {votes votes' : Set (NodeID × Nat × NodeID)}
  {llog llog' : Nat → List Entry} {led led' : Nat → Option NodeID} {n : NodeID} {c c' : Core}
  {input : Input} {out : Output} {ℓ : List Entry} {store : Store} {m : Message}

theorem LogsGrow.refl : LogsGrow V votes llog led n llog led :=
  ⟨fun _ => prefix_rfl, fun _ => .inl ⟨rfl, rfl⟩⟩

/-! ## Moves of a store -/

namespace Store.Kept

theorem grow (h : store.Kept llog) (hgrow : ∀ t, llog t <+: llog' t) : store.Kept llog' := by
  obtain ⟨ℓ, hsound, h⟩ := h
  exact ⟨ℓ, hsound.grow hgrow, h⟩

theorem truncate (h : store.Kept llog) (index : Nat) :
    ((StoreOp.truncate index).apply store).Kept llog := by
  obtain ⟨ℓ, hsound, hle, hlog, hterm⟩ := h
  refine ⟨ℓ.take (store.boundaryIndex + (index - store.boundaryIndex - 1)),
    hsound.of_initial ( take_prefix _ _), ?_, ?_, ?_⟩
  · simp only [StoreOp.apply, length_take]
    omega
  · simp only [StoreOp.apply, hlog, drop_take, Nat.add_sub_cancel_left]
  · exact hterm.trans (termAt_take (Nat.le_add_right _ _)).symm

theorem of_stored (h : Stored store c) (hwhole : ∃ ℓ, c.Shows ℓ ∧ Sound llog ℓ) :
    store.Kept llog := by
  obtain ⟨ℓ, hℓ, hsound⟩ := hwhole
  rw [Store.Kept, h.index, h.boundaryTerm, h.entries]
  exact ⟨ℓ, hsound, hℓ.le, hℓ.log, hℓ.boundary⟩

theorem storeOn (h : store.Kept llog) (hllog : ∀ t, Sound llog (llog t)) (c : Core)
    (hmsg : ∀ msg, input = .message msg → msg.Sound llog) :
    (Cluster.storeOn store c input).Kept llog := by
  cases input with
  | message msg =>
    rw [Cluster.storeOn, Cluster.storeFor]
    split
    case h_2 => exact h
    case h_1 index term cfg hasCfg hbody =>
      split
      case isFalse => exact h
      case isTrue =>
        have hentry := hmsg msg rfl
        rw [Message.Sound, hbody] at hentry
        refine ⟨(llog term).take index, (hllog term).of_initial ( take_prefix _ _), ?_, ?_, ?_⟩
        · exact (length_take_of_le hentry.1).ge
        · exact (drop_eq_nil_of_le (length_take_le _ _)).symm
        · exact ((termAt_take le_rfl).trans hentry.2).symm
  | _ => exact h

end Store.Kept

/-! ## Messages -/

theorem Message.Sound.grow (h : m.Sound llog) (hgrow : ∀ t, llog t <+: llog' t) :
    m.Sound llog' := by
  unfold Message.Sound at h ⊢
  split
  case h_1 prev _ _ _ hbody =>
    simp only [hbody] at h
    intro hne
    obtain ⟨hle, hterm, hentries⟩ := h hne
    exact ⟨hle.trans (hgrow _).length_le, hterm.trans (termAt_of_initial (hgrow _) hle).symm,
      hentries.trans ((hgrow _).drop prev)⟩
  case h_2 hbody =>
    simp only [hbody] at h
    exact ⟨h.1.trans (hgrow _).length_le, (termAt_of_initial (hgrow _) h.1).trans h.2⟩
  case h_3 => trivial

theorem Core.Replicates.sound (h : c.Replicates m) (hshows : c.Shows (llog c.currentTerm))
    (hsound : Sound llog (llog c.currentTerm)) : m.Sound llog := by
  have hlast := hshows.lastIndex_eq
  have hle := hshows.le
  unfold Message.Sound
  rcases h.body with ⟨next, hnext, hbody⟩ | ⟨hbody, hpos⟩
  · rw [hbody, h.term]
    dsimp only
    split
    case isFalse => exact fun hne => absurd rfl hne
    case isTrue hnext' =>
      refine fun _ => ⟨by omega, hshows.termAt_eq (by omega), ?_⟩
      rw [slice, hshows.log, take_of_length_le (by simp only [length_drop]; omega), drop_drop,
        show c.snapshotIndex + (next - c.snapshotIndex - 1) = next - 1 by omega]
  · -- the boundary is an entry of the leader, and of the leader of its term
    obtain ⟨i, hi⟩ : ∃ i, c.snapshotIndex = i + 1 := ⟨c.snapshotIndex - 1, by omega⟩
    obtain ⟨e, he⟩ : ∃ e, (llog c.currentTerm)[i]? = some e :=
      ⟨_, List.getElem?_eq_getElem (by omega)⟩
    have hterm : c.snapshotTerm = Termed.term e := by
      rw [hshows.boundary, hi, termAt_succ_of_getElem? he]
    have hleader := hsound.leader_getElem? he
    rw [hbody, hterm, hi]
    exact ⟨(List.getElem?_eq_some_iff.mp hleader).1, termAt_succ_of_getElem? hleader⟩

/-! ## Moves of a core -/

theorem Core.VoteMove.past (h : c.VoteMove input c' out) {t : Nat}
    (ht : t ≤ c.currentTerm ∧ (c.role = .candidate → t < c.currentTerm)) :
    t ≤ c'.currentTerm ∧ (c'.role = .candidate → t < c'.currentTerm) := by
  cases h with
  | clear _ _ _ blocked =>
    have := blocked.1
    grind
  | _ => grind

theorem Core.VoteMove.leads (h : c.VoteMove input c' out) (hactive : c.activeConfig.Votes V)
    (hV : 1 < V.card) (hlead : c'.role = .leader) :
    c'.currentTerm = c.currentTerm ∧ (c.role = .leader ∨ c.role = .candidate) := by
  cases h with
  | clear _ _ _ blocked =>
    have := blocked.1
    grind
  | campaign _ voter _ _ role =>
    obtain ⟨-, halone⟩ := role.resolve_left (by simp [hlead])
    rw [hactive.alone (hactive.isVoter_iff.mp voter) halone] at hV
    simp at hV
  | _ => grind

/-- A core keeps its log, appends to it as leader, or follows a leader. -/
theorem Core.LogMove.whole (h : c.LogMove input c' out) (hshows : c.Shows ℓ)
    (hsound : Sound llog ℓ) (hllog : ∀ t, Sound llog (llog t))
    (hmsg : ∀ msg, input = .message msg → msg.Sound llog) :
    ∃ ℓ', c'.Shows ℓ' ∧ (ℓ' = ℓ ∨ (∃ e, c.Appends c' e ∧ ℓ' = ℓ ++ [e]) ∨
      Sound llog ℓ' ∧ c'.role = .follower) := by
  cases h with
  | keep log boundary => exact ⟨ℓ, hshows.congr log boundary, .inl rfl⟩
  | @append _ _ _ e leader index entryTerm term role log boundary =>
    exact ⟨ℓ ++ [e], hshows.append log boundary,
      .inr (.inl ⟨e, ⟨leader, role, index, entryTerm, term, log, boundary⟩, rfl⟩)⟩
  | @accept msg _ _ prev entries _ _ _ accepts log boundary _ role =>
    have hseg := hmsg msg rfl
    rw [Message.Sound, accepts.body] at hseg
    by_cases hne : entries = []
    · -- nothing to take over
      obtain ⟨ℓ', kept, hshows', hsplice⟩ := accepts.spliced hshows log boundary
      have hparts := hsplice.parts
      rw [hne, nil_eq_append_iff] at hparts
      exact ⟨ℓ', hshows', .inl (hsplice.same hparts.2)⟩
    · obtain ⟨ℓ', hshows', hfollowed⟩ :=
        accepts.followed hshows hsound (hllog msg.term) (hseg hne) log boundary
      refine ⟨ℓ', hshows', .inr (.inr ⟨?_, role⟩)⟩
      rcases hfollowed.result with ⟨-, rfl, -⟩ | ⟨-, rfl⟩
      · exact hsound
      · exact (hllog msg.term).of_initial ( take_prefix _ _)
  | @install msg _ _ index term _ _ body _ _ _ log snapshotIndex snapshotTerm _ _ _ role =>
    have hentry := hmsg msg rfl
    rw [Message.Sound, body] at hentry
    exact ⟨(llog term).take index,
      .install hentry.1 log snapshotIndex (snapshotTerm.trans hentry.2.symm),
      .inr (.inr ⟨(hllog term).of_initial ( take_prefix _ _), role⟩)⟩

namespace Core.Kept

theorem keep (h : c.Kept llog led n) (hshows : ∀ ℓ, c.Shows ℓ → c'.Shows ℓ)
    (hterm : c'.currentTerm = c.currentTerm) (hrole : c'.role = c.role ∨ c'.role = .follower) :
    c'.Kept llog led n := by
  obtain ⟨⟨ℓ, hℓ, hsound⟩, hleader, hpast⟩ := h
  refine ⟨⟨ℓ, hshows ℓ hℓ, hsound⟩, fun hlead => ?_, fun t ht => ?_⟩
  · grind
  · have := hpast t ht
    grind

theorem follow (h : c.Kept llog led n) (effect : c.Effect input c' out)
    (hllog : ∀ t, Sound llog (llog t)) (hmsg : ∀ msg, input = .message msg → msg.Sound llog)
    (hlead : c'.role ≠ .leader) : c'.Kept llog led n := by
  obtain ⟨ℓ, hshows, hsound⟩ := h.whole
  obtain ⟨ℓ', hshows', hwhole⟩ := effect.log.whole hshows hsound hllog hmsg
  refine ⟨⟨ℓ', hshows', ?_⟩, fun hl => absurd hl hlead, fun t ht => effect.votes.past (h.past t ht)⟩
  rcases hwhole with rfl | ⟨e, happends, -⟩ | ⟨hsound', -⟩
  · exact hsound
  · exact absurd happends.stays hlead
  · exact hsound'

/-- A candidate wins an election that is not over, and a leader appends to its log. -/
theorem lead (h : c.Kept llog led n) (effect : c.Effect input c' out)
    (hllog : ∀ t, Sound llog (llog t)) (hmsg : ∀ msg, input = .message msg → msg.Sound llog)
    (hempty : ∀ t, led t = none → llog t = []) (hactive : c.activeConfig.Votes V)
    (hV : 1 < V.card) (hlead : c'.role = .leader) (helected : Elected V votes n c'.currentTerm)
    (hled : ∀ m, led c'.currentTerm = some m → m = n) :
    c'.currentTerm = c.currentTerm ∧ ∃ ℓ', let llog' := update llog c'.currentTerm ℓ'
      let led' := update led c'.currentTerm (some n)
      LogsGrow V votes llog led n llog' led' ∧ c'.Kept llog' led' n := by
  obtain ⟨hterm, hrole⟩ := effect.votes.leads hactive hV hlead
  obtain ⟨ℓ, hshows, hsound, hpre⟩ :
      ∃ ℓ, c.Shows ℓ ∧ Sound llog ℓ ∧ llog c'.currentTerm <+: ℓ := by
    rcases hrole with hrole | hrole
    · exact ⟨_, (h.leader hrole).2, hllog _, hterm ▸ prefix_rfl⟩
    · obtain ⟨ℓ, hshows, hsound⟩ := h.whole
      refine ⟨ℓ, hshows, hsound, ?_⟩
      cases hm : led c'.currentTerm with
      | none => exact hempty _ hm ▸ nil_prefix
      | some m =>
        have := (h.past _ (hled m hm ▸ hm)).2 hrole
        omega
  obtain ⟨ℓ', hshows', hwhole⟩ := effect.log.whole hshows hsound hllog hmsg
  have hgrows : ∀ t, llog t <+: update llog c'.currentTerm ℓ' t := by
    intro t
    by_cases ht : t = c'.currentTerm
    · rw [ht, update_self]
      rcases hwhole with rfl | ⟨e, -, rfl⟩ | ⟨-, hfollower⟩
      · exact hpre
      · exact hpre.trans (prefix_append ..)
      · cases hfollower.symm.trans hlead
    · rw [update_of_ne ht]
  have hsound' : Sound (update llog c'.currentTerm ℓ') ℓ' := by
    rcases hwhole with rfl | ⟨e, happends, rfl⟩ | ⟨-, hfollower⟩
    · exact hsound.grow hgrows
    · refine (hsound.grow hgrows).snoc ?_
      rw [show Termed.term e = c'.currentTerm from happends.entryTerm.trans hterm.symm, update_self]
    · cases hfollower.symm.trans hlead
  refine ⟨hterm, ℓ', ⟨hgrows, fun t => ?_⟩, ⟨ℓ', hshows', hsound'⟩, fun _ => ?_, fun t ht => ?_⟩
  · by_cases ht : t = c'.currentTerm
    · rw [ht, update_self, update_self]
      exact .inr ⟨hsound', rfl, helected, hled⟩
    · rw [update_of_ne ht, update_of_ne ht]
      exact .inl ⟨rfl, rfl⟩
  · rw [update_self, update_self]
    exact ⟨rfl, hshows'⟩
  · by_cases ht' : t = c'.currentTerm
    · simp [ht', hlead]
    · rw [update_of_ne ht'] at ht
      exact effect.votes.past (h.past t ht)

end Core.Kept

/-! ## Moves of a replica -/

namespace Replica.Kept

variable {boot : NodeID → Configuration} {r r' : Replica}

theorem up {w : Option (Nat × List StoreOp)} (hstore : store.Kept llog)
    (hpast : ∀ t, led t = some n → t ≤ store.hardState.currentTerm) (hcore : c.Kept llog led n) :
    Replica.Kept llog led n ⟨some c, store, w⟩ := by
  refine ⟨hstore, hpast, ?_⟩
  rintro _ ⟨⟩
  exact hcore

theorem other (h : r.Kept llog led n) {m : NodeID} (hext : LogsGrow V votes llog led m llog' led')
    (hm : n ≠ m) : r.Kept llog' led' n := by
  have hled : ∀ t, led' t = some n → led t = some n := by
    intro t ht
    rcases hext.same t with ⟨-, hled⟩ | ⟨-, hled, -⟩
    · exact hled.symm.trans ht
    · exact absurd (Option.some.inj (ht.symm.trans hled)) hm
  refine ⟨h.store.grow hext.grows, fun t ht => h.past t (hled t ht), fun c hc => ?_⟩
  obtain ⟨⟨ℓ, hℓ, hsound⟩, hleader, hpast⟩ := h.core c hc
  refine ⟨⟨ℓ, hℓ, hsound.grow hext.grows⟩, fun hlead => ?_, fun t ht => hpast t (hled t ht)⟩
  rcases hext.same c.currentTerm with ⟨hsame, hled'⟩ | ⟨-, -, -, hother⟩
  · rw [hsame, hled']
    exact hleader hlead
  · exact absurd (hother n (hleader hlead).1) hm

/-- Only the last write before the hard state can add entries. -/
theorem write (h : r.Kept llog led n) (hsync : r.Synced ⟨n, boot n⟩) {seq : Nat} {op : StoreOp}
    {ops : List StoreOp} (up : r.core = some c) (busy : r.writing = some (seq, op :: ops)) :
    (op.apply r.store).Kept llog := by
  cases op with
  | truncate index => exact h.store.truncate index
  | setHardState hs => exact h.store
  | append entries =>
    obtain ⟨pr, hops, hstored, -⟩ := hsync.busy _ _ _ up busy
    obtain ⟨pr', hops', happly⟩ := PersistRequest.ops_tail hops.symm r.store
    have hidle := PersistRequest.idle_of_append hops.symm hops'
    have hkept := Store.Kept.of_stored hstored (h.core c up).whole
    rwa [Store.Kept, ← happly, PersistRequest.apply_boundaryIndex, (pr'.apply_boundary _).1,
      hidle.apply_entries] at hkept

end Replica.Kept

theorem ledger_moves {boot : NodeID → Configuration} {s : Cluster} {r' : Replica} {a : Act}
    {ms : List Message} {reps : List Report} {ps : List (NodeID × Panic)}
    (h : s.Ledger V votes llog led) (hV : 1 < V.card) (hboot : ∀ n, (boot n).Votes V)
    (hrun : Cluster.Run boot (KeepsVoters V) .fresh s)
    (hm : Moves boot s.net n (s.replicas n) a r' ms reps ps) (hsub : votes ⊆ votes')
    {stubs : NodeID → Stub NodeID} (hpoll : Poll noVote V stubs votes')
    (hpolled : r'.Polled V votes' n) :
    ∃ llog' led', LogsGrow V votes' llog led n llog' led' ∧ r'.Kept llog' led' n := by
  obtain ⟨hstore, hpast, hcore⟩ := h.replica n
  have hsync := Cluster.Run.synced hrun n
  have hmsg : ∀ {input : Input}, Hands n a input → (∀ msg, a = .deliver msg → msg ∈ s.net) →
      ∀ msg, input = .message msg → msg.Sound llog := by
    rintro _ hands known msg rfl
    cases hands
    exact h.net msg (known _ rfl)
  cases hm with
  | start down opened =>
    obtain ⟨hstored, -⟩ := Store.open_stored opened
    have hrole := (Store.open_follower opened).1
    refine ⟨llog, led, .refl, .up hstore hpast ⟨?_, by simp [hrole], fun t ht => ?_⟩⟩
    · obtain ⟨ℓ, hsound, hle, hlog, hterm⟩ := hstore
      rw [hstored.index] at hle hlog hterm
      exact ⟨ℓ, ⟨hle, hstored.entries ▸ hlog, hstored.boundaryTerm ▸ hterm⟩, hsound⟩
    · exact ⟨hstored.term ▸ hpast t ht, by simp [hrole]⟩
  | crash => exact ⟨llog, led, .refl, hstore, hpast, nofun⟩
  | panic _ _ hands known =>
    refine ⟨llog, led, .refl, hstore.storeOn h.sound _ (hmsg hands known), fun t ht => ?_, nofun⟩
    rw [Stored.storeOn_hardState]
    exact hpast t ht
  | @write c seq op ops up busy =>
    refine ⟨llog, led, .refl, .up ((h.replica n).write hsync up busy) (fun t ht => ?_) (hcore c up)⟩
    cases op with
    | setHardState hs =>
      refine (hpast t ht).trans ?_
      exact ((h.polled.replica n).writing seq _ hs busy mem_cons_self).elim le_of_lt (·.1.le)
    | _ => exact hpast t ht
  | @complete c seq up =>
    obtain ⟨hframe, -⟩ := c.handlePersistenceComplete_spec seq
    obtain ⟨h₁, h₂, h₃, h₄⟩ := hframe.boundary
    exact ⟨llog, led, .refl, .up hstore hpast ((hcore c up).keep
      (fun ℓ hℓ => hℓ.congr hframe.log ⟨h₁, h₂, h₃, h₄⟩) hframe.currentTerm
      (hframe.role.imp And.left And.right))⟩
  | @apply c index up =>
    rw [setApplied_eq]
    refine ⟨llog, led, .refl, .up hstore hpast ((hcore c up).keep ?_ rfl (.inl rfl))⟩
    exact fun ℓ hℓ => ⟨hℓ.le, hℓ.log, hℓ.boundary⟩
  | @compact c c' index up idle compacted =>
    obtain ⟨ℓ₀, hbacked⟩ := ((Cluster.Run.backed hrun).replica n).core c up
    have hle : c'.snapshotIndex ≤ c.lastIndex :=
      hbacked.shows.lastIndex_eq ▸ (hbacked.compact compacted).shows.le
    obtain ⟨habove, hc'⟩ := compact_eq compacted
    have hshows : ∀ ℓ, c.Shows ℓ → c'.Shows ℓ := by
      intro ℓ hℓ
      rw [hℓ.lastIndex_eq] at hle
      rw [hc'] at hle ⊢
      refine ⟨hle, ?_, hℓ.termAt_eq habove.le⟩
      rw [hℓ.log, drop_drop, Nat.add_sub_cancel' habove.le]
    have hkept := (hcore c up).keep hshows (by rw [hc']) (.inl (by rw [hc']))
    have hstored := (hsync.idle c up idle).1.compact compacted
    exact ⟨llog, led, .refl, .up (.of_stored hstored hkept.whole) hpast hkept⟩
  | @input _ c input c' out up idle hands known effect =>
    have hmsg := hmsg hands known
    have hstore' := hstore.storeOn h.sound c hmsg
    have hhs := Stored.storeOn_hardState (s.replicas n).store c input
    by_cases hlead : c'.role = .leader
    · have helected := (hpolled.core c' rfl).leader hlead
      obtain ⟨hterm, ℓ', hext, hkept⟩ := (hcore c up).lead effect h.sound hmsg h.empty
        (Cluster.Run.activeConfig_votes hboot hrun up) hV hlead helected fun m hm =>
          hpoll.elected_unique ((h.won _ m hm).mono hsub) helected
      refine ⟨_, _, hext, .up (hstore'.grow hext.grows) (fun t ht => ?_) hkept⟩
      rw [hhs, (hsync.idle c up idle).1.term, ← hterm]
      exact (hkept.past t ht).1
    · exact ⟨llog, led, .refl, .up hstore' (hhs ▸ hpast)
        ((hcore c up).follow effect h.sound hmsg hlead)⟩

/-! ## Runs -/

namespace Cluster

variable {boot : NodeID → Configuration} {s s' : Cluster}

theorem Ledger.step (h : s.Ledger V votes llog led) (hV : 1 < V.card)
    (hboot : ∀ n, (boot n).Votes V) (hrun : Run boot (KeepsVoters V) fresh s) {a : Act}
    (hstep : s.step boot a = some s') :
    ∃ votes' llog' led', (∀ t, llog t <+: llog' t) ∧ s'.Ledger V votes' llog' led' := by
  obtain ⟨votes', hsub, hpolled⟩ := h.polled.step hboot hrun hstep
  obtain ⟨n, r', ms, reps, ps, hmoves, rfl⟩ := step_moves hstep
  have hr' : (s.moved n r' ms reps ps).replicas n = r' := by simp [moved]
  obtain ⟨llog', led', hext, hkept⟩ :=
    ledger_moves h hV hboot hrun hmoves hsub hpolled.poll (hr' ▸ hpolled.replica n)
  have hsound : ∀ t, Sound llog' (llog' t) := by
    intro t
    rcases hext.same t with ⟨hsame, -⟩ | ⟨hsound, -⟩
    · rw [hsame]
      exact (h.sound t).grow hext.grows
    · exact hsound
  refine ⟨votes', llog', led', hext.grows, hpolled, hsound, fun t ht => ?_, fun t m hm => ?_,
    fun m => ?_, fun m hm => ?_⟩
  · rcases hext.same t with ⟨hsame, hled⟩ | ⟨-, hled, -⟩
    · exact hsame.trans (h.empty t (hled.symm.trans ht))
    · cases hled.symm.trans ht
  · rcases hext.same t with ⟨-, hled⟩ | ⟨-, hled, helected, -⟩
    · exact (h.won t m (hled.symm.trans hm)).mono hsub
    · cases hled.symm.trans hm
      exact helected
  · by_cases hmn : m = n
    · rw [hmn, hr']
      exact hkept
    · simpa [moved, update_of_ne hmn] using (h.replica m).other hext hmn
  · rcases mem_append.mp hm with hm | hm
    · exact (h.net m hm).grow hext.grows
    · cases hbody : m.body.ofLeader with
      | false => unfold Message.Sound; split <;> simp_all [Body.ofLeader]
      | true =>
        obtain ⟨c', hc', hlead, hsent⟩ := hmoves.replicates hm hbody
        exact hsent.sound ((hkept.core c' hc').leader hlead).2 (hsound _)

theorem Run.ledger (h : s.Ledger V votes llog led) (hV : 1 < V.card)
    (hboot : ∀ n, (boot n).Votes V) (hrun : Run boot (KeepsVoters V) fresh s)
    (hrun' : Run boot (KeepsVoters V) s s') :
    ∃ votes' llog' led', (∀ t, llog t <+: llog' t) ∧ s'.Ledger V votes' llog' led' := by
  induction hrun' with
  | refl => exact ⟨votes, llog, led, fun _ => prefix_rfl, h⟩
  | tail hinitial hstep ih =>
    obtain ⟨votes₁, llog₁, led₁, hgrows₁, h₁⟩ := ih
    obtain ⟨a, -, hstep⟩ := hstep
    obtain ⟨votes₂, llog₂, led₂, hgrows₂, h₂⟩ := h₁.step hV hboot (hrun.trans hinitial) hstep
    exact ⟨votes₂, llog₂, led₂, fun t => (hgrows₁ t).trans (hgrows₂ t), h₂⟩

theorem Ledger.fresh : fresh.Ledger V ∅ (fun _ => []) fun _ => none :=
  ⟨.fresh, fun _ => .nil, fun _ _ => rfl, nofun,
    fun _ => ⟨⟨[], .nil, le_rfl, rfl, rfl⟩, nofun, nofun⟩, by simp [Cluster.fresh]⟩

end Cluster

/-- A log above its boundary. -/
def Core.tail (c : Core) : Nat × List Entry := (c.snapshotIndex, c.log)

/-- The logs of a node in its store and in memory. -/
def Replica.logs (r : Replica) : List (Nat × List Entry) :=
  (r.store.boundaryIndex, r.store.entries) :: r.core.toList.map Core.tail

def entryAt (log : Nat × List Entry) (i : Nat) : Option Entry :=
  if log.1 < i then log.2[i - log.1 - 1]? else none

theorem entryAt_of_drop {log : Nat × List Entry} (hlog : log.2 = ℓ.drop log.1) {i : Nat}
    (hi : log.1 < i) : entryAt log i = ℓ[i - 1]? := by
  rw [entryAt, if_pos hi, hlog, getElem?_drop, show log.1 + (i - log.1 - 1) = i - 1 by omega]

theorem lt_of_entryAt {log : Nat × List Entry} {i : Nat} {e : Entry} (h : entryAt log i = some e) :
    log.1 < i := by
  by_contra hlt
  rw [entryAt, if_neg hlt] at h
  cases h

theorem Replica.Kept.of_mem_logs {r : Replica} (h : r.Kept llog led n) {log : Nat × List Entry}
    (hlog : log ∈ r.logs) : ∃ ℓ, Sound llog ℓ ∧ log.2 = ℓ.drop log.1 := by
  rcases mem_cons.mp hlog with rfl | hlog
  · obtain ⟨ℓ, hsound, -, hdrop, -⟩ := h.store
    exact ⟨ℓ, hsound, hdrop⟩
  · obtain ⟨c, hc, rfl⟩ := mem_map.mp hlog
    obtain ⟨ℓ, hℓ, hsound⟩ := (h.core c (Option.mem_toList.mp hc)).whole
    exact ⟨ℓ, hsound, hℓ.log⟩

/-- Two logs, in memory or on disk, that have an entry of one term at one index have the same
entries up to there. -/
theorem log_matching {boot : NodeID → Configuration} (hboot : ∀ n, (boot n).Votes V)
    (hV : 1 < V.card) {s : Cluster} (hrun : Cluster.Run boot (KeepsVoters V) .fresh s)
    {n₁ n₂ : NodeID} {log₁ log₂ : Nat × List Entry} (hlog₁ : log₁ ∈ (s.replicas n₁).logs)
    (hlog₂ : log₂ ∈ (s.replicas n₂).logs) {i : Nat} {e₁ e₂ : Entry}
    (he₁ : entryAt log₁ i = some e₁) (he₂ : entryAt log₂ i = some e₂) (hterm : e₁.term = e₂.term)
    {j : Nat} (hj : j ≤ i) (hj₁ : log₁.1 < j) (hj₂ : log₂.1 < j) :
    entryAt log₁ j = entryAt log₂ j := by
  obtain ⟨votes, llog, led, -, h⟩ := Cluster.Run.ledger .fresh hV hboot .refl hrun
  obtain ⟨ℓ₁, hsound₁, hdrop₁⟩ := (h.replica n₁).of_mem_logs hlog₁
  obtain ⟨ℓ₂, hsound₂, hdrop₂⟩ := (h.replica n₂).of_mem_logs hlog₂
  rw [entryAt_of_drop hdrop₁ (by omega)] at he₁
  rw [entryAt_of_drop hdrop₂ (by omega)] at he₂
  rw [entryAt_of_drop hdrop₁ hj₁, entryAt_of_drop hdrop₂ hj₂]
  have htake : ℓ₁.take (i - 1 + 1) = ℓ₂.take (i - 1 + 1) := by
    refine hsound₁.take_eq hsound₂ (List.getElem?_eq_some_iff.mp he₁).1
      (List.getElem?_eq_some_iff.mp he₂).1 ?_
    rw [termAt_succ_of_getElem? he₁, termAt_succ_of_getElem? he₂]
    exact hterm
  have hj' := congrArg (·[j - 1]?) htake
  simpa [getElem?_take, show j - 1 < i - 1 + 1 by omega] using hj'

def request (prev : Nat) (data : Bytes) : Message :=
  ⟨[1], [2], 1, .appendEntriesRequest prev prev [⟨prev + 1, 1, .normal, data⟩] 0⟩

/-- Node 1 wins an election and proposes two commands, and node 2 takes over both. -/
def proposals : List Act :=
  repeatedCandidacy ++ [.propose [1] [7], .persist [1], .persist [1], .propose [1] [8],
    .deliver (request 0 [7]), .persist [2], .persist [2], .deliver (request 1 [8])]

def proposed : Nat × List Entry := (0, [⟨1, 1, .normal, [7]⟩, ⟨2, 1, .normal, [8]⟩])

theorem exists_proposed : ∃ s,
    Cluster.Run (fun _ => electorate) (KeepsVoters electorate.voterSet) .fresh s ∧
    (request 0 [7] ∈ s.net ∧ proposed ∈ (s.replicas [2]).logs) ∧
    ∃ c, (s.replicas [1]).core = some c ∧ c.role = .leader ∧ c.currentTerm = 1 ∧
      c.tail = proposed := by
  obtain ⟨s, hrun, htest⟩ := @Cluster.exists_run (fun _ => electorate)
    (KeepsVoters electorate.voterSet) .fresh proposals
    (by simp [proposals, repeatedCandidacy, KeepsVoters])
    (fun s => decide (request 0 [7] ∈ s.net ∧ proposed ∈ (s.replicas [2]).logs) &&
      (s.replicas [1]).core.any fun c : Core =>
        c.role = .leader ∧ c.currentTerm = 1 ∧ c.tail = proposed) (by decide +kernel)
  obtain ⟨htest, hcore⟩ := Bool.and_eq_true_iff.mp htest
  obtain ⟨c, hc, hcore⟩ := (Option.any_eq_true _ _).mp hcore
  exact ⟨s, hrun, of_decide_eq_true htest, c, hc, of_decide_eq_true hcore⟩

theorem log_matching_proposed : ∃ s,
    Cluster.Run (fun _ => electorate) (KeepsVoters electorate.voterSet) .fresh s ∧
    ∃ log₁ ∈ (s.replicas [1]).logs, ∃ log₂ ∈ (s.replicas [2]).logs,
      entryAt log₁ 1 = entryAt log₂ 1 := by
  obtain ⟨s, hrun, ⟨-, hlog₂⟩, c, hc, -, -, htail⟩ := exists_proposed
  have hlog₁ : proposed ∈ (s.replicas [1]).logs := by simp [Replica.logs, hc, htail]
  exact ⟨s, hrun, _, hlog₁, _, hlog₂, log_matching (fun _ => ⟨by decide, rfl⟩) (by decide) hrun
    hlog₁ hlog₂ (i := 2) rfl rfl rfl (by decide) (by decide) (by decide)⟩

/-- A leader takes back nothing that was in its log or in a request, at whatever point of its
term. -/
theorem leader_append_only {boot : NodeID → Configuration} (hboot : ∀ n, (boot n).Votes V)
    (hV : 1 < V.card) {s₁ s₂ : Cluster} (hrun₁ : Cluster.Run boot (KeepsVoters V) .fresh s₁)
    (hrun₂ : Cluster.Run boot (KeepsVoters V) s₁ s₂) {n : NodeID} {c : Core}
    (hc : (s₂.replicas n).core = some c) (hlead : c.role = .leader) {log : Nat × List Entry}
    (hlog : (∃ m c₁, (s₁.replicas m).core = some c₁ ∧ c₁.role = .leader ∧
        c₁.currentTerm = c.currentTerm ∧ log = c₁.tail) ∨
      ∃ m ∈ s₁.net, m.term = c.currentTerm ∧
        ∃ prevTerm commit, m.body = .appendEntriesRequest log.1 prevTerm log.2 commit)
    {i : Nat} {e : Entry} (he : entryAt log i = some e) (hi : c.snapshotIndex < i) :
    entryAt c.tail i = some e := by
  obtain ⟨_, llog₁, _, -, h₁⟩ := Cluster.Run.ledger .fresh hV hboot .refl hrun₁
  obtain ⟨_, llog₂, _, hgrows, h₂⟩ := Cluster.Run.ledger h₁ hV hboot hrun₁ hrun₂
  have hlt := lt_of_entryAt he
  have hshows := (((h₂.replica n).core c hc).leader hlead).2
  rw [@entryAt_of_drop _ c.tail hshows.log i hi]
  refine getElem?_of_initial (hgrows _) ?_
  rcases hlog with ⟨m, c₁, hc₁, hlead₁, hterm, rfl⟩ | ⟨m, hm, hterm, _, _, hbody⟩
  · have hshows₁ := (((h₁.replica m).core c₁ hc₁).leader hlead₁).2
    rwa [entryAt_of_drop hshows₁.log hlt, hterm] at he
  · have hsound := h₁.net m hm
    rw [Message.Sound, hbody, hterm] at hsound
    rw [entryAt, if_pos hlt] at he
    have hentry := getElem?_of_initial (hsound (by rintro hnil; simp [hnil] at he)).entries he
    rwa [getElem?_drop, show log.1 + (i - log.1 - 1) = i - 1 by omega] at hentry

theorem leader_append_only_proposed : ∃ s,
    Cluster.Run (fun _ => electorate) (KeepsVoters electorate.voterSet) .fresh s ∧
    request 0 [7] ∈ s.net ∧ ∃ c, (s.replicas [1]).core = some c ∧
      entryAt c.tail 1 = some ⟨1, 1, .normal, [7]⟩ := by
  obtain ⟨s, hrun, ⟨hnet, -⟩, c, hc, hlead, hterm, htail⟩ := exists_proposed
  have he : entryAt (0, [⟨1, 1, .normal, [7]⟩]) 1 = some ⟨1, 1, .normal, [7]⟩ := rfl
  have hi : c.snapshotIndex < 1 := by simp [(Prod.mk.inj htail).1]
  exact ⟨s, hrun, hnet, c, hc, leader_append_only (fun _ => ⟨by decide, rfl⟩) (by decide) hrun .refl
    hc hlead (.inr ⟨_, hnet, hterm.symm, _, _, rfl⟩) he hi⟩

end ChronicleDB.Raft
