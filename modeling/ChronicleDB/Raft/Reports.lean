import ChronicleDB.Raft.Logs
import ChronicleDB.Raft.Replicas

/-!
# Reported entries

Every node has the entries that it takes for committed from its own log, from a
leader that says so, or from a snapshot.  In every run, whatever fails, what a core
holds up to its commit index and what a store holds below its boundary has been
reported as committed by some node.
-/

namespace ChronicleDB.Raft

open Foundation Consensus List

def Indexed (ℓ : List Entry) : Prop := ∀ i e, ℓ[i]? = some e → e.index = i + 1

namespace Indexed

variable {ℓ ℓ' : List Entry}

theorem nil : Indexed [] := by simp [Indexed]

theorem of_initial (h : Indexed ℓ) (hp : ℓ' <+: ℓ) : Indexed ℓ' := by
  intro i e he
  obtain ⟨rest, rfl⟩ := hp
  exact h i e (List.getElem?_append_left (List.getElem?_eq_some_iff.mp he).1 ▸ he)

theorem append (h : Indexed ℓ)
    (h' : ∀ k e, ℓ'[k]? = some e → e.index = ℓ.length + k + 1) : Indexed (ℓ ++ ℓ') := by
  intro i e he
  by_cases hi : i < ℓ.length
  · exact h i e (getElem?_append_left hi ▸ he)
  · rw [getElem?_append_right (by omega)] at he
    have := h' _ e he
    omega

theorem snoc (h : Indexed ℓ) {e : Entry} (he : e.index = ℓ.length + 1) : Indexed (ℓ ++ [e]) := by
  refine h.append fun k e' hk => ?_
  rw [getElem?_singleton] at hk
  split at hk
  · cases hk
    omega
  · cases hk

end Indexed

/-! ## Cores, stores and messages backed by known entries -/

section Backed

variable (K : Entry → Prop)

/-- `ℓ` is the whole log of `c`, and `K` holds of it up to the commit index. -/
structure Core.Backed (c : Core) (ℓ : List Entry) : Prop where
  shows : c.Shows ℓ
  indexed : Indexed ℓ
  boundary : c.snapshotIndex ≤ c.commitIndex
  within : c.commitIndex ≤ ℓ.length
  applied : c.appliedIndex ≤ c.commitIndex
  known : ∀ e ∈ ℓ.take c.commitIndex, K e

structure Store.Backed (store : Store) (ℓ : List Entry) : Prop where
  le : store.boundaryIndex ≤ ℓ.length
  entries : store.entries = ℓ.drop store.boundaryIndex
  boundaryTerm : store.boundaryTerm = termAt ℓ store.boundaryIndex
  indexed : Indexed ℓ
  known : ∀ e ∈ ℓ.take store.boundaryIndex, K e

/-- The boundary at `index` stands for known entries. -/
def Covers (index term : Nat) : Prop :=
  ∃ ℓ : List Entry, ℓ.length = index ∧ termAt ℓ index = term ∧ Indexed ℓ ∧ ∀ e ∈ ℓ, K e

def Message.Backed (m : Message) : Prop :=
  match m.body with
  | .appendEntriesRequest prev _ entries _ =>
    ∀ k e, entries[k]? = some e → e.index = prev + k + 1
  | .installSnapshotRequest index term _ _ => Covers K index term
  | _ => True

end Backed

section Mono

variable {K K' : Entry → Prop} (hK : ∀ e, K e → K' e)

include hK

theorem Core.Backed.mono {c : Core} {ℓ : List Entry} (h : c.Backed K ℓ) : c.Backed K' ℓ :=
  { h with known := fun e he => hK e (h.known e he) }

theorem Store.Backed.mono {store : Store} {ℓ : List Entry} (h : store.Backed K ℓ) :
    store.Backed K' ℓ :=
  { h with known := fun e he => hK e (h.known e he) }

theorem Message.Backed.mono {m : Message} (h : m.Backed K) : m.Backed K' := by
  unfold Message.Backed at h ⊢
  split
  case h_1 hbody => simpa [hbody] using h
  case h_2 hbody =>
    simp only [hbody] at h
    obtain ⟨ℓ, hlen, hterm, hindexed, hknown⟩ := h
    exact ⟨ℓ, hlen, hterm, hindexed, fun e he => hK e (hknown e he)⟩
  case h_3 => trivial

end Mono

variable {K : Entry → Prop}

namespace Core.Backed

variable {c c' : Core} {ℓ : List Entry} {input : Input} {out : Output}

theorem known_of_between (h : c.Backed K ℓ) {n : Nat} (hK : ∀ e, c.Between n e → K e) :
    ∀ e ∈ ℓ.take n, K e := by
  intro e he
  obtain ⟨i, hi⟩ := mem_iff_getElem?.mp he
  rw [getElem?_take] at hi
  split at hi
  case isFalse => cases hi
  case isTrue hlt =>
    by_cases hcommit : i < c.commitIndex
    · exact h.known e (mem_iff_getElem?.mpr ⟨i, by rw [getElem?_take, if_pos hcommit, hi]⟩)
    · have hb := h.boundary
      refine hK e ⟨i + 1, by omega, by omega, by omega, ?_⟩
      rw [h.shows.log, getElem?_drop, ← hi]
      congr 1
      omega

theorem step_log (h : c.Backed K ℓ) (hmove : c.LogMove input c' out)
    (hmsg : ∀ msg, input = .message msg → msg.Backed K) (hsame : c'.snapshotIndex = c.snapshotIndex) :
    ∃ ℓ', c'.Shows ℓ' ∧ Indexed ℓ' ∧ c.commitIndex ≤ ℓ'.length ∧
      ℓ'.take c.commitIndex = ℓ.take c.commitIndex ∧ (c'.log = c.log → ℓ' = ℓ) := by
  have hwithin := h.within
  cases hmove with
  | keep log boundary =>
    exact ⟨ℓ, h.shows.congr log boundary, h.indexed, hwithin, rfl, fun _ => rfl⟩
  | @append _ _ _ e leader index _ _ _ log boundary =>
    refine ⟨ℓ ++ [e], h.shows.append log boundary, h.indexed.snoc ?_, ?_, ?_, fun hlog => ?_⟩
    · rw [index, h.shows.lastIndex_eq]
    · rw [length_append]
      omega
    · exact take_append_of_le_length hwithin
    · rw [log] at hlog
      simp at hlog
  | @accept msg _ _ prev entries commit truncateFrom new accepts log boundary =>
    obtain ⟨ℓ', kept, hshows, hsplice⟩ := accepts.spliced h.shows log boundary
    have hindexed : ∀ k e, entries[k]? = some e → e.index = prev + k + 1 := by
      have := hmsg msg rfl
      rwa [Message.Backed, accepts.body] at this
    refine ⟨ℓ', hshows, ?_, ?_, hsplice.committed_eq hwithin, fun hlog => ?_⟩
    · by_cases hnew : new = []
      · rw [hsplice.same hnew]
        exact h.indexed
      · rw [hsplice.changed hnew]
        refine (h.indexed.of_initial ( take_prefix _ _)).append fun k e he => ?_
        rw [length_take, Nat.min_eq_left hsplice.within]
        have := hindexed (kept.length + k) e (by
          rw [hsplice.parts, getElem?_append_right (by omega)]
          simpa using he)
        omega
    · have := congrArg length (hsplice.committed_eq hwithin)
      simp only [length_take] at this
      omega
    · -- the same log above the same boundary, and the committed part is the same too
      have hle : c.snapshotIndex ≤ c.commitIndex := h.boundary
      have htake : ℓ'.take c.snapshotIndex = ℓ.take c.snapshotIndex := by
        have := congrArg (take c.snapshotIndex) (hsplice.committed_eq hwithin)
        simpa only [take_take, Nat.min_eq_left hle] using this
      rw [← take_append_drop c.snapshotIndex ℓ', htake, ← hsame, ← hshows.log, hlog,
        h.shows.log, hsame, take_append_drop]
  | install _ _ above _ _ index => omega

theorem of_install {index term : Nat} (hcovers : Covers K index term) (hlog : c'.log = [])
    (hindex : c'.snapshotIndex = index) (hterm : c'.snapshotTerm = term)
    (hcommit : c'.commitIndex = index) (happlied : c'.appliedIndex ≤ index) :
    ∃ ℓ', c'.Backed K ℓ' := by
  obtain ⟨M, hlen, hMterm, hindexed, hknown⟩ := hcovers
  have hshows : c'.Shows (M.take index) :=
    .install (by omega) hlog hindex (hterm.trans hMterm.symm)
  rw [take_of_length_le (by omega)] at hshows
  exact ⟨M, hshows, hindexed, by omega, by omega, by omega,
    fun e he => hknown e (mem_of_mem_take he)⟩

theorem advance (h : c.Backed K ℓ) (hshows : c'.Shows ℓ) (hb : c'.snapshotIndex = c.snapshotIndex)
    (happlied : c'.appliedIndex = c.appliedIndex) (hlt : c.commitIndex ≤ c'.commitIndex)
    (hle : c'.commitIndex ≤ c.lastIndex) (hK : ∀ e, c.Between c'.commitIndex e → K e) :
    c'.Backed K ℓ := by
  have hlast := h.shows.lastIndex_eq
  have hboundary := h.boundary
  have happ := h.applied
  exact ⟨hshows, h.indexed, by omega, by omega, by omega, h.known_of_between hK⟩

theorem step (h : c.Backed K ℓ) (he : c.Effect input c' out)
    (hmsg : ∀ msg, input = .message msg → msg.Backed K)
    (hreports : ∀ e ∈ out.committedEntries, K e) : ∃ ℓ', c'.Backed K ℓ' := by
  have hb := h.boundary
  have happ := h.applied
  cases he.commit with
  | keep commit applied boundary reports =>
    obtain ⟨ℓ', hshows, hindexed, hle, htake, -⟩ := h.step_log he.log hmsg boundary
    refine ⟨ℓ', hshows, hindexed, by omega, by omega, by omega, ?_⟩
    rw [commit, htake]
    exact h.known
  | leader _ _ body rule applied reports =>
    cases he.log with
    | keep log boundary =>
      refine ⟨ℓ, h.advance (h.shows.congr log boundary) boundary.1 applied rule.above.le
        rule.within fun e hbetween => hreports e ?_⟩
      rw [reports]
      exact mem_newlyCommitted.mpr hbetween
    | accept accepts =>
      rcases body with ⟨a, b, hbody⟩ | hbody <;> simp [accepts.body] at hbody
    | install hbody =>
      rcases body with ⟨a, b, h'⟩ | h' <;> simp [hbody] at h'
  | follower accepts log above commit applied reports =>
    have hsame : c'.snapshotIndex = c.snapshotIndex := by
      cases he.log with
      | keep _ boundary => exact boundary.1
      | accept _ _ boundary => exact boundary.1
      | install hbody => simp [accepts.body] at hbody
    obtain ⟨ℓ', hshows, -, -, -, hkeep⟩ := h.step_log he.log hmsg hsame
    rw [hkeep log] at hshows
    refine ⟨ℓ, h.advance hshows hsame applied above.le (by omega) fun e hbetween => hreports e ?_⟩
    rw [reports]
    exact mem_newlyCommitted.mpr hbetween
  | @install msg _ _ index term cfg hasCfg body msgTerm new snapshot log commit applied reports =>
    have hterm : c'.snapshotTerm = term := by
      cases he.log with
      | keep _ boundary =>
        have := boundary.1
        omega
      | accept accepts => simp [accepts.body] at body
      | install hbody _ _ _ _ _ hterm =>
        rw [body] at hbody
        cases hbody
        exact hterm
    have hcovers : Covers K index term := by
      have := hmsg msg rfl
      rwa [Message.Backed, body] at this
    exact of_install hcovers log snapshot hterm commit (by omega)

theorem complete (h : c.Backed K ℓ) (seq : Nat)
    (hreports : ∀ e ∈ (c.handlePersistenceComplete seq).2.committedEntries, K e) :
    (c.handlePersistenceComplete seq).1.Backed K ℓ := by
  obtain ⟨hframe, -, -, hadv, -⟩ := c.handlePersistenceComplete_spec seq
  have hboundary : SameBoundary c (c.handlePersistenceComplete seq).1 :=
    ⟨hframe.boundary.1, hframe.boundary.2, hframe.boundary.3, hframe.boundary.4⟩
  refine h.advance (h.shows.congr hframe.log hboundary) hboundary.1
    hframe.appliedIndex ?_ ?_ fun e he => hreports e ((hadv.reports e).mpr (.inr he))
  all_goals
    have := h.within
    have := h.shows.lastIndex_eq
    rcases hadv.within with hc | hc <;> omega

theorem setApplied (h : c.Backed K ℓ) {index : Nat} (hle : index ≤ c.commitIndex) :
    (c.setApplied index).Backed K ℓ := by
  unfold Core.setApplied
  split
  · exact ⟨⟨h.shows.le, h.shows.log, h.shows.boundary⟩, h.indexed, h.boundary, h.within, hle, h.known⟩
  · exact h

theorem compact (h : c.Backed K ℓ) {index : Nat} (hc : c.compact index = some c') :
    c'.Backed K ℓ := by
  have happ := h.applied
  have hwithin := h.within
  unfold Core.compact at hc
  split at hc
  case isTrue => cases hc
  case isFalse hindex =>
    cases hc
    refine ⟨⟨by dsimp only; omega, ?_, h.shows.termAt_eq (by omega)⟩, h.indexed,
      by dsimp only; omega, h.within, h.applied, h.known⟩
    dsimp only
    rw [h.shows.log, drop_drop]
    congr 1
    omega

theorem stored (h : c.Backed K ℓ) {store : Store} (hentries : store.entries = c.log)
    (hindex : store.boundaryIndex = c.snapshotIndex)
    (hterm : store.boundaryTerm = c.snapshotTerm) : store.Backed K ℓ := by
  refine ⟨hindex ▸ h.shows.le, by rw [hentries, hindex, h.shows.log],
    by rw [hterm, hindex, h.shows.boundary], h.indexed, fun e he => h.known e ?_⟩
  rw [hindex, ← Nat.min_eq_left h.boundary, ← take_take] at he
  exact mem_of_mem_take he

theorem replicates (h : c.Backed K ℓ) {m : Message} (hm : c.Replicates m) : m.Backed K := by
  unfold Message.Backed
  rcases hm.body with ⟨next, hnext, hbody⟩ | ⟨hbody, -⟩
  · rw [hbody]
    dsimp only
    intro k e he
    split at he
    · rw [slice, h.shows.log, getElem?_drop, getElem?_take] at he
      split at he
      · rw [getElem?_drop] at he
        have := h.indexed _ e he
        omega
      · cases he
    · cases he
  · rw [hbody]
    have := h.shows.le
    have hb := h.boundary
    refine ⟨ℓ.take c.snapshotIndex, ?_, ?_, h.indexed.of_initial ( take_prefix _ _), ?_⟩
    · rw [length_take]
      omega
    · rw [termAt_take (le_refl _), h.shows.boundary]
    · intro e he
      rw [← Nat.min_eq_left hb, ← take_take] at he
      exact h.known e (mem_of_mem_take he)

theorem sent (h : c'.Backed K ℓ) {m : Message} (hm : c.Sent input c' m) : m.Backed K := by
  obtain ⟨-, -, hbody⟩ := hm
  generalize hb : m.body = body at hbody
  cases hbody with
  | @replicate _ m' leads hrep =>
    have := h.replicates hrep
    rwa [Message.Backed, ← hb] at this
  | _ => simp only [Message.Backed, hb]

end Core.Backed

theorem Core.Emits.backed {c : Core} {p : PendingItem} {m : Message} (h : c.Emits p m) :
    m.Backed K := by
  cases h with
  | _ => trivial

/-! ## Stores -/

namespace Store.Backed

variable {store : Store} {ℓ : List Entry}

theorem fresh : Store.fresh.Backed K [] := ⟨by simp [Store.fresh], rfl, rfl, .nil, by simp⟩

theorem truncate (h : store.Backed K ℓ) (index : Nat) :
    ∃ ℓ', ((StoreOp.truncate index).apply store).Backed K ℓ' := by
  have hle := h.le
  refine ⟨ℓ.take (store.boundaryIndex + (index - store.boundaryIndex - 1)), ?_, ?_, ?_,
    h.indexed.of_initial ( take_prefix _ _), ?_⟩
  · simp only [StoreOp.apply, length_take]
    omega
  · simp only [StoreOp.apply]
    rw [h.entries, drop_take]
    congr 1
    omega
  · simp only [StoreOp.apply]
    rw [h.boundaryTerm, termAt_take (by omega)]
  · simp only [StoreOp.apply, take_take]
    rw [Nat.min_eq_left (by omega)]
    exact h.known

theorem congr (h : store.Backed K ℓ) {store' : Store} (hentries : store'.entries = store.entries)
    (hindex : store'.boundaryIndex = store.boundaryIndex)
    (hterm : store'.boundaryTerm = store.boundaryTerm) : store'.Backed K ℓ :=
  ⟨hindex ▸ h.le, by rw [hentries, hindex, h.entries], by rw [hterm, hindex, h.boundaryTerm],
    h.indexed, hindex ▸ h.known⟩

theorem opened (h : store.Backed K ℓ) {cfg : Config} {c : Core} (hc : store.open cfg = some c) :
    c.Backed K ℓ := by
  rw [Store.open, Core.newCoreFromSnapshot] at hc
  split at hc
  · cases hc
  · cases hc
    exact ⟨⟨h.le, h.entries, h.boundaryTerm⟩, h.indexed, le_refl _, h.le, le_refl _, h.known⟩

theorem storeOn (h : store.Backed K ℓ) (c : Core) (input : Input)
    (hmsg : ∀ msg, input = .message msg → msg.Backed K) :
    ∃ ℓ', (Cluster.storeOn store c input).Backed K ℓ' := by
  cases input with
  | message msg =>
    rw [Cluster.storeOn, Cluster.storeFor]
    split
    case h_2 => exact ⟨ℓ, h⟩
    case h_1 index term cfg hasCfg hbody =>
      split
      · have hcovers := hmsg msg rfl
        rw [Message.Backed, hbody] at hcovers
        obtain ⟨M, hlen, hterm, hindexed, hknown⟩ := hcovers
        exact ⟨M, by simp [Store.install, hlen],
          (drop_eq_nil_of_le hlen.le).symm, hterm.symm, hindexed,
          fun e he => hknown e (mem_of_mem_take he)⟩
      · exact ⟨ℓ, h⟩
  | _ => exact ⟨ℓ, h⟩

end Store.Backed

/-! ## Runs -/

namespace Cluster

def Reported (s : Cluster) (e : Entry) : Prop := ∃ r ∈ s.reports, r.entry = e

def Agree (s : Cluster) : Prop :=
  ∀ e e', s.Reported e → s.Reported e' → e.index = e'.index → e = e'

theorem Reported.moved {s : Cluster} {e : Entry} (h : s.Reported e) (n : NodeID) (r' : Replica)
    (ms : List Message) (reps : List Report) (ps : List (NodeID × Panic)) :
    (s.moved n r' ms reps ps).Reported e := by
  obtain ⟨r, hr, he⟩ := h
  exact ⟨r, mem_append_left _ hr, he⟩

theorem Run.reported {boot : NodeID → Configuration} {allowed : Cluster → Act → Prop}
    {s s' : Cluster} (h : Run boot allowed s s') {e : Entry} (he : s.Reported e) :
    s'.Reported e := by
  induction h with
  | refl => exact he
  | tail _ hstep ih =>
    obtain ⟨a, -, hstep⟩ := hstep
    obtain ⟨n, r', ms, reps, ps, -, rfl⟩ := step_moves hstep
    exact ih.moved n r' ms reps ps

end Cluster

structure Replica.Backed (K : Entry → Prop) (r : Replica) : Prop where
  store : ∃ ℓ, r.store.Backed K ℓ
  core : ∀ c, r.core = some c → ∃ ℓ, c.Backed K ℓ

theorem Replica.Backed.of_down {store : Store} (h : ∃ ℓ, store.Backed K ℓ) :
    Replica.Backed K ⟨none, store, none⟩ := ⟨h, by simp⟩

theorem Replica.Backed.of_up {c : Core} {store : Store} {writing : Option (Nat × List StoreOp)}
    (hstore : ∃ ℓ, store.Backed K ℓ) (hcore : ∃ ℓ, c.Backed K ℓ) :
    Replica.Backed K ⟨some c, store, writing⟩ := by
  refine ⟨hstore, fun _ h => ?_⟩
  cases h
  exact hcore

section Moves

variable {boot : NodeID → Configuration} {net : List Message} {n : NodeID} {r r' : Replica}
  {a : Act} {ms : List Message} {reps : List Report} {ps : List (NodeID × Panic)}

/-- Only the last write before the hard state can add entries, and then the store has
the log of the core. -/
theorem Replica.Backed.write {c : Core} {seq : Nat} {op : StoreOp} {ops : List StoreOp}
    (h : r.Backed K) (hsync : r.Synced ⟨n, boot n⟩) (up : r.core = some c)
    (busy : r.writing = some (seq, op :: ops)) : ∃ ℓ, (op.apply r.store).Backed K ℓ := by
  obtain ⟨ℓ, hstore⟩ := h.store
  cases op with
  | truncate index => exact hstore.truncate index
  | setHardState hs => exact ⟨ℓ, hstore.congr rfl rfl rfl⟩
  | append entries =>
    obtain ⟨pr, hops, hstored, -⟩ := hsync.busy _ _ _ up busy
    obtain ⟨pr', hops', happly⟩ := PersistRequest.ops_tail hops.symm r.store
    obtain ⟨ℓ', hcore⟩ := h.core c up
    have hidle := PersistRequest.idle_of_append hops.symm hops'
    rw [← happly] at hstored
    refine ⟨ℓ', hcore.stored ?_ ?_ ?_⟩
    · rw [← hstored.entries, hidle.apply_entries]
    · rw [← hstored.index, PersistRequest.apply_boundaryIndex]
    · rw [← hstored.boundaryTerm, (pr'.apply_boundary _).1]

theorem Replica.Backed.moves (h : r.Backed K) (hsync : r.Synced ⟨n, boot n⟩)
    (hnet : ∀ m ∈ net, m.Backed K) (hm : Moves boot net n r a r' ms reps ps)
    (hreps : ∀ rep ∈ reps, K rep.entry) : r'.Backed K ∧ ∀ m ∈ ms, m.Backed K := by
  obtain ⟨ℓ, hstore⟩ := h.store
  cases hm with
  | start down opened => exact ⟨.of_up ⟨ℓ, hstore⟩ ⟨ℓ, hstore.opened opened⟩, by simp⟩
  | crash => exact ⟨.of_down ⟨ℓ, hstore⟩, by simp⟩
  | panic up idle hands known =>
    refine ⟨.of_down (hstore.storeOn _ _ fun msg hmsg => hnet msg ?_), by simp⟩
    subst hmsg
    cases hands
    exact known _ rfl
  | @input _ c input c' out up idle hands known effect =>
    have hmsg : ∀ msg, input = .message msg → msg.Backed K := by
      rintro msg rfl
      cases hands
      exact hnet msg (known _ rfl)
    obtain ⟨ℓ₀, hcore⟩ := h.core c up
    obtain ⟨ℓ', hcore'⟩ := hcore.step effect hmsg fun e he => hreps _ (mem_map_of_mem he)
    exact ⟨.of_up (hstore.storeOn c input hmsg) ⟨ℓ', hcore'⟩,
      fun m hm => hcore'.sent (effect.sent m hm)⟩
  | write up busy => exact ⟨.of_up (h.write hsync up busy) (h.core _ up), by simp⟩
  | @complete c seq up done =>
    obtain ⟨ℓ₀, hcore⟩ := h.core c up
    obtain ⟨-, hms, -⟩ := c.handlePersistenceComplete_spec seq
    refine ⟨.of_up ⟨ℓ, hstore⟩
      ⟨ℓ₀, hcore.complete seq fun e he => hreps _ (mem_map_of_mem he)⟩, fun m hm => ?_⟩
    obtain ⟨p, -, hemits⟩ := hms m hm
    exact hemits.backed
  | apply up idle le =>
    obtain ⟨ℓ₀, hcore⟩ := h.core _ up
    exact ⟨.of_up ⟨ℓ, hstore⟩ ⟨ℓ₀, hcore.setApplied le⟩, by simp⟩
  | compact up idle compacted =>
    obtain ⟨ℓ₀, hcore⟩ := h.core _ up
    obtain ⟨hstored, -⟩ := hsync.idle _ up idle
    have hcore' := hcore.compact compacted
    have hstored' := hstored.compact compacted
    exact ⟨.of_up ⟨ℓ₀, hcore'.stored hstored'.entries hstored'.index hstored'.boundaryTerm⟩
      ⟨ℓ₀, hcore'⟩, by simp⟩

end Moves

theorem Replica.Backed.mono {K K' : Entry → Prop} (hK : ∀ e, K e → K' e) {r : Replica}
    (h : r.Backed K) : r.Backed K' := by
  obtain ⟨ℓ, hstore⟩ := h.store
  refine ⟨⟨ℓ, hstore.mono hK⟩, fun c hc => ?_⟩
  obtain ⟨ℓ', hcore⟩ := h.core c hc
  exact ⟨ℓ', hcore.mono hK⟩

namespace Cluster

/-- What the nodes of a cluster take for committed has been reported. -/
structure Backed (s : Cluster) : Prop where
  replica : ∀ n, (s.replicas n).Backed s.Reported
  net : ∀ m ∈ s.net, m.Backed s.Reported

theorem Run.backed {boot : NodeID → Configuration} {allowed : Cluster → Act → Prop} {s : Cluster}
    (hrun : Run boot allowed fresh s) : s.Backed := by
  refine (Run.invariant (P := fun s => (∀ n, (s.replicas n).Synced ⟨n, boot n⟩) ∧ s.Backed)
    ⟨fun n => .of_down _, fun n => .of_down ⟨[], .fresh⟩, by simp [fresh]⟩ ?_ hrun).2
  rintro s n a r' ms reps ps ⟨hsync, hs⟩ - hmoves
  have hK : ∀ e, s.Reported e → (s.moved n r' ms reps ps).Reported e :=
    fun e he => he.moved n r' ms reps ps
  obtain ⟨hr', hms⟩ := ((hs.replica n).mono hK).moves (hsync n)
    (fun m hm => (hs.net m hm).mono hK) hmoves
    fun rep hrep => ⟨rep, mem_append_right _ hrep, rfl⟩
  refine ⟨fun m => ?_, fun m => ?_, fun m hm => ?_⟩
  · by_cases hm : m = n
    · subst hm
      simpa [moved] using (hsync m).moves hmoves
    · simpa [moved, Function.update_of_ne hm] using hsync m
  · by_cases hm : m = n
    · subst hm
      simpa [moved] using hr'
    · simpa [moved, Function.update_of_ne hm] using (hs.replica m).mono hK
  · rcases mem_append.mp hm with hm | hm
    · exact (hs.net m hm).mono hK
    · exact hms m hm

end Cluster

end ChronicleDB.Raft
