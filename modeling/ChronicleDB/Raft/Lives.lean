import ChronicleDB.Raft.Reports

/-!
# The life of a core

What holds of a core from its construction on, in every run of the cluster it is
part of.
-/

namespace ChronicleDB.Raft

open Foundation

theorem Message.Backed.indexed {K : Entry → Prop} {m : Message} (h : m.Backed K) : m.Indexed := by
  unfold Message.Backed at h
  unfold Message.Indexed
  split
  case h_1 hbody => simpa [hbody] using h
  case h_2 => trivial

/-! ## The active configuration -/

section Tracking

variable {boot : NodeID → Configuration} {net : List Message} {n : NodeID} {r r' : Replica}
  {a : Act} {ms : List Message} {reps : List Report} {ps : List (NodeID × Panic)}

theorem Moves.tracks {K : Entry → Prop} (hm : Moves boot net n r a r' ms reps ps)
    (hbacked : r.Backed K) (hnet : ∀ m ∈ net, m.Backed K)
    (h : ∀ c, r.core = some c → c.Tracks) : ∀ c, r'.core = some c → c.Tracks := by
  cases hm with
  | start down opened =>
    rintro c ⟨⟩
    exact Core.newCoreFromSnapshot_tracks opened
  | crash | panic =>
    rintro c ⟨⟩
  | @input _ c input c' out up idle hands known effect =>
    rintro c'' ⟨⟩
    refine effect.tracks (fun msg hmsg => ?_) (h c up)
    subst hmsg
    cases hands
    exact (hnet msg (known _ rfl)).indexed
  | write up =>
    rintro c ⟨⟩
    exact h _ up
  | @complete c seq up =>
    rintro c' ⟨⟩
    obtain ⟨hframe, -⟩ := c.handlePersistenceComplete_spec seq
    refine Core.Tracks.frame ?_ hframe
    exact (h c up).congr rfl ⟨rfl, rfl, rfl, rfl⟩ rfl rfl rfl
  | @apply c index up =>
    rintro c' ⟨⟩
    rw [Core.setApplied_eq]
    exact (h c up).congr rfl ⟨rfl, rfl, rfl, rfl⟩ rfl rfl rfl
  | @compact c c' index up idle compacted =>
    rintro c'' ⟨⟩
    obtain ⟨ℓ, hcore⟩ := hbacked.core c up
    have happlied := hcore.applied
    have hwithin := hcore.within
    have hlast := hcore.shows.lastIndex_eq
    have hu : index ≤ c.appliedIndex := by
      unfold Core.compact at compacted
      split at compacted
      · cases compacted
      · omega
    exact (h c up).compact compacted (by omega)

end Tracking

theorem Cluster.Run.tracks {boot : NodeID → Configuration} {allowed : Cluster → Act → Prop}
    {s : Cluster} (hrun : Run boot allowed fresh s) {n : NodeID} {c : Core}
    (hc : (s.replicas n).core = some c) : c.Tracks := by
  induction hrun generalizing n c with
  | refl => cases hc
  | @tail s s' hrun hstep ih =>
    obtain ⟨a, -, hstep⟩ := hstep
    obtain ⟨m, r', ms, reps, ps, hmoves, rfl⟩ := step_moves hstep
    have hbacked := Run.backed hrun
    by_cases hn : n = m
    · subst hn
      exact hmoves.tracks (hbacked.replica n) hbacked.net (fun c hc => ih hc) c
        (by simpa [moved] using hc)
    · exact ih (by simpa [moved, Function.update_of_ne hn] using hc)

theorem Core.loggedConfig_eq_none (c : Core) (k : Nat) :
    c.loggedConfig (c.snapshotIndex + k) = none ↔
      ∀ e ∈ c.log.take k, e.configuration? = none := by
  induction k with
  | zero => cases h : c.snapshotIndex <;> simp [loggedConfig, h]
  | succ k ih =>
    rw [← Nat.add_assoc, loggedConfig, if_neg (by omega), Nat.add_sub_cancel_left,
      List.take_add_one]
    cases hget : c.log[k]? with
    | none => simpa using ih
    | some e =>
      cases hconfig : e.configuration? with
      | none => simpa [hconfig, or_imp, forall_and] using ih
      | some cfg => simp [hconfig]

/-- A voter alone is elected, commits an entry and then the addition of a learner, and has
applied both. -/
def learnerAdded : List Act :=
  [.start [1], .electionTimeout [1], .persist [1], .persist [1],
    .propose [1] [7], .persist [1], .persist [1], .apply [1] 1,
    .proposeConfig [1] .addLearner [9] [2] [], .persist [1], .persist [1], .apply [1] 2]

def oneVoter : Configuration := ⟨[⟨[1], []⟩], []⟩

theorem learnerAdded_run :
    ∃ s, Cluster.Run (fun _ => oneVoter) (fun _ _ => True) .fresh s ∧
      ∃ c, (s.replicas [1]).core = some c ∧ c.activeConfigIndex = 2 ∧ c.lastIndex = 2 ∧
        (c.compact 2).isSome := by
  obtain ⟨s, hrun, htest⟩ := @Cluster.exists_run (fun _ => oneVoter) (fun _ _ => True) .fresh
    learnerAdded (fun _ _ _ => trivial)
    (fun s => (s.replicas [1]).core.any fun c : Core =>
      decide (c.activeConfigIndex = 2) && decide (c.lastIndex = 2) && (c.compact 2).isSome)
    (by decide +kernel)
  obtain ⟨c, hc, htest⟩ := (Option.any_eq_true _ _).mp htest
  simp only [Bool.and_eq_true, decide_eq_true_eq] at htest
  exact ⟨s, hrun, c, hc, htest.1.1, htest.1.2, htest.2⟩

/-- The entries that a node takes for committed stand in its log, in order, and were reported
by some node. -/
theorem committed_reported {boot : NodeID → Configuration} {allowed : Cluster → Act → Prop}
    {s : Cluster} (hrun : Cluster.Run boot allowed .fresh s) {n : NodeID} {c : Core}
    (hc : (s.replicas n).core = some c) :
    c.appliedIndex ≤ c.commitIndex ∧ c.commitIndex ≤ c.lastIndex ∧
      ∀ i, c.snapshotIndex + i < c.commitIndex →
        ∃ e, c.log[i]? = some e ∧ e.index = c.snapshotIndex + i + 1 ∧ s.Reported e := by
  obtain ⟨ℓ, h⟩ := ((Cluster.Run.backed hrun).replica n).core c hc
  refine ⟨h.applied, h.shows.lastIndex_eq ▸ h.within, fun i hi => ?_⟩
  have hlt : c.snapshotIndex + i < ℓ.length := hi.trans_le h.within
  have he := List.getElem?_eq_getElem hlt
  refine ⟨_, by rw [h.shows.log, List.getElem?_drop, he], h.indexed _ _ he, h.known _ ?_⟩
  exact List.mem_of_getElem? ((List.getElem?_take_of_lt hi).trans he)

theorem committed_reported_learnerAdded :
    ∃ s, Cluster.Run (fun _ => oneVoter) (fun _ _ => True) .fresh s ∧
      ∃ c, (s.replicas [1]).core = some c ∧ c.commitIndex ≤ 2 := by
  obtain ⟨s, hrun, c, hc, -, hlast, -⟩ := learnerAdded_run
  exact ⟨s, hrun, c, hc, hlast ▸ (committed_reported hrun hc).2.1⟩

end ChronicleDB.Raft
