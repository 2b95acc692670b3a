import ChronicleDB.Fsm.History

/-!
# Version changes across a snapshot at generation 0

At generation 0 the encoded state leaves the control outcomes out.  A replica
that is rebuilt from it decides a repeated command anew, against the generation
that is in force by then.
-/

namespace ChronicleDB.Fsm

open Foundation Mvcc SortedMap

abbrev VersionChange := Nat × SetClusterVersionCommand

def controls (h : List VersionChange) : List (Nat × Command) :=
  h.map fun e => (e.1, .setClusterVersion e.2)

def Increasing : Nat → List VersionChange → Prop
  | _, [] => True
  | n, e :: h => n ≤ e.1 ∧ Increasing (e.1 + 1) h

theorem Increasing.right {n : Nat} {h1 h2 : List VersionChange} (h : Increasing n (h1 ++ h2)) :
    Increasing (nextIndex n (controls h1)) h2 := by
  induction h1 generalizing n with
  | nil => exact h
  | cons e h1 ih => exact ih h.2

theorem Increasing.left {n : Nat} {h1 h2 : List VersionChange} (h : Increasing n (h1 ++ h2)) :
    Increasing n h1 := by
  induction h1 generalizing n with
  | nil => trivial
  | cons e h1 ih => exact ⟨h.1, ih h.2⟩

namespace FSM

/-! ## One command -/

def versionOutcome (gen : Nat) (e : VersionChange) : Outcome :=
  if e.2.targetGeneration ≠ (gen + 1) % 2 ^ 32 then .aborted e.2.requestID
  else .committed e.2.requestID e.1

def versionAfter (gen : Nat) (e : VersionChange) : Nat :=
  if e.2.targetGeneration ≠ (gen + 1) % 2 ^ 32 then gen else e.2.targetGeneration

theorem applySetClusterVersion_of_none {f : FSM} {e : VersionChange}
    (h : f.controlOutcomes.get e.2.requestID = none) :
    f.applySetClusterVersion e.1 e.2 =
      ({ f with
          clusterGeneration := versionAfter f.clusterGeneration e
          controlOutcomes := f.controlOutcomes.insert e.2.requestID
            (versionOutcome f.clusterGeneration e) }, versionOutcome f.clusterGeneration e) := by
  rw [applySetClusterVersion, h, versionAfter, versionOutcome]
  by_cases htarget : e.2.targetGeneration ≠ (f.clusterGeneration + 1) % 2 ^ 32
  · simp only [if_pos htarget]
  · simp only [if_neg htarget]

theorem applySetClusterVersion_of_some {f : FSM} {e : VersionChange} {o : Outcome}
    (h : f.controlOutcomes.get e.2.requestID = some o) :
    f.applySetClusterVersion e.1 e.2 = (f, o) := by
  rw [applySetClusterVersion, h]

theorem results_controls_cons (f : FSM) (e : VersionChange) (h : List VersionChange) :
    f.results (controls (e :: h)) = .ok (f.applySetClusterVersion e.1 e.2).2 ::
      (f.applySetClusterVersion e.1 e.2).1.results (controls h) := rfl

theorem run_controls_cons (f : FSM) (e : VersionChange) (h : List VersionChange) :
    f.run (controls (e :: h)) = (f.applySetClusterVersion e.1 e.2).1.run (controls h) := rfl

/-- A control outcome is a rejection, or the commit of an entry below `n`. -/
def Decided (n : Nat) (f : FSM) : Prop :=
  f.controlOutcomes.All fun id o => o = .aborted id ∨ ∃ j < n, o = .committed id j

theorem Decided.mono {n n' : Nat} {f : FSM} (h : f.Decided n) (hn : n ≤ n') : f.Decided n' :=
  SortedMap.All.mono h fun _ _ ho => ho.imp id fun ⟨j, hj, ho⟩ => ⟨j, hj.trans_le hn, ho⟩

theorem Decided.step {n : Nat} {f : FSM} {e : VersionChange} (h : f.Decided n) (hn : n ≤ e.1) :
    (f.applySetClusterVersion e.1 e.2).1.Decided (e.1 + 1) := by
  have hmono := h.mono (hn.trans (Nat.le_succ e.1))
  cases hget : f.controlOutcomes.get e.2.requestID with
  | some o => rwa [applySetClusterVersion_of_some hget]
  | none =>
    rw [applySetClusterVersion_of_none hget]
    refine SortedMap.All.insert hmono ?_
    rw [versionOutcome]
    split
    · exact .inl rfl
    · exact .inr ⟨e.1, Nat.lt_succ_self _, rfl⟩

/-! ## Replicas that have forgotten outcomes -/

/-- `g` is `f` without the outcomes of some RequestIDs. -/
structure Forgets (f g : FSM) : Prop where
  generation : g.clusterGeneration = f.clusterGeneration
  outcomes : ∀ id o, g.controlOutcomes.get id = some o → f.controlOutcomes.get id = some o

def Lost (f g : FSM) (id : RequestID) (o : Outcome) : Prop :=
  f.controlOutcomes.get id = some o ∧ g.controlOutcomes.get id = none

/-- The first repetition of a lost command finds the state in which it is rejected again. -/
def Rejected (f g : FSM) (h : List VersionChange) : Prop :=
  ∀ a e b o, h = a ++ e :: b → e.2.requestID ∉ a.map (·.2.requestID) →
    Lost f g e.2.requestID o → o.status = .aborted ∧
      e.2.targetGeneration ≠ ((f.run (controls a)).clusterGeneration + 1) % 2 ^ 32

variable {f g : FSM} {e : VersionChange} {h : List VersionChange}

theorem rejected_cons {g' : FSM}
    (hself : g'.controlOutcomes.get e.2.requestID ≠ none)
    (hother : ∀ id, id ≠ e.2.requestID → ∀ o,
      Lost (f.applySetClusterVersion e.1 e.2).1 g' id o ↔ Lost f g id o) :
    Rejected f g (e :: h) ↔
      (∀ o, Lost f g e.2.requestID o → o.status = .aborted ∧
        e.2.targetGeneration ≠ (f.clusterGeneration + 1) % 2 ^ 32) ∧
      Rejected (f.applySetClusterVersion e.1 e.2).1 g' h := by
  constructor
  · refine fun hall => ⟨fun o hlost => hall [] e h o rfl (by simp) hlost, ?_⟩
    rintro a e' b o rfl hnew hlost
    by_cases hid : e'.2.requestID = e.2.requestID
    · exact absurd (hid ▸ hlost.2) hself
    · exact hall (e :: a) e' b o rfl (by simp [hid, hnew]) ((hother _ hid o).mp hlost)
  · rintro ⟨hfirst, hrest⟩ a e' b o heq hnew hlost
    cases a with
    | nil =>
      cases heq
      exact hfirst o hlost
    | cons e₀ a =>
      cases heq
      rw [List.map_cons, List.mem_cons, not_or] at hnew
      exact hrest a e' b o rfl hnew.2 ((hother _ hnew.1 o).mpr hlost)

variable {n : Nat} {o : Outcome}

/-- A lost outcome is decided again as before exactly if it was a rejection, and is one
again. -/
theorem Decided.versionOutcome_eq_iff (hd : f.Decided n) (hn : n ≤ e.1)
    (hget : f.controlOutcomes.get e.2.requestID = some o) :
    versionOutcome f.clusterGeneration e = o ↔
      o.status = .aborted ∧ e.2.targetGeneration ≠ (f.clusterGeneration + 1) % 2 ^ 32 := by
  rw [versionOutcome]
  rcases hd _ _ hget with rfl | ⟨j, hj, rfl⟩
  · split
    case isTrue htarget => exact iff_of_true rfl ⟨rfl, htarget⟩
    case isFalse htarget =>
      exact iff_of_false (fun h => nomatch congrArg Outcome.status h) fun h => htarget h.2
  · refine iff_of_false ?_ fun h => nomatch h.1
    split
    · exact fun h => nomatch congrArg Outcome.status h
    · intro h
      have : e.1 = j := congrArg Outcome.commitSeq h
      omega

theorem Forgets.step_unknown (hf : Forgets f g)
    (hget : f.controlOutcomes.get e.2.requestID = none) :
    Forgets (f.applySetClusterVersion e.1 e.2).1 (g.applySetClusterVersion e.1 e.2).1 ∧
      (g.applySetClusterVersion e.1 e.2).2 = (f.applySetClusterVersion e.1 e.2).2 ∧
      (Rejected f g (e :: h) ↔
        Rejected (f.applySetClusterVersion e.1 e.2).1 (g.applySetClusterVersion e.1 e.2).1 h) := by
  have hgone : g.controlOutcomes.get e.2.requestID = none := by
    rw [Option.eq_none_iff_forall_ne_some]
    intro o ho
    rw [hf.outcomes _ _ ho] at hget
    cases hget
  have hfe := applySetClusterVersion_of_none hget
  have hge := applySetClusterVersion_of_none hgone
  rw [hf.generation] at hge
  refine ⟨?_, by rw [hfe, hge], ?_⟩
  · rw [hfe, hge]
    refine ⟨rfl, fun id o ho => ?_⟩
    simp only [get_insert] at ho ⊢
    split at ho
    · rwa [if_pos ‹_›]
    · rw [if_neg ‹_›]
      exact hf.outcomes id o ho
  · have hcons := @rejected_cons f g e h (g.applySetClusterVersion e.1 e.2).1 (by simp [hge])
      fun id hid o => by simp only [Lost, hfe, hge, get_insert_of_ne _ _ hid]
    rw [hcons]
    exact and_iff_right fun o hlost => nomatch hget.symm.trans hlost.1

theorem rejected_cons_of_known {o' : Outcome} (hget : f.controlOutcomes.get e.2.requestID = some o)
    (hgot : g.controlOutcomes.get e.2.requestID = some o') :
    Rejected f g (e :: h) ↔ Rejected f g h := by
  have hfe := applySetClusterVersion_of_some hget
  have hcons := @rejected_cons f g e h g (by simp [hgot]) fun id hid o => by rw [hfe]
  rw [hfe] at hcons
  rw [hcons]
  exact and_iff_right fun o hlost => nomatch hgot.symm.trans hlost.2

theorem rejected_cons_of_lost (hlost : Lost f g e.2.requestID o) :
    Rejected f g (e :: h) ↔
      (o.status = .aborted ∧ e.2.targetGeneration ≠ (f.clusterGeneration + 1) % 2 ^ 32) ∧
        Rejected f (g.applySetClusterVersion e.1 e.2).1 h := by
  have hfe := applySetClusterVersion_of_some hlost.1
  have hge := applySetClusterVersion_of_none hlost.2
  have hcons := @rejected_cons f g e h (g.applySetClusterVersion e.1 e.2).1 (by simp [hge])
    fun id hid o => by simp only [Lost, hfe, hge, get_insert_of_ne _ _ hid]
  rw [hfe] at hcons
  rw [hcons]
  refine and_congr_left fun _ => ⟨fun hall => hall o hlost, fun hself o' hlost' => ?_⟩
  rw [← Option.some.inj (hlost.1.symm.trans hlost'.1)]
  exact hself

theorem Forgets.step_lost (hf : Forgets f g) (hlost : Lost f g e.2.requestID o)
    (hsame : versionOutcome f.clusterGeneration e = o)
    (htarget : e.2.targetGeneration ≠ (f.clusterGeneration + 1) % 2 ^ 32) :
    Forgets f (g.applySetClusterVersion e.1 e.2).1 := by
  have hge := applySetClusterVersion_of_none hlost.2
  rw [hf.generation] at hge
  rw [hge]
  refine ⟨if_pos htarget, fun id o' ho' => ?_⟩
  simp only [get_insert] at ho'
  split at ho'
  case isTrue hid =>
    rw [← Option.some.inj ho', hsame, hid]
    exact hlost.1
  case isFalse => exact hf.outcomes id o' ho'

/-- The two replicas answer alike exactly as long as every lost outcome is decided again
as before. -/
theorem Forgets.results_iff (hf : Forgets f g) (hd : f.Decided n) (hinc : Increasing n h) :
    (g.results (controls h) = f.results (controls h) ↔ Rejected f g h) ∧
      (Rejected f g h →
        (g.run (controls h)).clusterGeneration = (f.run (controls h)).clusterGeneration) := by
  induction h generalizing f g n with
  | nil => exact ⟨iff_of_true rfl fun a e b o heq => by simp at heq, fun _ => hf.generation⟩
  | cons e h ih =>
    have hstep := hd.step hinc.1
    rw [results_controls_cons, results_controls_cons, run_controls_cons, run_controls_cons,
      List.cons.injEq, Except.ok.injEq]
    cases hget : f.controlOutcomes.get e.2.requestID with
    | none =>
      obtain ⟨hforgets, hhead, hrejected⟩ := @Forgets.step_unknown f g e h hf hget
      obtain ⟨hiff, hgen⟩ := ih hforgets hstep hinc.2
      rw [hrejected, hhead, hiff]
      exact ⟨and_iff_right rfl, hgen⟩
    | some o =>
      have hfe := applySetClusterVersion_of_some hget
      rw [hfe] at hstep ⊢
      cases hgot : g.controlOutcomes.get e.2.requestID with
      | some o' =>
        obtain rfl : o = o' := Option.some.inj (hget.symm.trans (hf.outcomes _ _ hgot))
        obtain ⟨hiff, hgen⟩ := ih hf hstep hinc.2
        rw [applySetClusterVersion_of_some hgot, rejected_cons_of_known hget hgot, hiff]
        exact ⟨and_iff_right rfl, hgen⟩
      | none =>
        have hlost : Lost f g e.2.requestID o := ⟨hget, hgot⟩
        have hhead := hd.versionOutcome_eq_iff hinc.1 hget
        have houtcome : (g.applySetClusterVersion e.1 e.2).2 =
            versionOutcome f.clusterGeneration e := by
          rw [applySetClusterVersion_of_none hgot, hf.generation]
        rw [houtcome, rejected_cons_of_lost hlost, ← hhead]
        by_cases hsame : versionOutcome f.clusterGeneration e = o
        · obtain ⟨hiff, hgen⟩ := ih (hf.step_lost hlost hsame (hhead.mp hsame).2) hstep hinc.2
          rw [hiff]
          exact ⟨.rfl, fun hall => hgen hall.2⟩
        · exact ⟨iff_of_false (fun hboth => hsame hboth.1) fun hall => hsame hall.1,
            fun hall => absurd hall.1 hsame⟩

/-! ## The state that a snapshot brings back -/

theorem run_controls_eq (f : FSM) (h : List VersionChange) :
    f.run (controls h) =
      { f with
        clusterGeneration := (f.run (controls h)).clusterGeneration
        controlOutcomes := (f.run (controls h)).controlOutcomes } := by
  induction h generalizing f with
  | nil => rfl
  | cons e h ih =>
    rw [run_controls_cons, ih]
    cases hget : f.controlOutcomes.get e.2.requestID with
    | some o => rw [applySetClusterVersion_of_some hget]
    | none => rw [applySetClusterVersion_of_none hget]

theorem sound_run_controls {h : List VersionChange} (hs : f.Sound n) (hinc : Increasing n h) :
    (f.run (controls h)).Sound (nextIndex n (controls h)) := by
  induction h generalizing f n with
  | nil => exact hs
  | cons e h ih => exact ih ((hs.mono hinc.1).setClusterVersion e.2) hinc.2

theorem decided_run_controls {h : List VersionChange} (hd : f.Decided n) (hinc : Increasing n h) :
    (f.run (controls h)).Decided (nextIndex n (controls h)) := by
  induction h generalizing f n with
  | nil => exact hd
  | cons e h ih => exact ih (hd.step hinc.1) hinc.2

theorem nextIndex_controls_le {h : List VersionChange} (hn : n ≤ 2 ^ 64)
    (hindex : ∀ e ∈ h, e.1 < 2 ^ 64) : nextIndex n (controls h) ≤ 2 ^ 64 := by
  induction h generalizing n with
  | nil => exact hn
  | cons e h ih =>
    exact ih (hindex e List.mem_cons_self) fun e' he' => hindex e' (List.mem_cons_of_mem _ he')

theorem restored_controls {h : List VersionChange} {g : FSM} {seq : Nat}
    (hf : (new .new).run (controls h) = f) (hinc : Increasing 0 h)
    (hindex : ∀ e ∈ h, e.1 < 2 ^ 64) (hfits : 0 < f.clusterGeneration → f.Fits)
    (hrestored : decodeState f.encodeState = .ok (g, seq)) :
    g = if f.clusterGeneration = 0 then new .new else f := by
  have hfields := run_controls_eq (new .new) h
  rw [hf] at hfields
  split
  case isTrue hzero =>
    have hbytes : f.encodeState = (new .new).encodeState := by
      rw [hfields, hzero]
      rfl
    have hnew : decodeState (new .new).encodeState = .ok (new .new, 0) := by decide +kernel
    rw [hbytes, hnew] at hrestored
    exact (congrArg Prod.fst (Except.ok.inj hrestored)).symm
  case isFalse hpos =>
    have hs := sound_run_controls sound_new hinc
    rw [hf] at hs
    have hgated : f.Gated := by
      refine ⟨fun hzero => absurd hzero hpos, fun _ => ?_, fun _ => ?_⟩
      · rw [hfields]
        rfl
      · rw [hfields]
        exact ⟨rfl, rfl, rfl, rfl⟩
    have hreads := getState_reads hs (nextIndex_controls_le (Nat.zero_le _) hindex) hgated
      (hfits (Nat.pos_of_ne_zero hpos))
    rw [decodeState] at hrestored
    by_cases hcounts : f.CountsPass
    · rw [hreads.1 hcounts] at hrestored
      exact (congrArg Prod.fst (Except.ok.inj hrestored)).symm
    · obtain ⟨e, he⟩ := hreads.2 hcounts
      rw [he] at hrestored
      cases hrestored

end FSM

/-- A replica that is rebuilt from its encoded state lacks the control outcomes exactly if the
generation is 0.  It answers the commands from there on as one that keeps running does
exactly when the first repetition of each lost command is rejected as the command was. -/
theorem control_outcomes_survive_iff {h1 h2 : List VersionChange} {f g : FSM} {seq : Nat}
    (hf : FSM.run (.new .new) (controls h1) = f) (hinc : Increasing 0 (h1 ++ h2))
    (hindex : ∀ e ∈ h1, e.1 < 2 ^ 64) (hfits : 0 < f.clusterGeneration → f.Fits)
    (hrestored : decodeState f.encodeState = .ok (g, seq)) :
    (∀ id o, FSM.Lost f g id o ↔ f.clusterGeneration = 0 ∧ f.controlOutcomes.get id = some o) ∧
      ((g.results (controls h2) = f.results (controls h2) ∧
        (g.run (controls h2)).clusterGeneration = (f.run (controls h2)).clusterGeneration) ↔
          FSM.Rejected f g h2) := by
  have hg := FSM.restored_controls hf hinc.left hindex hfits hrestored
  have hforgets : FSM.Forgets f g := by
    rw [hg]
    split
    case isTrue hzero => exact ⟨hzero.symm, fun id o ho => by simp [FSM.new] at ho⟩
    case isFalse => exact ⟨rfl, fun id o ho => ho⟩
  have hd : f.Decided (nextIndex 0 (controls h1)) :=
    hf ▸ FSM.decided_run_controls (SortedMap.all_empty _) hinc.left
  obtain ⟨hiff, hgen⟩ := hforgets.results_iff hd hinc.right
  refine ⟨fun id o => ?_, ?_⟩
  · rw [FSM.Lost, hg]
    split
    case isTrue hzero => simp [FSM.new, hzero]
    case isFalse hpos =>
      refine iff_of_false (fun hlost => ?_) fun h => hpos h.1
      cases hlost.1.symm.trans hlost.2
  · rw [hiff]
    exact and_iff_left_of_imp hgen

/-! ## A rejected finalization that is retried -/

/-- Generation 2 is asked for at generation 0, and refused. -/
def earlyFinalize : List VersionChange := [(1, ⟨[114], 2⟩)]

def earlyFSM : FSM := FSM.run (.new .new) (controls earlyFinalize)

/-- The retry comes after generation 1: the running replica repeats its refusal, the rebuilt
one finalizes generation 2. -/
theorem lost_rejection_accepted :
    ∃ g seq, decodeState earlyFSM.encodeState = .ok (g, seq) ∧
      Increasing 0 (earlyFinalize ++ [(2, ⟨[115], 1⟩), (3, ⟨[114], 2⟩)]) ∧
      earlyFSM.results (controls [(2, ⟨[115], 1⟩), (3, ⟨[114], 2⟩)]) =
        [.ok (.committed [115] 2), .ok (.aborted [114])] ∧
      g.results (controls [(2, ⟨[115], 1⟩), (3, ⟨[114], 2⟩)]) =
        [.ok (.committed [115] 2), .ok (.committed [114] 3)] ∧
      (earlyFSM.run (controls [(2, ⟨[115], 1⟩), (3, ⟨[114], 2⟩)])).clusterGeneration = 1 ∧
      (g.run (controls [(2, ⟨[115], 1⟩), (3, ⟨[114], 2⟩)])).clusterGeneration = 2 :=
  ⟨.new .new, 0, by decide +kernel, by simp [Increasing, earlyFinalize], rfl, rfl, rfl, rfl⟩

/-- A retry at generation 0 is refused again, and remembered by both. -/
theorem control_outcomes_survive_retried :
    FSM.Rejected earlyFSM (.new .new) [(2, ⟨[114], 2⟩), (3, ⟨[115], 1⟩), (4, ⟨[114], 2⟩)] :=
  (control_outcomes_survive_iff rfl (by simp [Increasing, earlyFinalize])
    (by simp [earlyFinalize]) (fun h => absurd h (by decide +kernel))
    (show decodeState earlyFSM.encodeState = .ok (.new .new, 0) by decide +kernel)).2.mp
      ⟨rfl, rfl⟩

end ChronicleDB.Fsm
