import ChronicleDB.Fsm.Collect
import Mathlib.Algebra.BigOperators.Group.List.Basic

/-!
# Passes of the collection

A pass walks over the keys in several commands.  A command resumes after the
cursor and stops at its budget of keys or of versions; the next one goes on after
the last key examined, even if the budget of versions ran out in the middle of
the chain of that key.  The cursor of a new pass is the empty key, which the walk
therefore never examines.
-/

namespace ChronicleDB.Mvcc

open Foundation List

/-! ## Superseded versions -/

/-- A version of `chain` has a later one at or below `w`. -/
def HasSuperseded (chain : List Version) (w : Nat) : Prop :=
  ∃ (i j : Nat) (v v' : Version), i < j ∧ chain[i]? = some v ∧ chain[j]? = some v' ∧
    v'.commitSeq ≤ w

theorem length_upTo_gt {chain : List Version} {w j : Nat} {v : Version}
    (h : chain.Pairwise fun v v' => v.commitSeq ≤ v'.commitSeq) (hj : chain[j]? = some v)
    (hv : v.commitSeq ≤ w) : j < (upTo chain w).length := by
  induction chain generalizing j with
  | nil => simp at hj
  | cons first chain ih =>
    obtain ⟨hfirst, hrest⟩ := pairwise_cons.mp h
    cases j with
    | zero =>
      cases hj
      simp [upTo, hv]
    | succ j =>
      rw [getElem?_cons_succ] at hj
      have hle : first.commitSeq ≤ w := (hfirst v (mem_of_getElem? hj)).trans hv
      have := ih hrest hj
      simpa [upTo, hle] using this

theorem superseded_eq_zero_iff {chain : List Version} {w : Nat}
    (h : chain.Pairwise fun v v' => v.commitSeq ≤ v'.commitSeq) :
    superseded chain w = 0 ↔ ¬HasSuperseded chain w := by
  constructor
  · rintro hzero ⟨i, j, v, v', hij, -, hj, hv'⟩
    have := length_upTo_gt h hj hv'
    rw [superseded] at hzero
    omega
  · intro hnone
    rcases chain with _ | ⟨v, _ | ⟨v', rest⟩⟩
    · rfl
    · rw [superseded, upTo, takeWhile_cons]
      split <;> rfl
    · have hv' : ¬v'.commitSeq ≤ w := fun hle => hnone ⟨0, 1, v, v', Nat.zero_lt_one, rfl, rfl, hle⟩
      rw [superseded, upTo, takeWhile_cons, takeWhile_cons_of_neg (by simpa using hv')]
      split <;> rfl

theorem superseded_drop {chain : List Version} {w n : Nat} (h : n ≤ superseded chain w) :
    superseded (chain.drop n) w = superseded chain w - n := by
  rw [superseded] at h ⊢
  rw [upTo_drop (by omega), length_drop, superseded]
  omega

namespace Store

theorem reclaimKey_snd (s : Store) (key : Bytes) (w budget : Nat) :
    (s.reclaimKey key w budget).2 = min (superseded (s.chain key) w) budget := by
  rw [reclaimKey]
  split
  case isTrue hzero => exact hzero.symm
  case isFalse => rfl

theorem keys_reclaimKey (s : Store) (key : Bytes) (w budget : Nat) :
    (s.reclaimKey key w budget).1.chains.keys = s.chains.keys :=
  ((Collected.refl w s).reclaimKey key budget).keys

theorem superseded_reclaimKey (s : Store) (key : Bytes) (w budget : Nat) :
    superseded ((s.reclaimKey key w budget).1.chain key) w =
      superseded (s.chain key) w - budget := by
  rw [chain_reclaimKey, if_pos rfl, superseded_drop (Nat.min_le_left ..)]
  omega

def keysAfter (s : Store) (cursor : Bytes) : List Bytes := s.chains.keys.filter (cursor < ·)

theorem keysAfter_of_append {s : Store} {cursor k : Bytes} {front rest : List Bytes}
    (h : s.keysAfter cursor = front ++ rest) (hk : front.getLast? = some k) :
    s.keysAfter k = rest := by
  obtain ⟨before, rfl⟩ := getLast?_eq_some_iff.mp hk
  have hsorted : ((before ++ [k]) ++ rest).Pairwise (· < ·) := h ▸ s.chains.keys_pairwise.filter _
  obtain ⟨hfront, -, hrest⟩ := pairwise_append.mp hsorted
  have hcursor : cursor < k := by
    have hmem : k ∈ s.keysAfter cursor := by simp [h]
    simpa using (mem_filter.mp hmem).2
  have hfilter : s.keysAfter k = (s.keysAfter cursor).filter (k < ·) := by
    rw [keysAfter, keysAfter, filter_filter]
    refine filter_congr fun x _ => ?_
    by_cases hx : k < x
    · simp [hx, hcursor.trans hx]
    · simp [hx]
  have hnone : (before ++ [k]).filter (k < ·) = [] := by
    refine filter_eq_nil_iff.mpr fun x hx => ?_
    rcases mem_append.mp hx with hx | hx
    · simpa using ((pairwise_append.mp hfront).2.2 x hx k (by simp)).le
    · simp [mem_singleton.mp hx]
  have hall : rest.filter (k < ·) = rest :=
    filter_eq_self.mpr fun x hx => by simpa using hrest k (by simp) x hx
  rw [hfilter, h, filter_append, hnone, hall, nil_append]

end Store

end ChronicleDB.Mvcc

namespace ChronicleDB.Fsm

open Foundation Mvcc

/-! ## One command -/

/-- The keys that a walk examines before its budget of versions runs out. -/
def examined (w maxVersions : Nat) : Store → Nat → List Bytes → List Bytes
  | _, _, [] => []
  | s, removed, k :: ks =>
    if removed ≥ maxVersions then []
    else
      let r := s.reclaimKey k w (maxVersions - removed)
      k :: examined w maxVersions r.1 (removed + r.2) ks

def demand (s : Store) (w : Nat) (keys : List Bytes) : Nat :=
  (keys.map fun k => superseded (s.chain k) w).sum

theorem demand_congr {s s' : Store} {w : Nat} {keys : List Bytes}
    (h : ∀ k ∈ keys, s'.chain k = s.chain k) : demand s' w keys = demand s w keys := by
  rw [demand, demand, List.map_congr_left fun k hk => by rw [h k hk]]

structure Walked (w maxVersions : Nat) (acc : FSM.Walk) (keys : List Bytes) (r : FSM.Walk)
    (seen : List Bytes) : Prop where
  same : r.store.chains.keys = acc.store.chains.keys
  untouched : ∀ k ∉ seen, r.store.chain k = acc.store.chain k
  settled : (∀ k ∈ seen, superseded (r.store.chain k) w = 0) ↔
    acc.removed + demand acc.store w seen ≤ maxVersions
  front : ∃ rest, keys = seen ++ rest ∧ (r.stopped = true ↔ acc.stopped = true ∨ rest ≠ [])
  last : r.lastExamined = seen.getLast?.getD acc.lastExamined

theorem walked (w maxVersions : Nat) {keys : List Bytes} (hkeys : keys.Nodup) {acc : FSM.Walk}
    (hle : acc.removed ≤ maxVersions) :
    Walked w maxVersions acc keys (FSM.walk w maxVersions acc keys)
      (examined w maxVersions acc.store acc.removed keys) := by
  induction keys generalizing acc with
  | nil =>
    exact ⟨rfl, fun _ _ => rfl, by simp [examined, demand, hle],
      ⟨[], by simp [examined, FSM.walk]⟩, rfl⟩
  | cons k ks ih =>
    obtain ⟨hk, hks⟩ := List.nodup_cons.mp hkeys
    rw [FSM.walk, examined]
    by_cases hfull : acc.removed ≥ maxVersions
    · rw [if_pos hfull, if_pos hfull]
      exact ⟨rfl, fun _ _ => rfl, by simp [demand, hle], ⟨k :: ks, by simp⟩, rfl⟩
    · rw [if_neg hfull, if_neg hfull]
      have hsnd := acc.store.reclaimKey_snd k w (maxVersions - acc.removed)
      have hchain := acc.store.chain_reclaimKey k w (maxVersions - acc.removed)
      have hleft := acc.store.superseded_reclaimKey k w (maxVersions - acc.removed)
      have hsame := acc.store.keys_reclaimKey k w (maxVersions - acc.removed)
      generalize acc.store.reclaimKey k w (maxVersions - acc.removed) = r at *
      have hrest := @ih hks ⟨r.1, acc.removed + r.2, k, acc.stopped⟩ (by simp only; omega)
      obtain ⟨rest, hsplit, hstopped⟩ := hrest.front
      have hnot : k ∉ examined w maxVersions r.1 (acc.removed + r.2) ks := fun hmem =>
        hk (hsplit ▸ List.mem_append_left rest hmem)
      have hother : ∀ x, x ≠ k → r.1.chain x = acc.store.chain x := fun x hx => by
        rw [hchain, if_neg hx]
      refine ⟨hrest.same.trans hsame, fun x hx => ?_, ?_, ⟨rest, ?_, hstopped⟩, ?_⟩
      · obtain ⟨hne, hx⟩ := not_or.mp (fun h => hx (List.mem_cons.mpr h))
        rw [hrest.untouched x hx, hother x hne]
      · have hdemand : demand acc.store w (k :: examined w maxVersions r.1 (acc.removed + r.2) ks) =
            superseded (acc.store.chain k) w +
              demand r.1 w (examined w maxVersions r.1 (acc.removed + r.2) ks) := by
          rw [demand_congr fun x hx => hother x fun heq => hnot (heq ▸ hx)]
          simp [demand]
        rw [List.forall_mem_cons, hrest.settled, hrest.untouched k hnot, hleft, hdemand]
        simp only
        omega
      · exact congrArg (k :: ·) hsplit
      · rw [hrest.last, List.getLast?_cons]
        simp

namespace FSM

def examines (f : FSM) (cmd : AdvanceGCWatermarkCommand) : List Bytes :=
  examined cmd.watermark cmd.maxVersions f.store 0 (f.store.keysFrom f.gcCursor cmd.maxKeys)

/-- A command of a pass at `w` that has not been applied yet. -/
structure Pending (f : FSM) (w : Nat) (cmd : AdvanceGCWatermarkCommand) : Prop where
  watermark : cmd.watermark = w
  versions : 0 < cmd.maxVersions
  keys : 0 < cmd.maxKeys
  fresh : f.controlOutcomes.get cmd.requestID = none

structure Swept (f f' : FSM) (w : Nat) (cmd : AdvanceGCWatermarkCommand) : Prop where
  watermark : f'.gcWatermark = w
  ordered : f.store.Ordered → f'.store.Ordered
  outcomes : ∀ id, id ≠ cmd.requestID →
    f'.controlOutcomes.get id = f.controlOutcomes.get id
  same : f'.store.chains.keys = f.store.chains.keys
  untouched : ∀ k ∉ f.examines cmd, f'.store.chain k = f.store.chain k
  settled : (∀ k ∈ f.examines cmd, superseded (f'.store.chain k) w = 0) ↔
    demand f.store w (f.examines cmd) ≤ cmd.maxVersions
  /-- The pass is complete, or goes on after the last key examined. -/
  cursor : (f'.gcPasses ≠ f.gcPasses ∧ f.store.keysAfter f.gcCursor = f.examines cmd) ∨
    (f'.gcPasses = f.gcPasses ∧ f.examines cmd ≠ [] ∧
      f.store.keysAfter f.gcCursor = f.examines cmd ++ f'.store.keysAfter f'.gcCursor)

theorem nodup_keysAfter (s : Store) (cursor : Bytes) : (s.keysAfter cursor).Nodup :=
  (s.chains.keys_pairwise.filter _).imp fun h => h.ne

theorem succ_mod_ne (n : Nat) : (n + 1) % 2 ^ 64 ≠ n := by omega

variable {f : FSM} {w : Nat} {cmd : AdvanceGCWatermarkCommand}

theorem Pending.examines_ne_nil (h : f.Pending w cmd)
    (hkeys : f.store.keysFrom f.gcCursor cmd.maxKeys ≠ []) : f.examines cmd ≠ [] := by
  rw [examines]
  cases hks : f.store.keysFrom f.gcCursor cmd.maxKeys with
  | nil => exact absurd hks hkeys
  | cons k ks =>
    rw [examined, if_neg (by have := h.versions; omega)]
    exact List.cons_ne_nil _ _

theorem Pending.apply_eq (h : f.Pending w cmd) (hmark : f.gcWatermark ≤ w) (index : Nat) :
    ∃ g, collect { f with gcWatermark := w } w cmd.maxVersions cmd.maxKeys = g ∧
      (f.applyAdvanceGCWatermark index cmd).1 =
        { g with
          gcPassSeq := (g.gcPassSeq + 1) % 2 ^ 64
          controlOutcomes := g.controlOutcomes.insert cmd.requestID (.committed cmd.requestID index)
          store := g.store.setGCWatermark w } := by
  have hw : (if cmd.watermark > f.gcWatermark then cmd.watermark else f.gcWatermark) = w := by
    rw [h.watermark]
    split <;> omega
  refine ⟨_, rfl, ?_⟩
  rw [applyAdvanceGCWatermark, h.fresh]
  simp only [hw]

theorem keysAfter_setGCWatermark (s : Store) (w : Nat) (cursor : Bytes) :
    (s.setGCWatermark w).keysAfter cursor = s.keysAfter cursor := by
  rw [Store.setGCWatermark]
  split <;> rfl

theorem ordered_setGCWatermark {s : Store} (h : s.Ordered) (w : Nat) :
    (s.setGCWatermark w).Ordered := fun key => by
  rw [Store.chain_setGCWatermark]
  exact h key

theorem Pending.collect_cursor (h : f.Pending w cmd) {r : Walk}
    (hr : Walked w cmd.maxVersions ⟨f.store, 0, [], false⟩
      (f.store.keysFrom f.gcCursor cmd.maxKeys) r (f.examines cmd)) :
    let g : FSM :=
      if r.stopped = false ∧ (f.store.keysFrom f.gcCursor cmd.maxKeys).length < cmd.maxKeys then
        { f with store := r.store, gcCursor := [], gcPasses := (f.gcPasses + 1) % 2 ^ 64 }
      else if r.lastExamined ≠ [] then { f with store := r.store, gcCursor := r.lastExamined }
      else { f with store := r.store }
    (g.gcPasses ≠ f.gcPasses ∧ f.store.keysAfter f.gcCursor = f.examines cmd) ∨
      (g.gcPasses = f.gcPasses ∧ f.examines cmd ≠ [] ∧
        f.store.keysAfter f.gcCursor = f.examines cmd ++ g.store.keysAfter g.gcCursor) := by
  have hfrom : f.store.keysFrom f.gcCursor cmd.maxKeys =
      (f.store.keysAfter f.gcCursor).take cmd.maxKeys := rfl
  obtain ⟨rest, hsplit, hstopped⟩ := hr.front
  have hall : f.store.keysAfter f.gcCursor =
      f.examines cmd ++ (rest ++ (f.store.keysAfter f.gcCursor).drop cmd.maxKeys) := by
    rw [← List.append_assoc, ← hsplit, hfrom, List.take_append_drop]
  intro g
  by_cases hdone : r.stopped = false ∧
      (f.store.keysFrom f.gcCursor cmd.maxKeys).length < cmd.maxKeys
  · -- fewer keys than asked for, and all of them examined: the end of the key set
    have hrest : rest = [] := by
      by_contra hne
      simp [hstopped.mpr (.inr hne)] at hdone
    have hdrop : (f.store.keysAfter f.gcCursor).drop cmd.maxKeys = [] := by
      have hlen := hdone.2
      rw [hfrom, List.length_take] at hlen
      exact List.drop_eq_nil_of_le (by omega)
    simp only [g, if_pos hdone]
    refine .inl ⟨succ_mod_ne _, ?_⟩
    rw [hrest, hdrop, List.append_nil, List.append_nil] at hall
    exact hall
  · have hkeys : f.store.keysFrom f.gcCursor cmd.maxKeys ≠ [] := by
      intro hnil
      have hrest : rest = [] := (List.append_eq_nil_iff.mp (hsplit ▸ hnil)).2
      refine hdone ⟨?_, by rw [hnil]; exact h.keys⟩
      by_contra hstop
      simp [hrest] at hstopped
      exact hstop hstopped
    have hne := h.examines_ne_nil hkeys
    obtain ⟨k, hk⟩ : ∃ k, (f.examines cmd).getLast? = some k :=
      ⟨_, List.getLast?_eq_some_getLast hne⟩
    have hlast : r.lastExamined = k := by rw [hr.last, hk, Option.getD_some]
    have hk' : k ≠ [] := by
      have hmem : k ∈ f.store.keysAfter f.gcCursor := by
        rw [hall]
        exact List.mem_append_left _ (List.mem_of_getLast? hk)
      rintro rfl
      simpa using (List.mem_filter.mp hmem).2
    simp only [g, if_neg hdone, hlast, if_pos hk']
    refine .inr ⟨trivial, hne, ?_⟩
    have hsame : r.store.keysAfter k = f.store.keysAfter k := by
      rw [Store.keysAfter, Store.keysAfter, hr.same]
    rw [hsame, Store.keysAfter_of_append hall hk]
    exact hall

theorem Pending.swept (h : f.Pending w cmd) (hmark : f.gcWatermark ≤ w) (index : Nat) :
    Swept f (f.applyAdvanceGCWatermark index cmd).1 w cmd := by
  obtain ⟨g, hg, heq⟩ := h.apply_eq hmark index
  have hr : Walked w cmd.maxVersions ⟨f.store, 0, [], false⟩
      (f.store.keysFrom f.gcCursor cmd.maxKeys)
      (walk w cmd.maxVersions ⟨f.store, 0, [], false⟩ (f.store.keysFrom f.gcCursor cmd.maxKeys))
      (f.examines cmd) := by
    rw [examines, h.watermark]
    exact walked w cmd.maxVersions
      ((nodup_keysAfter f.store f.gcCursor).sublist (List.take_sublist _ _)) (Nat.zero_le _)
  have hordered : f.store.Ordered → (walk w cmd.maxVersions ⟨f.store, 0, [], false⟩
      (f.store.keysFrom f.gcCursor cmd.maxKeys)).store.Ordered := fun hf =>
    walk_ordered w cmd.maxVersions (f.store.keysFrom f.gcCursor cmd.maxKeys) hf
  rw [collect, if_pos h.keys] at hg
  dsimp only at hg
  generalize walk w cmd.maxVersions ⟨f.store, 0, [], false⟩
    (f.store.keysFrom f.gcCursor cmd.maxKeys) = r at hr hordered hg
  have hpending : Pending { f with gcWatermark := w } w cmd :=
    ⟨h.watermark, h.versions, h.keys, h.fresh⟩
  have hcursor := hpending.collect_cursor hr
  have hfields : g.gcWatermark = w ∧ g.controlOutcomes = f.controlOutcomes ∧
      g.store = r.store := by
    rw [← hg]
    split
    · exact ⟨rfl, rfl, rfl⟩
    · split
      · exact ⟨rfl, rfl, rfl⟩
      · exact ⟨rfl, rfl, rfl⟩
  obtain ⟨hmark', hcontrol, hstore⟩ := hfields
  rw [heq]
  refine ⟨hmark', fun hf => ?_, fun id hid => ?_, ?_, fun k hk => ?_, ?_, ?_⟩
  · exact ordered_setGCWatermark (hstore ▸ hordered hf) w
  · rw [SortedMap.get_insert_of_ne _ _ hid, hcontrol]
  · have hkeys := hr.same
    rw [← hstore] at hkeys
    rw [← hkeys, Store.setGCWatermark]
    split <;> rfl
  · simp only [Store.chain_setGCWatermark]
    rw [hstore, hr.untouched k hk]
  · simp only [Store.chain_setGCWatermark]
    rw [hstore, hr.settled, Nat.zero_add]
  · dsimp only at hcursor
    rw [hg] at hcursor
    rw [keysAfter_setGCWatermark]
    exact hcursor

end FSM

/-! ## Whole passes -/

abbrev Advance := Nat × AdvanceGCWatermarkCommand

def FSM.advance (f : FSM) (e : Advance) : FSM := (f.applyAdvanceGCWatermark e.1 e.2).1

/-- The commands lead from `f` to `f'`, and the last one, and no other, completes a pass. -/
inductive Pass : FSM → List Advance → FSM → Prop where
  | last {f e} (done : (f.advance e).gcPasses ≠ f.gcPasses) : Pass f [e] (f.advance e)
  | more {f e es f'} (going : (f.advance e).gcPasses = f.gcPasses)
      (rest : Pass (f.advance e) es f') : Pass f (e :: es) f'

/-- Every command may remove as many versions as the keys it examines have superseded. -/
def Affords (w : Nat) : FSM → List Advance → Prop
  | _, [] => True
  | f, e :: es =>
    demand f.store w (f.examines e.2) ≤ e.2.maxVersions ∧ Affords w (f.advance e) es

instance decidableAffords (w : Nat) : (f : FSM) → (es : List Advance) → Decidable (Affords w f es)
  | _, [] => isTrue trivial
  | f, e :: es =>
    have := decidableAffords w (f.advance e) es
    inferInstanceAs (Decidable (_ ∧ _))

/-- Commands at the watermark `w` with positive budgets and RequestIDs of their own. -/
structure Fresh (f : FSM) (w : Nat) (es : List Advance) : Prop where
  pending : ∀ e ∈ es, f.Pending w e.2
  distinct : (es.map (·.2.requestID)).Nodup

namespace Fresh

variable {f : FSM} {w : Nat} {e : Advance} {es : List Advance}

theorem swept (h : Fresh f w (e :: es)) (hmark : f.gcWatermark ≤ w) :
    FSM.Swept f (f.advance e) w e.2 :=
  (h.pending e List.mem_cons_self).swept hmark e.1

theorem tail (h : Fresh f w (e :: es)) (hmark : f.gcWatermark ≤ w) : Fresh (f.advance e) w es := by
  obtain ⟨hnew, hdistinct⟩ := List.nodup_cons.mp h.distinct
  refine ⟨fun e' he' => ?_, hdistinct⟩
  have hpending := h.pending e' (List.mem_cons_of_mem _ he')
  refine { hpending with fresh := ?_ }
  rw [(h.swept hmark).outcomes _ fun heq => hnew (List.mem_map.mpr ⟨e', he', heq⟩)]
  exact hpending.fresh

end Fresh

theorem exists_pass {f : FSM} {w : Nat} {es : List Advance} (h : Fresh f w es)
    (hmark : f.gcWatermark ≤ w) (hlen : (f.store.keysAfter f.gcCursor).length < es.length) :
    ∃ pass rest f', es = pass ++ rest ∧ Pass f pass f' := by
  induction es generalizing f with
  | nil => simp at hlen
  | cons e es ih =>
    have hswept := h.swept hmark
    rcases hswept.cursor with ⟨hdone, -⟩ | ⟨hgoing, hne, hkeys⟩
    · exact ⟨[e], es, f.advance e, rfl, .last hdone⟩
    · have hpos := List.length_pos_of_ne_nil hne
      rw [hkeys, List.length_append, List.length_cons] at hlen
      obtain ⟨pass, rest, f', rfl, hpass⟩ := ih (h.tail hmark) hswept.watermark.le (by omega)
      exact ⟨e :: pass, rest, f', rfl, .more hgoing hpass⟩

/-- What a pass, from any cursor on, leaves of the keys after it and of the others. -/
structure Cleaned (w : Nat) (f : FSM) (es : List Advance) (f' : FSM) : Prop where
  ordered : f.store.Ordered → f'.store.Ordered
  same : f'.store.chains.keys = f.store.chains.keys
  untouched : ∀ k ∉ f.store.keysAfter f.gcCursor, f'.store.chain k = f.store.chain k
  settled : (∀ k ∈ f.store.keysAfter f.gcCursor, superseded (f'.store.chain k) w = 0) ↔
    Affords w f es

theorem Pass.cleaned {f f' : FSM} {w : Nat} {pass rest : List Advance} (hpass : Pass f pass f')
    (h : Fresh f w (pass ++ rest)) (hmark : f.gcWatermark ≤ w) : Cleaned w f pass f' := by
  induction hpass with
  | @last f e done =>
    have hswept := h.swept hmark
    rcases hswept.cursor with ⟨-, hkeys⟩ | ⟨hgoing, -⟩
    · refine ⟨hswept.ordered, hswept.same, fun k hk => hswept.untouched k (hkeys ▸ hk), ?_⟩
      rw [hkeys, hswept.settled, Affords, Affords, and_true]
    · exact absurd hgoing done
  | @more f e es f' going _ ih =>
    have hswept := h.swept hmark
    have hrest := ih (h.tail hmark) hswept.watermark.le
    rcases hswept.cursor with ⟨hdone, -⟩ | ⟨-, -, hkeys⟩
    · exact absurd going hdone
    · have hnodup := FSM.nodup_keysAfter f.store f.gcCursor
      rw [hkeys] at hnodup
      have hdisjoint := (List.nodup_append.mp hnodup).2.2
      refine ⟨fun hf => hrest.ordered (hswept.ordered hf), hrest.same.trans hswept.same,
        fun k hk => ?_, ?_⟩
      · rw [hkeys, List.mem_append, not_or] at hk
        rw [hrest.untouched k hk.2, hswept.untouched k hk.1]
      · rw [hkeys, List.forall_mem_append, hrest.settled, Affords, ← hswept.settled]
        refine and_congr_left fun _ => forall₂_congr fun k hk => ?_
        rw [hrest.untouched k fun hk' => hdisjoint k hk k hk' rfl]

/-- A pass completes after at most one command more than there are keys.  It leaves nothing
superseded exactly when every command could remove all that was superseded among the keys it
examined, and the empty key, which no command examines, had nothing superseded. -/
theorem gc_pass_complete {f : FSM} {w : Nat} {es : List Advance} (hordered : f.store.Ordered)
    (hcursor : f.gcCursor = []) (hmark : f.gcWatermark ≤ w) (h : Fresh f w es) :
    (f.store.chains.keys.length < es.length →
      ∃ pass rest f', es = pass ++ rest ∧ Pass f pass f') ∧
    ∀ pass rest f', es = pass ++ rest → Pass f pass f' →
      ((∀ key, ¬HasSuperseded (f'.store.chain key) w) ↔
        Affords w f pass ∧ ¬HasSuperseded (f.store.chain []) w) := by
  refine ⟨fun hlen => exists_pass h hmark ((List.length_filter_le _ _).trans_lt hlen), ?_⟩
  rintro pass rest f' rfl hpass
  have hcleaned := hpass.cleaned h hmark
  have hempty : f'.store.chain [] = f.store.chain [] :=
    hcleaned.untouched [] fun hmem => by simpa [hcursor] using (List.mem_filter.mp hmem).2
  rw [← hcleaned.settled, ← hempty]
  constructor
  · intro hnone
    exact ⟨fun k _ => (superseded_eq_zero_iff (hcleaned.ordered hordered k)).mpr (hnone k),
      hnone []⟩
  · rintro ⟨hsettled, hnil⟩ key
    by_cases hkey : key = []
    · exact hkey ▸ hnil
    · rw [← superseded_eq_zero_iff (hcleaned.ordered hordered key)]
      by_cases hmem : key ∈ f.store.chains.keys
      · refine hsettled key (List.mem_filter.mpr ⟨hmem, ?_⟩)
        rw [hcursor]
        cases key with
        | nil => exact absurd rfl hkey
        | cons b key => exact decide_eq_true (List.nil_lt_cons b key)
      · rw [← hcleaned.same, SortedMap.mem_keys_iff] at hmem
        have hnone : f'.store.chain key = [] := by
          rw [Store.chain, Option.not_isSome_iff_eq_none.mp hmem]
          rfl
        rw [hnone]
        rfl

/-! ## Passes over one key -/

theorem ordered_of_entries {s : Store} (h : ∀ e ∈ s.chains.entries,
    e.2.Pairwise fun v v' : Version => v.commitSeq ≤ v'.commitSeq) : s.Ordered := by
  intro key
  cases hget : s.chains.get key with
  | none =>
    rw [Store.chain, hget]
    exact .nil
  | some chain =>
    rw [Store.chain, hget]
    exact h (key, chain) (s.chains.get_eq_some_iff.mp hget)

def writtenThrice (key : Bytes) : FSM :=
  [1, 2, 3].foldl (fun f i => f.handle (.commit i ⟨[.ofNat i], i, i - 1, [⟨key, some []⟩]⟩))
    (.new .new)

/-- A budget of one version leaves the second of three, and a pass never comes to the
empty key. -/
theorem gc_pass_leaves_superseded :
    (∃ es f', (writtenThrice [97]).store.Ordered ∧ (writtenThrice [97]).gcCursor = [] ∧
      (writtenThrice [97]).gcWatermark ≤ 3 ∧ Fresh (writtenThrice [97]) 3 es ∧
      Pass (writtenThrice [97]) es f' ∧ HasSuperseded (f'.store.chain [97]) 3) ∧
    ∃ es f', (writtenThrice []).store.Ordered ∧ (writtenThrice []).gcCursor = [] ∧
      (writtenThrice []).gcWatermark ≤ 3 ∧ Fresh (writtenThrice []) 3 es ∧
      Pass (writtenThrice []) es f' ∧ HasSuperseded (f'.store.chain []) 3 := by
  constructor
  · refine ⟨[(4, ⟨[9], 3, 1, 10⟩)], _, ordered_of_entries (by decide +kernel),
      by decide +kernel, by decide +kernel, ⟨?_, by decide⟩, .last (by decide +kernel),
      ⟨0, 1, ⟨2, some []⟩, ⟨3, some []⟩, by decide, by decide +kernel, by decide +kernel,
        by decide⟩⟩
    rintro e he
    rw [List.mem_singleton.mp he]
    exact ⟨rfl, by decide, by decide, by decide +kernel⟩
  · refine ⟨[(4, ⟨[9], 3, 10, 10⟩)], _, ordered_of_entries (by decide +kernel),
      by decide +kernel, by decide +kernel, ⟨?_, by decide⟩, .last (by decide +kernel),
      ⟨0, 1, ⟨1, some []⟩, ⟨2, some []⟩, by decide, by decide +kernel, by decide +kernel,
        by decide⟩⟩
    rintro e he
    rw [List.mem_singleton.mp he]
    exact ⟨rfl, by decide, by decide, by decide +kernel⟩

def sweeps : List Advance := [(4, ⟨[9], 3, 2, 1⟩), (5, ⟨[10], 3, 2, 1⟩)]

theorem gc_pass_complete_sweeps :
    ∃ pass rest f', sweeps = pass ++ rest ∧ Pass (writtenThrice [97]) pass f' ∧
      ∀ key, ¬HasSuperseded (f'.store.chain key) 3 := by
  have hfresh : Fresh (writtenThrice [97]) 3 sweeps := by
    refine ⟨fun e he => ?_, by decide⟩
    rcases List.mem_pair.mp he with rfl | rfl
    · exact ⟨rfl, by decide, by decide, by decide +kernel⟩
    · exact ⟨rfl, by decide, by decide, by decide +kernel⟩
  have hpass : Pass (writtenThrice [97]) sweeps _ :=
    .more (by decide +kernel) (.last (by decide +kernel))
  have hcomplete := gc_pass_complete (ordered_of_entries (by decide +kernel)) (by decide +kernel)
    (by decide +kernel) hfresh
  refine ⟨sweeps, [], _, rfl, hpass, (hcomplete.2 sweeps [] _ rfl hpass).mpr ⟨?_, ?_⟩⟩
  · decide +kernel
  · rintro ⟨i, j, v, v', -, hi, -⟩
    have hempty : (writtenThrice [97]).store.chain [] = [] := by decide +kernel
    rw [hempty] at hi
    cases hi

end ChronicleDB.Fsm
