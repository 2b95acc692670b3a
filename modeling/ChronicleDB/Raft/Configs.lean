import ChronicleDB.Raft.Replication

/-!
# The active configuration

A core keeps the newest configuration of its log, and the index of the entry that
established it, as the log changes.  This is always what the scan of `ConfigAt`
would find.
-/

namespace ChronicleDB.Raft

open Foundation List Option

def Message.Indexed (m : Message) : Prop :=
  match m.body with
  | .appendEntriesRequest prev _ entries _ =>
    ∀ k e, entries[k]? = some e → e.index = prev + k + 1
  | _ => True

namespace Core

def Tracks (c : Core) : Prop := (c.activeConfig, c.activeConfigIndex) = c.configAt c.lastIndex

/-! ## The scan -/

section Scan

variable {c c' : Core}

theorem loggedConfig_congr (hb : c'.snapshotIndex = c.snapshotIndex) {i : Nat}
    (hlog : ∀ j, c.snapshotIndex + j < i → c'.log[j]? = c.log[j]?) :
    c'.loggedConfig i = c.loggedConfig i := by
  induction i with
  | zero => rfl
  | succ i ih =>
    rw [loggedConfig, loggedConfig, hb]
    split
    · rfl
    case isFalse h =>
      rw [hlog (i - c.snapshotIndex) (by omega), ih fun j hj => hlog j (by omega)]

theorem loggedConfig_index {i : Nat} {r : Configuration × Nat} (h : c.loggedConfig i = some r) :
    c.snapshotIndex < r.2 ∧ r.2 ≤ i := by
  induction i with
  | zero => cases h
  | succ i ih =>
    rw [loggedConfig] at h
    split at h
    · cases h
    · split at h
      · cases h
        exact ⟨by dsimp only; omega, Nat.le_refl _⟩
      · have := ih h
        exact ⟨this.1, by omega⟩

theorem loggedConfig_of_establishes {i j : Nat} {e : Entry} (hj : c.snapshotIndex ≤ j) (hi : j < i)
    (he : c.log[j - c.snapshotIndex]? = some e) (hcfg : e.configuration? ≠ none) :
    ∃ r, c.loggedConfig i = some r ∧ j < r.2 := by
  induction i with
  | zero => omega
  | succ i ih =>
    rw [loggedConfig, if_neg (by omega)]
    split
    · exact ⟨_, rfl, hi⟩
    case h_2 hnone =>
      refine ih (Nat.lt_of_le_of_ne (Nat.le_of_lt_succ hi) fun hij => hcfg ?_)
      rw [← hij, he] at hnone
      exact hnone

theorem configAt_congr (hcfg : c'.cfg = c.cfg) (hboundary : SameBoundary c c') {i : Nat}
    (hlog : ∀ j, c.snapshotIndex + j < i → c'.log[j]? = c.log[j]?) :
    c'.configAt i = c.configAt i := by
  rw [configAt, configAt, loggedConfig_congr hboundary.1 hlog, hboundary.3, hboundary.4, hcfg]

theorem configAt_active (c : Core) (active : Configuration) (index i : Nat) :
    { c with activeConfig := active, activeConfigIndex := index }.configAt i = c.configAt i := by
  apply configAt_congr
  · rfl
  · exact ⟨rfl, rfl, rfl, rfl⟩
  · exact fun _ _ => rfl

theorem configAt_succ {i : Nat} {e : Entry} (hi : c.snapshotIndex ≤ i)
    (he : c.log[i - c.snapshotIndex]? = some e) :
    c.configAt (i + 1) = match e.configuration? with
      | some cfg => (cfg, i + 1)
      | none => c.configAt i := by
  rw [configAt, loggedConfig, if_neg (by omega), he]
  cases hcfg : e.configuration? with
  | some cfg => simp only [bind_some, hcfg]
  | none =>
    simp only [bind_some, hcfg]
    rfl

theorem configAt_index_eq_zero {i : Nat} :
    (c.configAt i).2 = 0 ↔ c.loggedConfig i = none := by
  rw [configAt]
  cases hr : c.loggedConfig i with
  | none =>
    simp only [iff_true]
    split
    · rfl
    · rfl
  | some r =>
    have := (loggedConfig_index hr).1
    simp only [reduceCtorEq, iff_false]
    omega

end Scan

/-! ## Steps that leave the log -/

theorem Tracks.congr {c c' : Core} (h : c.Tracks) (hlog : c'.log = c.log)
    (hboundary : SameBoundary c c') (hcfg : c'.cfg = c.cfg)
    (hactive : c'.activeConfig = c.activeConfig)
    (hindex : c'.activeConfigIndex = c.activeConfigIndex) : c'.Tracks := by
  rw [Tracks, hactive, hindex, lastIndex, hlog, hboundary.1,
    configAt_congr hcfg hboundary fun j _ => by rw [hlog]]
  exact h

theorem Tracks.lt_activeConfigIndex {c : Core} (h : c.Tracks) {j : Nat} {e : Entry}
    (hj : c.snapshotIndex ≤ j) (he : c.log[j - c.snapshotIndex]? = some e)
    (hcfg : e.configuration? ≠ none) : j < c.activeConfigIndex := by
  have hlt := (List.getElem?_eq_some_iff.mp he).1
  have hindex : c.activeConfigIndex = (c.configAt c.lastIndex).2 := congrArg Prod.snd h
  obtain ⟨r, hr, hlast⟩ := loggedConfig_of_establishes hj
    (show j < c.lastIndex by rw [lastIndex]; omega) he hcfg
  rw [hindex, configAt, hr]
  exact hlast

theorem Tracks.frame {c c' : Core} (h : c.Tracks) (hf : Frame c c') : c'.Tracks := by
  obtain ⟨⟨_, _, _, hc⟩, -⟩ := hf
  rw [hc]
  exact h.congr rfl ⟨rfl, rfl, rfl, rfl⟩ rfl rfl rfl

/-! ## Steps that change the log -/

theorem Tracks.append {c c' : Core} {e : Entry} (h : c.Tracks) (hlog : c'.log = c.log ++ [e])
    (hboundary : SameBoundary c c') (hcfg : c'.cfg = c.cfg) (hindex : e.index = c.lastIndex + 1)
    (hactive : (c'.activeConfig, c'.activeConfigIndex) = match e.configuration? with
      | some cfg => (cfg, e.index)
      | none => (c.activeConfig, c.activeConfigIndex)) : c'.Tracks := by
  have hlast : c'.lastIndex = c.lastIndex + 1 := by
    rw [lastIndex, lastIndex, hlog, hboundary.1, length_append]
    rfl
  have hold : c'.configAt c.lastIndex = c.configAt c.lastIndex := by
    refine configAt_congr hcfg hboundary fun j hj => ?_
    rw [lastIndex] at hj
    rw [hlog, getElem?_append_left (by omega)]
  have hentry : c'.log[c.lastIndex - c'.snapshotIndex]? = some e := by
    rw [hlog, hboundary.1, lastIndex, Nat.add_sub_cancel_left]
    simp
  rw [Tracks, hlast, configAt_succ (by rw [hboundary.1]; exact Nat.le_add_right _ _) hentry, hactive,
    hold, hindex, ← h]

theorem activateFromAppendedEntries_tracks {c c' : Core} {pre es : List Entry}
    (hlog : c.log = pre ++ es)
    (hactive : (c.activeConfig, c.activeConfigIndex) = c.configAt (c.snapshotIndex + pre.length))
    (hes : ∀ k e, es[k]? = some e → e.index = c.snapshotIndex + pre.length + k + 1)
    (hc' : c.activateFromAppendedEntries es = .ok c') : c'.Tracks := by
  induction es generalizing c pre with
  | nil =>
    cases hc'
    rw [Tracks, lastIndex, hlog, append_nil]
    exact hactive
  | cons e es ih =>
    have hnext := @configAt_succ c (c.snapshotIndex + pre.length) e (by omega)
      (by rw [hlog, Nat.add_sub_cancel_left]; simp)
    have hindex : e.index = c.snapshotIndex + pre.length + 1 := hes 0 e rfl
    have hlog' : c.log = (pre ++ [e]) ++ es := by rw [hlog, append_assoc]; rfl
    have hlen : c.snapshotIndex + (pre ++ [e]).length = c.snapshotIndex + pre.length + 1 := by
      rw [length_append]
      rfl
    have hes' : ∀ k e', es[k]? = some e' →
        e'.index = c.snapshotIndex + (pre ++ [e]).length + k + 1 := by
      intro k e' hk
      have := hes (k + 1) e' hk
      omega
    -- an entry without a configuration leaves what is cached
    have hskip : e.configuration? = none → c.activateFromAppendedEntries es = .ok c' →
        c'.Tracks := by
      intro hnone hrest
      refine ih hlog' ?_ hes' hrest
      rw [hlen, hnext, hnone]
      exact hactive
    rw [activateFromAppendedEntries] at hc'
    split at hc'
    case h_1 htype => exact hskip (by rw [Entry.configuration?, htype]) hc'
    case h_2 htype =>
      split at hc'
      · cases hc'
      case h_2 change hdecode =>
        have hcfg : e.configuration? = change.cfg := by
          rw [Entry.configuration?, htype]
          simp only [hdecode]
        split at hc'
        case h_1 hnone => exact hskip (hcfg.trans hnone) hc'
        case h_2 cfg hsome =>
          split at hc'
          · cases hc'
          · refine @ih { c with activeConfig := cfg, activeConfigIndex := e.index } _ hlog' ?_
              hes' hc'
            rw [configAt_active]
            change (cfg, e.index) = c.configAt (c.snapshotIndex + (pre ++ [e]).length)
            rw [hlen, hnext, hcfg, hsome, hindex]

theorem appendScanned_tracks {c c' : Core} (h : c.Tracks) {first : Nat} {entries : List Entry}
    {truncateFrom : Option Nat} {new kept : List Entry}
    (hscan : c.Scanned first entries truncateFrom new kept) (hfirst : first ≤ c.lastIndex + 1)
    (hentries : ∀ k e, entries[k]? = some e → e.index = first + k)
    (hc' : c.appendScanned truncateFrom new = .ok c') : c'.Tracks := by
  unfold appendScanned at hc'
  split at hc'
  case h_1 idx =>
    cases hc'
    rw [Tracks, configAt_active]
    rfl
  case h_2 =>
    refine @activateFromAppendedEntries_tracks _ _ c.log _ rfl ?_ (fun k e hk => ?_) hc'
    · refine Eq.trans h (Eq.symm ?_)
      apply configAt_congr
      · rfl
      · exact ⟨rfl, rfl, rfl, rfl⟩
      · intro j hj
        dsimp only at hj
        exact getElem?_append_left (by omega)
    · have hne : new ≠ [] := by
        rintro rfl
        cases hk
      have hfresh := hscan.fresh hne rfl
      have hwithin : first + kept.length ≤ c.lastIndex + 1 := by
        by_cases hnil : kept = []
        · rw [hnil]
          exact hfirst
        · exact hscan.within hnil
      have hindex := hentries (kept.length + k) e (by
        rw [hscan.parts, getElem?_append_right (by omega)]
        simpa using hk)
      have hlast : c.lastIndex = c.snapshotIndex + c.log.length := rfl
      dsimp only
      omega

theorem tracks_of_empty {c : Core} (hlog : c.log = []) (hindex : c.activeConfigIndex = 0)
    (hactive : c.activeConfig =
      if c.snapshotHasConfig then c.snapshotConfig else c.cfg.bootstrap) : c.Tracks := by
  have hnone : c.loggedConfig c.lastIndex = none := by
    cases hlast : c.lastIndex with
    | zero => rfl
    | succ i =>
      rw [lastIndex, hlog, length_nil, Nat.add_zero] at hlast
      rw [loggedConfig, if_pos (by omega)]
  rw [Tracks, configAt, hnone, hactive, hindex]
  cases c.snapshotHasConfig with
  | false => rfl
  | true => rfl

theorem Outcome.tracks {c c' : Core} {input : Input} {out : Output} (ho : c.Outcome input c' out)
    (hmsg : ∀ msg, input = .message msg → msg.Indexed) (h : c.Tracks) : c'.Tracks := by
  cases ho with
  | ignore => exact h
  | append _ core activates =>
    subst core
    exact h.append rfl ⟨rfl, rfl, rfl, rfl⟩ rfl rfl activates
  | record _ _ _ frame => exact h.frame frame
  | @store msg prev entries _ _ _ _ _ _ c₁ accepts _ appends =>
    have hentries := hmsg msg rfl
    rw [Message.Indexed, accepts.body] at hentries
    obtain ⟨kept, hkept⟩ := scanEntries_spec accepts.scan
    have hrecognized : (c.recognized msg).Tracks := h.congr rfl ⟨rfl, rfl, rfl, rfl⟩ rfl rfl rfl
    have hscanned : (c.recognized msg).Scanned (prev + 1) entries _ _ kept :=
      ⟨hkept.parts, hkept.within, hkept.terms, hkept.unchanged, hkept.fresh, hkept.conflict⟩
    have h₁ : c₁.Tracks := appendScanned_tracks hrecognized hscanned (Nat.succ_le_succ accepts.within)
      (fun k e hk => by rw [hentries k e hk]; omega) appends
    exact h₁.congr rfl ⟨rfl, rfl, rfl, rfl⟩ rfl rfl rfl
  | install => exact tracks_of_empty rfl rfl rfl
  | _ => exact h.congr rfl ⟨rfl, rfl, rfl, rfl⟩ rfl rfl rfl

theorem newCoreFromSnapshot_tracks {cfg : Config} {hs : HardState} {index term : Nat}
    {snapshotConfig : Configuration} {hasConfig : Bool} {entries : List Entry} {c : Core}
    (h : newCoreFromSnapshot cfg hs index term snapshotConfig hasConfig entries = some c) :
    c.Tracks := by
  unfold newCoreFromSnapshot at h
  split at h
  · cases h
  · cases h
    rw [Tracks, configAt_active]
    rfl

/-! ## Compaction -/

section Compact

variable {c c' : Core} {u : Nat}

theorem compact_eq (hc : c.compact u = some c') :
    c.snapshotIndex < u ∧ c' = { c with
      log := c.log.drop (u - c.snapshotIndex), snapshotIndex := u
      snapshotTerm := c.termAt u, snapshotConfig := (c.configAt u).1, snapshotHasConfig := true
      activeConfigIndex := if c.activeConfigIndex ≤ u then 0 else c.activeConfigIndex } := by
  unfold compact at hc
  split at hc
  · cases hc
  · cases hc
    exact ⟨by omega, rfl⟩

theorem loggedConfig_compact (hc : c.compact u = some c') (k : Nat) :
    c.loggedConfig (u + k) = (c'.loggedConfig (u + k)).or (c.loggedConfig u) := by
  obtain ⟨habove, hc'⟩ := compact_eq hc
  have hindex : c'.snapshotIndex = u := by rw [hc']
  have hlog : c'.log = c.log.drop (u - c.snapshotIndex) := by rw [hc']
  clear hc'
  induction k with
  | zero =>
    have hnone : c'.loggedConfig u = none := by
      cases u with
      | zero => rfl
      | succ u => rw [loggedConfig, if_pos (by omega)]
    rw [Nat.add_zero, hnone, none_or]
  | succ k ih =>
    rw [← Nat.add_assoc, loggedConfig, if_neg (by omega), loggedConfig, if_neg (by omega), hlog,
      hindex, getElem?_drop,
      show u - c.snapshotIndex + (u + k - u) = u + k - c.snapshotIndex by omega]
    cases (c.log[u + k - c.snapshotIndex]?).bind Entry.configuration? with
    | some cfg => rfl
    | none => exact ih

/-- Compaction keeps the configurations from its index on; those that entries up to it
established now come from the boundary. -/
theorem configAt_compact (hc : c.compact u = some c') {i : Nat} (hi : u ≤ i) :
    c'.configAt i =
      ((c.configAt i).1, if (c.configAt i).2 ≤ u then 0 else (c.configAt i).2) := by
  obtain ⟨k, rfl⟩ := Nat.exists_eq_add_of_le hi
  have hlogged := loggedConfig_compact hc k
  obtain ⟨-, hc'⟩ := compact_eq hc
  have hindex : c'.snapshotIndex = u := by rw [hc']
  have hhas : c'.snapshotHasConfig = true := by rw [hc']
  have hconfig : c'.snapshotConfig = (c.configAt u).1 := by rw [hc']
  cases hnew : c'.loggedConfig (u + k) with
  | some r =>
    have hr := (loggedConfig_index hnew).1
    rw [hnew, some_or] at hlogged
    rw [configAt, hnew, configAt, hlogged]
    dsimp only
    rw [if_neg (by omega)]
  | none =>
    rw [hnew, none_or] at hlogged
    have hsame : c.configAt (u + k) = c.configAt u := by rw [configAt, configAt, hlogged]
    have hle : (c.configAt u).2 ≤ u := by
      rw [configAt]
      cases hold : c.loggedConfig u with
      | some r => exact (loggedConfig_index hold).2
      | none =>
        dsimp only
        split
        · exact Nat.zero_le u
        · exact Nat.zero_le u
    rw [hsame, if_pos hle, configAt, hnew]
    dsimp only
    rw [if_pos hhas, hconfig]

theorem Tracks.compact (h : c.Tracks) (hc : c.compact u = some c') (hu : u ≤ c.lastIndex) :
    c'.Tracks := by
  have hconfig := configAt_compact hc hu
  obtain ⟨habove, hc'⟩ := compact_eq hc
  have hlast : c'.lastIndex = c.lastIndex := by
    rw [lastIndex] at hu ⊢
    rw [hc', lastIndex]
    simp only [length_drop]
    omega
  have hactive : c'.activeConfig = c.activeConfig := by rw [hc']
  have hindex : c'.activeConfigIndex =
      if c.activeConfigIndex ≤ u then 0 else c.activeConfigIndex := by rw [hc']
  rw [Tracks, hactive, hindex, hlast, hconfig, ← h]

end Compact

end Core

end ChronicleDB.Raft
