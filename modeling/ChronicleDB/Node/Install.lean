import ChronicleDB.Node.Advance

/-!
# Installing a peer's snapshot

`WALStorage.InstallSnapshot` writes the pointer, repeats the hard state,
truncates the log behind the boundary and deletes the segments before it.  When
the log reaches past the boundary the truncation takes the new pointer with it,
and when the hard state opens a segment of its own the deletion does.
-/

namespace ChronicleDB.Node

open Foundation Raft Wal List Layout

/-- Installing a snapshot at `uptoIndex` returns with the new boundary in the
mirror and on disk, and a crash on the way leaves the old state or the new one. -/
def InstallSafe (s : WALStorage) (uptoIndex : Nat) : Prop :=
  ∃ ops s', s.installSnapshot uptoIndex = .ok (ops, s') ∧
    s'.state = (s.hs, uptoIndex, []) ∧
    ReopensTo s'.w.dir s.w.segmentMaxSize (s.hs, uptoIndex, []) ∧
    ∀ d ∈ crashImages applyOp s.w.dir ops,
      ReopensTo d s.w.segmentMaxSize s.state ∨
        ReopensTo d s.w.segmentMaxSize (s.hs, uptoIndex, [])

section Install

variable {s : WALStorage} {L : Layout} {u : Nat}

theorem reaffirm_eq {w : WAL} {M : Layout} (h : LaidOut w M) (hfits : HardStateFits s.hs) :
    ({ s with w := w } : WALStorage).reaffirm =
      .ok (reaffirmOps w s.hs, { s with w := synced (reaffirmed w s.hs) }) := by
  rw [WALStorage.reaffirm, setHardState_eq h hfits]
  rfl

theorem installSnapshot_eq (h : Mirrors s L) (hu : s.baseIndex ≤ u) (hlt : u < 2 ^ 64) :
    s.installSnapshot u =
      match (advanced s.w u s.hs).truncate (u + 1) with
      | .error e => .error (.wal e)
      | .ok (truncateOps, w) =>
        match w.compactBefore u with
        | .error e => .error (.wal e)
        | .ok (compactOps, w) =>
          .ok (pointerOps s.w u ++ (reaffirmOps (synced (pointed s.w u)) s.hs ++
            (truncateOps ++ compactOps)),
            { s with w := w, entries := [], baseIndex := u }) := by
  rw [← h.base] at hu
  have hlaid : LaidOut (synced (pointed s.w u)) _ :=
    (h.toBacks.pointed hu hlt).sync.coherent.toLaidOut
  rw [WALStorage.installSnapshot, appendMetadataSnapshot_eq h.coherent hu hlt]
  simp only [reaffirm_eq (s := s) hlaid h.hardFits]
  rfl

theorem advanced_newest (h : Mirrors s L) (hu : s.w.metadata.latestSnapshotIndex ≤ u)
    (hlt : u < 2 ^ 64) {S : Layout} (hS : S <:+ advancedLayout s.w L u s.hs)
    (hlen : pairSegments s.w u s.hs ≤ S.length) :
    lastMetadata S.items = some (advanced s.w u s.hs).metadata ∧
      lastHardState S.items = (advanced s.w u s.hs).latestHardState := by
  obtain ⟨pre, hitems⟩ := advancedLayout_newest h.coherent hu hlt hS hlen
  rw [hitems]
  constructor
  · rw [lastMetadata_append]
    rfl
  · rw [lastHardState_append]
    rfl

theorem advanced_dir (w : WAL) (u : Nat) (hs : HardState) :
    (advanced w u hs).dir = perform applyOp w.dir
      (pointerOps w u ++ reaffirmOps (synced (pointed w u)) hs) := by
  rw [pointerOps, reaffirmOps, perform_append, perform_append, perform_append]
  rfl

/-- Once the pointer covers the whole log, no segment starts past it. -/
theorem Backs.compacts_all {w : WAL} {P Q : Layout} {q : Nat × List Item} {hs : HardState}
    {es : List Entry} (h : Backs w (P ++ q :: Q) hs es)
    (hnext : w.nextLogIndex ≤ w.metadata.latestSnapshotIndex + 1)
    (hQ : ∀ q' ∈ Q.head?, w.metadata.latestSnapshotIndex < q'.1 - 1) : Q = [] := by
  match Q with
  | [] => rfl
  | q' :: Q =>
    have hfar := hQ q' rfl
    have hsplit : P ++ q :: q' :: Q = (P ++ [q]) ++ q' :: Q := by simp
    rcases h.ordered.anchored (P ++ [q]) q' Q hsplit with hid | hid
    · omega
    · have hmem : q'.1 - 1 ∈ logIndices (items (P ++ q :: q' :: Q)) := by
        rw [hsplit, items_append, logIndices_append]
        exact mem_append_left _ hid
      have := h.coherent.below _ hmem
      omega

/-- The log ends at or before the boundary: only the counter moves, and every
segment but the last is deleted. -/
private theorem install_short (h : Mirrors s L) (hu : s.baseIndex ≤ u) (hlt : u < 2 ^ 64)
    (hlast : s.lastIndex ≤ u) :
    ∃ P q, advancedLayout s.w L u s.hs = P ++ [q] ∧
      (P ≠ [] → q.1 - 1 ≤ u) ∧
      Backs { advanced s.w u s.hs with nextLogIndex := u + 1 } (P ++ [q]) s.hs [] ∧
      s.installSnapshot u = .ok
        (pointerOps s.w u ++ (reaffirmOps (synced (pointed s.w u)) s.hs ++ compactOps P 0), { s with
            w := { advanced s.w u s.hs with nextLogIndex := u + 1 }.perform (compactOps P 0)
            entries := []
            baseIndex := u }) := by
  have hb := h.base
  have hnext := h.next
  have hback := h.toBacks.advanced (hb ▸ hu) hlt
  have hnil : s.entries.drop (u - s.w.metadata.latestSnapshotIndex) = [] := by
    rw [drop_eq_nil_iff, hb]
    simp only [WALStorage.lastIndex] at hlast
    omega
  rw [hnil] at hback
  have hjump := hback.coherent.truncate_past
    (show (advanced s.w u s.hs).nextLogIndex ≤ u + 1 by
      change s.w.nextLogIndex ≤ u + 1
      omega)
    (fun _ => le_rfl)
  have hback' : Backs { advanced s.w u s.hs with nextLogIndex := u + 1 }
      (advancedLayout s.w L u s.hs) s.hs [] := { hback with coherent := hjump }
  obtain ⟨P, q, Q, hsplit, hq, hQ, hcompact⟩ := compact_eq hjump.toLaidOut u 0
  have hQnil : Q = [] := (hsplit ▸ hback').compacts_all le_rfl hQ
  subst hQnil
  refine ⟨P, q, hsplit, hq, hsplit ▸ hback', ?_⟩
  have htruncate : (advanced s.w u s.hs).truncate (u + 1) =
      .ok ([], { advanced s.w u s.hs with nextLogIndex := u + 1 }) := by
    rw [WAL.truncate, if_neg (by omega), if_pos]
    change s.w.nextLogIndex ≤ u + 1
    omega
  simp only [installSnapshot_eq h hu hlt, htruncate, WAL.compactBefore]
  simp only [Nat.cast_zero] at hcompact
  simp only [hcompact, nil_append]

/-- The log reaches past the boundary: the truncation cuts in front of the
record after the boundary, and with it the new pointer. -/
private theorem install_long (h : Mirrors s L) (hu : s.baseIndex < u) (hlt : u < 2 ^ 64)
    (hlast : u < s.lastIndex) :
    ∃ ops s' M, s.installSnapshot u = .ok (ops, s') ∧ Holds s'.w.dir M ∧
      ∀ m, Item.metadata m ∈ M.items → m.latestSnapshotIndex ≤ s.baseIndex := by
  have hb := h.base
  have hnext := h.next
  have hback := h.toBacks.advanced (hb ▸ hu.le) hlt
  have hitems : (advancedLayout s.w L u s.hs).items =
      L.items ++ [pointerItem s.w u, hardStateItem s.hs] := by
    have hlaid : LaidOut (synced (pointed s.w u)) _ :=
      (h.toBacks.pointed (hb ▸ hu.le) hlt).sync.coherent.toLaidOut
    rw [advancedLayout, hlaid.items_appended, h.coherent.items_appended]
    simp
  have hmem : u + 1 ∈ logIndices (advancedLayout s.w L u s.hs).items := by
    refine mem_of_mem_filter
      (p := ((advanced s.w u s.hs).metadata.latestSnapshotIndex < ·)) ?_
    rw [hback.coherent.live, mem_range'_1]
    change u + 1 ≤ u + 1 ∧ u + 1 < u + 1 + (s.w.nextLogIndex - (u + 1))
    omega
  obtain ⟨A, t, pre, p, post, B, hL, hpre, -⟩ :=
    exists_target hmem hback.coherent.increasing
  have hfresh : u + 1 ∉ logIndices (A.items ++ pre) := fun hc => lt_irrefl _ (hpre _ hc)
  simp only [logIndices_append, mem_append, not_or] at hfresh
  rw [hL] at hback
  have htruncate := truncate_eq hback.coherent.toLaidOut (by omega)
    (show u + 1 < (advanced s.w u s.hs).nextLogIndex by
      change u + 1 < s.w.nextLogIndex
      omega) hfresh.1 hfresh.2
  obtain ⟨P, q, Q, hsplit, -, -, hcompact⟩ := compact_eq hback.coherent.toLaidOut.truncate u 0
  have hfinal := ((hsplit ▸ hback.coherent.toLaidOut.truncate).toHolds.compact
    (cons_ne_nil q Q) 0).2
  set w' : WAL := { (advanced s.w u s.hs).perform (truncateOps B t pre) with
    current := t, nextLogIndex := u + 1 }
  refine ⟨pointerOps s.w u ++ (reaffirmOps (synced (pointed s.w u)) s.hs ++
      (truncateOps B t pre ++ compactOps P 0)),
    { s with w := w'.perform (compactOps P 0), entries := [], baseIndex := u }, _,
    ?_, hfinal, fun m hm => ?_⟩
  · simp only [installSnapshot_eq h hu.le hlt, htruncate, WAL.compactBefore]
    simp only [Nat.cast_zero] at hcompact
    simp only [hcompact]
  · -- what is left was there before the call
    rw [hL, items_target] at hitems
    have hcut : Item.metadata m ∈ A.items ++ pre := by
      have hsub : Item.metadata m ∈ items (P ++ q :: Q) := by
        simp only [Nat.sub_zero, drop_length, nil_append] at hm
        rw [items_append]
        exact mem_append_right _ hm
      rw [← hsplit] at hsub
      simpa using hsub
    rw [← hb]
    refine h.ordered.pointers m ?_
    rcases append_eq_append_iff.mp hitems with ⟨X, hX, -⟩ | ⟨X, hX, hrest⟩
    · rw [hX]
      exact mem_append_left _ hcut
    · rcases X with _ | ⟨x, _ | ⟨y, X⟩⟩
      · simpa [hX] using hcut
      · simp [pointerItem, hardStateItem] at hrest
      · simp at hrest

theorem Mirrors.installSnapshot (h : Mirrors s L) (hu : s.baseIndex ≤ u)
    (hlt : u < 2 ^ 64) (hlast : s.lastIndex ≤ u) (hsep : ¬Separates s.w u s.hs) :
    ∃ ops s', s.installSnapshot u = .ok (ops, s') ∧ s'.state = (s.hs, u, []) ∧
      s'.w.segmentMaxSize = s.w.segmentMaxSize ∧
      s'.w.dir = perform applyOp s.w.dir ops ∧ (∃ M, Mirrors s' M) ∧
      ∀ d ∈ crashImages applyOp s.w.dir ops,
        (∃ M, Readable d M s.w.metadata s.hs s.entries) ∨
          ∃ M, Readable d M { s.w.metadata with latestSnapshotIndex := u } s.hs [] := by
  have hb := h.base
  obtain ⟨P, q, hsplit, hq, hback, heq⟩ := install_short h hu hlt hlast
  obtain ⟨himages, M, hfinal⟩ := hback.compact 1 0
    (fun S hS hlen => advanced_newest h (hb ▸ hu) hlt (hsplit ▸ hS)
      (by rwa [pairSegments, if_neg hsep])) hq (by simp)
  refine ⟨_, _, heq, rfl, rfl, ?_, ⟨M, hfinal, rfl, rfl⟩, fun d hd => ?_⟩
  · rw [← append_assoc, perform_append, ← advanced_dir]
    rfl
  rw [← append_assoc, mem_crashImages_append, ← advanced_dir] at hd
  rcases hd with hd | hd
  · have hnil : s.entries.drop (u - s.w.metadata.latestSnapshotIndex) = [] := by
      rw [drop_eq_nil_iff, hb]
      simp only [WALStorage.lastIndex] at hlast
      omega
    have := h.toBacks.advance_image (hb ▸ hu) hlt hd
    rwa [hnil] at this
  · exact .inr (himages d hd)

theorem Mirrors.installSafe_iff (h : Mirrors s L) (hu : s.baseIndex < u)
    (hlt : u < 2 ^ 64) :
    InstallSafe s u ↔ s.lastIndex ≤ u ∧ ¬Separates s.w u s.hs := by
  have hb := h.base
  constructor
  · rintro ⟨ops, s', hinstall, -, hreopen, -⟩
    by_contra hbad
    by_cases hlast : s.lastIndex ≤ u
    · -- the surviving segment holds the hard state alone
      have hsep : Separates s.w u s.hs := by tauto
      obtain ⟨P, q, hsplit, -, hback, heq⟩ := install_short h hu.le hlt hlast
      rw [advancedLayout_apart h.coherent (hb ▸ hu.le) hlt hsep] at hsplit
      obtain ⟨rfl, hq⟩ := append_inj' hsplit rfl
      obtain rfl : (s.w.nextLogIndex, [hardStateItem s.hs]) = q := by simpa using hq
      rw [heq, Except.ok.injEq, Prod.mk.injEq] at hinstall
      obtain ⟨-, rfl⟩ := hinstall
      have hfinal := (hback.coherent.toHolds.compact (cons_ne_nil _ _) 0).2
      obtain ⟨m, hm, -⟩ := hreopen.consistent hfinal
      simp [hardStateItem, lastMetadata, Item.metadata?] at hm
    · obtain ⟨ops', s'', M, heq, hM, hold⟩ := install_long h hu hlt (by omega)
      rw [heq, Except.ok.injEq, Prod.mk.injEq] at hinstall
      obtain ⟨-, rfl⟩ := hinstall
      obtain ⟨m, hm, hpointer⟩ := hreopen.consistent hM
      obtain ⟨it, hit, hitm⟩ := mem_filterMap.mp (mem_of_getLast? hm)
      have : it = .metadata m := by
        cases it <;> simp_all [Item.metadata?]
      have := hold m (this ▸ hit)
      simp only at hpointer
      omega
  · rintro ⟨hlast, hsep⟩
    obtain ⟨ops, s', heq, hstate, hsize, -, ⟨M, hM⟩, himages⟩ :=
      h.installSnapshot hu.le hlt hlast hsep
    refine ⟨ops, s', heq, hstate, ?_, fun d hd => ?_⟩
    · rw [← hstate, ← hsize]
      exact hM.reopens
    · rcases himages d hd with ⟨M, hM⟩ | ⟨M, hM⟩
      · refine .inl ?_
        have := hM.reopens h.coherent.sized
        rwa [hb] at this
      · exact .inr (hM.reopens h.coherent.sized)

end Install

end ChronicleDB.Node
