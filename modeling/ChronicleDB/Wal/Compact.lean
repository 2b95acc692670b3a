import ChronicleDB.Wal.Truncate

/-!
# Compaction of the write-ahead log

`CompactBeforeRetaining` deletes segments by their ids alone.  That is right
because a segment holds no log index at or past the id of a later segment; the
layouts with this property are kept by every call.
-/

namespace ChronicleDB.Wal

open Foundation List Layout

/-! ## Layouts in which ids bound the indices of earlier segments -/

/-- No log index reaches the id of a later segment, no metadata record points
past `pointer`, and each segment above `pointer` starts right after a log index
that lies before it. -/
structure Ordered (L : Layout) (pointer : Nat) : Prop where
  spans : L.Pairwise fun p q => ∀ i ∈ logIndices p.2, i < q.1
  pointers : ∀ m, Item.metadata m ∈ L.items → m.latestSnapshotIndex ≤ pointer
  anchored : ∀ (A : Layout) (p : Nat × List Item) (B : Layout), L = A ++ p :: B →
    p.1 ≤ pointer + 1 ∨ p.1 - 1 ∈ logIndices A.items

namespace Ordered

variable {w : WAL} {L : Layout} {pointer : Nat}

theorem mem_logIndices_items {p : Nat × List Item} {i : Nat} (hp : p ∈ L)
    (hi : i ∈ logIndices p.2) : i ∈ logIndices L.items := by
  obtain ⟨it, hit, hidx⟩ := mem_filterMap.mp hi
  exact mem_filterMap.mpr ⟨it, mem_flatMap.mpr ⟨p, hp, hit⟩, hidx⟩

theorem create (h : Ordered L pointer) {next : Nat}
    (hbelow : ∀ i ∈ logIndices L.items, i < next)
    (hnext : next ≤ pointer + 1 ∨ next - 1 ∈ logIndices L.items) :
    Ordered (L ++ [(next, [])]) pointer where
  spans := by
    refine pairwise_append.mpr ⟨h.spans, by simp, fun p hp q hq i hi => ?_⟩
    obtain rfl := mem_singleton.mp hq
    exact hbelow i (mem_logIndices_items hp hi)
  pointers := by simpa using h.pointers
  anchored := by
    intro A p B hsplit
    rcases eq_nil_or_concat' B with rfl | ⟨B, q, rfl⟩
    · obtain ⟨rfl, hp⟩ := append_inj' hsplit rfl
      obtain rfl : (next, []) = p := by simpa using hp
      exact hnext
    · rw [← cons_append, ← append_assoc] at hsplit
      exact h.anchored A p B (append_inj' hsplit rfl).1

theorem push {A : Layout} {c : Nat} {its : List Item} {it : Item}
    (h : Ordered (A ++ [(c, its)]) pointer)
    (hit : ∀ m, it = .metadata m → m.latestSnapshotIndex ≤ pointer) :
    Ordered (A ++ [(c, its ++ [it])]) pointer where
  spans := by
    have := pairwise_append.mp h.spans
    refine pairwise_append.mpr ⟨this.1, by simp, fun p hp q hq => ?_⟩
    obtain rfl := mem_singleton.mp hq
    exact this.2.2 p hp (c, its) (by simp)
  pointers := by
    intro m hm
    simp only [items_append, items_cons, items_nil, append_nil,
      mem_append, mem_singleton] at hm
    rcases hm with hm | hm | hm
    · exact h.pointers m (by simp [hm])
    · exact h.pointers m (by simp [hm])
    · exact hit m hm.symm
  anchored := by
    intro A' p B hsplit
    rcases eq_nil_or_concat' B with rfl | ⟨B, q, rfl⟩
    · obtain ⟨rfl, hp⟩ := append_inj' hsplit rfl
      obtain rfl : (c, its ++ [it]) = p := by simpa using hp
      exact h.anchored A (c, its) [] rfl
    · rw [← cons_append, ← append_assoc] at hsplit
      obtain ⟨rfl, -⟩ := append_inj' hsplit rfl
      exact h.anchored A' p (B ++ [(c, its)]) (by simp)

theorem mono (h : Ordered L pointer) {pointer' : Nat} (hle : pointer ≤ pointer') :
    Ordered L pointer' where
  spans := h.spans
  pointers m hm := (h.pointers m hm).trans hle
  anchored A p B hsplit := (h.anchored A p B hsplit).imp_left fun hp => by omega

theorem appended (h : Ordered L pointer) (hlaid : LaidOut w L)
    (hbelow : ∀ i ∈ logIndices L.items, i < w.nextLogIndex)
    (hnext : w.nextLogIndex ≤ pointer + 1 ∨ w.nextLogIndex - 1 ∈ logIndices L.items)
    {it : Item} (hit : ∀ m, it = .metadata m → m.latestSnapshotIndex ≤ pointer) :
    Ordered (w.appended L it) pointer := by
  rw [WAL.appended]
  split
  · exact (h.create hbelow hnext).push hit
  · obtain ⟨A, its, rfl, -⟩ := hlaid.split
    rw [push_concat]
    exact h.push hit

theorem front {M N : Layout} (h : Ordered (M ++ N) pointer) : Ordered M pointer where
  spans := (pairwise_append.mp h.spans).1
  pointers m hm := h.pointers m (by simp [hm])
  anchored A p B hsplit := h.anchored A p (B ++ N) (by simp [hsplit])

theorem back {M N : Layout} (h : Ordered (M ++ N) pointer)
    (hM : ∀ i ∈ logIndices M.items, i ≤ pointer) : Ordered N pointer where
  spans := (pairwise_append.mp h.spans).2.1
  pointers m hm := h.pointers m (by simp [hm])
  anchored A p B hsplit := by
    rcases h.anchored (M ++ A) p B (by simp [hsplit]) with hp | hp
    · exact .inl hp
    · rw [items_append, logIndices_append, mem_append] at hp
      rcases hp with hp | hp
      · have := hM _ hp
        omega
      · exact .inr hp

theorem cut {A B : Layout} {t : Nat} {pre post : List Item}
    (h : Ordered (A ++ (t, pre ++ post) :: B) pointer) :
    Ordered (A ++ [(t, pre)]) pointer where
  spans := by
    have := pairwise_append.mp h.spans
    refine pairwise_append.mpr ⟨this.1, by simp, fun p hp q hq => ?_⟩
    obtain rfl := mem_singleton.mp hq
    exact this.2.2 p hp (t, pre ++ post) mem_cons_self
  pointers := fun m hm => h.pointers m (by simp at hm ⊢; tauto)
  anchored := by
    intro A' p B' hsplit
    rcases eq_nil_or_concat' B' with rfl | ⟨B', q, rfl⟩
    · obtain ⟨rfl, hp⟩ := append_inj' hsplit rfl
      obtain rfl : (t, pre) = p := by simpa using hp
      exact h.anchored A (t, pre ++ post) B rfl
    · rw [← cons_append, ← append_assoc] at hsplit
      obtain ⟨rfl, -⟩ := append_inj' hsplit rfl
      exact h.anchored A' p (B' ++ (t, pre ++ post) :: B) (by simp)

end Ordered

theorem Coherent.next_anchored {w : WAL} {L : Layout} (h : Coherent w L) :
    w.nextLogIndex ≤ w.metadata.latestSnapshotIndex + 1 ∨
      w.nextLogIndex - 1 ∈ logIndices L.items := by
  by_cases hnext : w.nextLogIndex ≤ w.metadata.latestSnapshotIndex + 1
  · exact .inl hnext
  · refine .inr (mem_of_mem_filter (p := (w.metadata.latestSnapshotIndex < ·)) ?_)
    rw [h.live, mem_range'_1]
    omega

theorem Ordered.appended_coherent {w : WAL} {L : Layout} {it : Item}
    (h : Ordered L w.metadata.latestSnapshotIndex) (hw : Coherent w L)
    (hit : ∀ m, it = .metadata m → m.latestSnapshotIndex ≤ w.metadata.latestSnapshotIndex) :
    Ordered (w.appended L it) w.metadata.latestSnapshotIndex :=
  h.appended hw.toLaidOut hw.below hw.next_anchored hit

/-! ## What compaction deletes -/

def compactOps (P : Layout) (retain : Nat) : List FileOp :=
  Layout.ids (P.take (P.length - retain)) |>.map FileOp.remove

/-- The eligible segments `P`: the one after them starts at most one past
`uptoIndex`, and the one after that further up. -/
theorem compact_eq {w : WAL} {L : Layout} (h : LaidOut w L) (uptoIndex retain : Nat) :
    ∃ (P : Layout) (q : Nat × List Item) (Q : Layout), L = P ++ q :: Q ∧
      (P ≠ [] → q.1 - 1 ≤ uptoIndex) ∧ (∀ q' ∈ Q.head?, uptoIndex < q'.1 - 1) ∧
      w.compactBeforeRetaining uptoIndex retain =
        .ok (compactOps P retain, w.perform (compactOps P retain)) := by
  obtain ⟨ids, id, rest, hids, helig, hle, hlt⟩ :=
    @eligible_split w.current uptoIndex L.ids h.ascending h.current
  obtain ⟨P, M, rfl, hP, hM⟩ := map_eq_append_iff.mp hids
  obtain ⟨q, Q, rfl, hq, hQ⟩ := map_eq_cons_iff.mp hM
  subst hP hq hQ
  refine ⟨P, q, Q, rfl, fun hne => hle (by simpa using hne), fun q' hq' => ?_, ?_⟩
  · refine hlt q'.1 ?_
    rw [head?_map, Option.mem_def] at *
    rw [hq', Option.map_some]
  · have hwritten := h.written.ids_eq
    rw [WAL.compactBeforeRetaining, if_neg (by omega), hwritten, helig]
    simp [compactOps, ids, map_take]

private theorem drop_min_eq (P : Layout) {n : Nat} (hn : n ≤ P.length) (k : Nat) :
    P.drop (min k n) = (P.take n).drop k ++ P.drop n := by
  have hlen : (P.take n).length = n := by rw [length_take, Nat.min_eq_left hn]
  by_cases hle : k ≤ n
  · rw [Nat.min_eq_left hle]
    conv_lhs => rw [← take_append_drop n P, drop_append_of_le_length (by omega)]
  · have hnil : (P.take n).drop k = [] := drop_of_length_le (by omega)
    rw [Nat.min_eq_right (by omega), hnil, nil_append]

theorem Holds.compact {d : Dir} {P Q : Layout} (h : Holds d (P ++ Q)) (hQ : Q ≠ [])
    (retain : Nat) :
    (∀ e ∈ crashImages applyOp d (compactOps P retain), ∃ k ≤ P.length - retain,
      Holds e (P.drop k ++ Q)) ∧
    Holds (perform applyOp d (compactOps P retain))
      (P.drop (P.length - retain) ++ Q) := by
  have hsplit : Holds d (P.take (P.length - retain) ++
      (P.drop (P.length - retain) ++ Q)) := by
    rwa [← append_assoc, take_append_drop]
  obtain ⟨himages, hfinal⟩ := Holds.remove_older (by simp [hQ]) _ hsplit
  refine ⟨fun e he => ?_, hfinal⟩
  obtain ⟨k, hk⟩ := himages e he
  refine ⟨min k (P.length - retain), Nat.min_le_right .., ?_⟩
  rwa [drop_min_eq P (Nat.sub_le ..), append_assoc]

end ChronicleDB.Wal
