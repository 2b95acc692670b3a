import ChronicleDB.Consensus.Logs
import ChronicleDB.Raft.Replication

/-!
# The log of a core and that of a leader

A core holds the part of its log above the boundary.  When its whole log and that
of a leader are sound, an accepted request leaves it with the leader's entries up
to the last one of the request.
-/

namespace ChronicleDB.Raft

open Foundation Consensus List

instance : Termed Entry := ⟨Entry.term⟩

/-- An `AppendEntries` request holds a piece of the log `M`. -/
structure Segment (M : List Entry) (prev prevTerm : Nat) (entries : List Entry) : Prop where
  le : prev ≤ M.length
  prevTerm : prevTerm = termAt M prev
  entries : entries <+: M.drop prev

namespace Core

/-- `ℓ` is the whole log of `c`, the entries below the boundary included. -/
structure Shows (c : Core) (ℓ : List Entry) : Prop where
  le : c.snapshotIndex ≤ ℓ.length
  log : c.log = ℓ.drop c.snapshotIndex
  boundary : c.snapshotTerm = Consensus.termAt ℓ c.snapshotIndex

namespace Shows

variable {c c' : Core} {ℓ M : List Entry} {llog : Nat → List Entry}

theorem congr (h : c.Shows ℓ) (hlog : c'.log = c.log) (hboundary : SameBoundary c c') :
    c'.Shows ℓ :=
  ⟨hboundary.1 ▸ h.le, by rw [hlog, hboundary.1, h.log], by rw [hboundary.2, hboundary.1, h.boundary]⟩

theorem lastIndex_eq (h : c.Shows ℓ) : c.lastIndex = ℓ.length := by
  have := h.le
  simp only [lastIndex, h.log, length_drop]
  omega

theorem termAt_eq (h : c.Shows ℓ) {i : Nat} (hi : c.snapshotIndex ≤ i) :
    c.termAt i = Consensus.termAt ℓ i := by
  simp only [Core.termAt, Nat.not_lt.mpr hi, if_false]
  split
  case isTrue heq => rw [heq, h.boundary]
  case isFalse hne =>
    obtain ⟨j, rfl⟩ : ∃ j, i = j + 1 := ⟨i - 1, by omega⟩
    have hget : c.log[j + 1 - c.snapshotIndex - 1]? = ℓ[j]? := by
      rw [h.log, getElem?_drop]
      congr 1
      omega
    rw [hget, Consensus.termAt]
    cases ℓ[j]? <;> rfl

theorem append (h : c.Shows ℓ) {e : Entry} (hlog : c'.log = c.log ++ [e])
    (hboundary : SameBoundary c c') : c'.Shows (ℓ ++ [e]) := by
  have hle := h.le
  refine ⟨?_, ?_, ?_⟩
  · rw [hboundary.1, length_append]
    omega
  · rw [hlog, hboundary.1, h.log, drop_append_of_le_length hle]
  · rw [hboundary.2, hboundary.1, h.boundary, termAt_of_initial (prefix_append ℓ [e]) hle]

theorem install {index : Nat} (hindex : index ≤ M.length) (hlog : c'.log = [])
    (hsnapshot : c'.snapshotIndex = index)
    (hterm : c'.snapshotTerm = Consensus.termAt M index) : c'.Shows (M.take index) := by
  refine ⟨?_, ?_, ?_⟩
  · simp only [length_take]
    omega
  · rw [hlog, hsnapshot, drop_eq_nil_of_le (by simp)]
  · rw [hterm, hsnapshot, termAt_take (le_refl _)]

end Shows

/-- What an accepted request makes of the whole log `ℓ`: the scan passes over `kept`, and
what is left of the request replaces all that follows. -/
structure Spliced (c : Core) (ℓ ℓ' : List Entry) (prev : Nat) (entries kept new : List Entry) :
    Prop where
  parts : entries = kept ++ new
  within : prev + kept.length ≤ ℓ.length
  terms : ∀ k e, kept[k]? = some e → Consensus.termAt ℓ (prev + k + 1) = e.term
  same : new = [] → ℓ' = ℓ
  changed : new ≠ [] → ℓ' = ℓ.take (prev + kept.length) ++ new
  committed : new ≠ [] → c.commitIndex ≤ ℓ.length → c.commitIndex ≤ prev + kept.length

theorem Accepts.spliced {c c' : Core} {ℓ : List Entry} {msg : Message} {prev commit : Nat}
    {entries new : List Entry} {truncateFrom : Option Nat}
    (hacc : c.Accepts msg prev entries commit truncateFrom new) (h : c.Shows ℓ)
    (hlog : c'.log = c.logWith truncateFrom new) (hboundary : SameBoundary c c') :
    ∃ ℓ' kept, c'.Shows ℓ' ∧ Spliced c ℓ ℓ' prev entries kept new := by
  obtain ⟨kept, hk⟩ := scanEntries_spec hacc.scan
  have hlast := h.lastIndex_eq
  have hprev := hacc.within
  have habove := hacc.above
  have hle := h.le
  have hwithin : prev + kept.length ≤ ℓ.length := by
    by_cases hnil : kept = []
    · simp only [hnil, length_nil]
      omega
    · have := hk.within hnil
      omega
  have hterms : ∀ k e, kept[k]? = some e → Consensus.termAt ℓ (prev + k + 1) = e.term := by
    intro k e he
    have := hk.terms k e he
    rwa [h.termAt_eq (by omega), show prev + 1 + k = prev + k + 1 by omega] at this
  by_cases hnew : new = []
  · refine ⟨ℓ, kept, h.congr ?_ hboundary, hk.parts, hwithin, hterms, fun _ => rfl,
      fun hne => absurd hnew hne, fun hne => absurd hnew hne⟩
    rw [hlog, hk.unchanged hnew, hnew, logWith, append_nil]
  · have hshows : c'.log = (ℓ.take (prev + kept.length) ++ new).drop c.snapshotIndex ∧
        (c.commitIndex ≤ ℓ.length → c.commitIndex ≤ prev + kept.length) := by
      rw [hlog]
      cases htrunc : truncateFrom with
      | none =>
        have hend := hk.fresh hnew htrunc
        refine ⟨?_, by omega⟩
        rw [logWith, h.log, take_of_length_le (by omega), drop_append_of_le_length hle]
      | some idx =>
        obtain ⟨hidx, -, hcommit, -⟩ := hk.conflict idx htrunc
        refine ⟨?_, by omega⟩
        rw [logWith, h.log, drop_append_of_le_length (by simp only [length_take]; omega), drop_take]
        congr 2
        omega
    refine ⟨_, kept, ⟨?_, ?_, ?_⟩, hk.parts, hwithin, hterms, fun hnil => absurd hnil hnew,
      fun _ => rfl, fun _ => hshows.2⟩
    · rw [hboundary.1, length_append, length_take]
      omega
    · rw [hshows.1, hboundary.1]
    · rw [hboundary.1, hboundary.2, h.boundary, termAt_of_initial (prefix_append _ _)
        (by simp only [length_take]; omega), termAt_take (by omega)]

theorem Spliced.committed_eq {c : Core} {ℓ ℓ' : List Entry} {prev : Nat}
    {entries kept new : List Entry} (h : Spliced c ℓ ℓ' prev entries kept new)
    (hcommit : c.commitIndex ≤ ℓ.length) : ℓ'.take c.commitIndex = ℓ.take c.commitIndex := by
  by_cases hnew : new = []
  · rw [h.same hnew]
  · have hle := h.committed hnew hcommit
    rw [h.changed hnew, take_append_of_le_length (by simp only [length_take]; omega),
      take_take, Nat.min_eq_left hle]

/-- What an accepted request with entries of `M` makes of the whole log `ℓ`. -/
structure Followed (ℓ M ℓ' : List Entry) (prev last commit : Nat) (changed : Prop) : Prop where
  agree : ℓ.take prev = M.take prev
  result : ¬ changed ∧ ℓ' = ℓ ∧ M.take last <+: ℓ ∨ changed ∧ ℓ' = M.take last
  committed : commit ≤ ℓ.length → ℓ'.take commit = ℓ.take commit

theorem Accepts.followed {c c' : Core} {ℓ M : List Entry} {llog : Nat → List Entry}
    {msg : Message} {prev commit : Nat} {entries new : List Entry} {truncateFrom : Option Nat}
    (hacc : c.Accepts msg prev entries commit truncateFrom new) (h : c.Shows ℓ)
    (hℓ : Sound llog ℓ) (hM : Sound llog M) (hseg : Segment M prev (c.termAt prev) entries)
    (hlog : c'.log = c.logWith truncateFrom new) (hboundary : SameBoundary c c') :
    ∃ ℓ', c'.Shows ℓ' ∧
      Followed ℓ M ℓ' prev (prev + entries.length) c.commitIndex (new ≠ []) := by
  obtain ⟨ℓ', kept, hshows, hsplice⟩ := hacc.spliced h hlog hboundary
  have hprev : ℓ.take prev = M.take prev := by
    refine hℓ.take_eq hM (h.lastIndex_eq ▸ hacc.within) hseg.le ?_
    rw [← h.termAt_eq hacc.above, hseg.prevTerm]
  obtain ⟨rest, hrest⟩ := hseg.entries
  have htake : ∀ n, M.take (prev + n) = M.take prev ++ (kept ++ new ++ rest).take n := by
    intro n
    rw [take_add, ← hrest, hsplice.parts]
  have hlenM : prev + kept.length ≤ M.length := by
    have := congrArg length hrest
    have := hseg.le
    simp only [hsplice.parts, length_append, length_drop] at *
    omega
  -- the entries that the scan passes over are the leader's
  have hkept : ℓ.take (prev + kept.length) = M.take (prev + kept.length) := by
    refine hℓ.take_eq_of_terms hM hprev hsplice.within hlenM fun j hj => ?_
    obtain ⟨e, he⟩ : ∃ e, kept[j]? = some e := ⟨_, getElem?_eq_getElem hj⟩
    have hMj : M[prev + j]? = some e := by
      rw [← getElem?_drop, ← hrest, hsplice.parts, append_assoc, getElem?_append_left hj, he]
    rw [hsplice.terms j e he, termAt_succ_of_getElem? hMj]
    rfl
  have htarget : M.take (prev + entries.length) = ℓ.take (prev + kept.length) ++ new := by
    rw [hkept, htake, htake, hsplice.parts, take_left, append_assoc kept, take_left, append_assoc]
  refine ⟨ℓ', hshows, hprev, ?_, hsplice.committed_eq⟩
  by_cases hnew : new = []
  · refine .inl ⟨by simp [hnew], hsplice.same hnew, ?_⟩
    rw [htarget, hnew, append_nil]
    exact take_prefix _ _
  · exact .inr ⟨hnew, (hsplice.changed hnew).trans htarget.symm⟩

end Core

end ChronicleDB.Raft
