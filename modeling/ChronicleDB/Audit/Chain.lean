import ChronicleDB.Audit.Log

/-!
# Tamper evidence

The hash of the last record commits to every frame before it: along the chain,
from the last frame backwards, equal hashes are hashes of equal bytes, and these
hold the hash of the frame before.
-/

namespace ChronicleDB.Audit

open Foundation List

variable {st st' : Reader} {frames : List Bytes}

/-! ## The frames of a segment -/

def completeFramesFrom : Nat → Bytes → List Bytes
  | 0, _ => []
  | fuel + 1, data =>
    match decodeFrame data with
    | .ok (_, frameLen) => data.take frameLen :: completeFramesFrom fuel (data.drop frameLen)
    | .error _ => []

def completeFrames (data : Bytes) : List Bytes := completeFramesFrom data.length data

theorem completeFramesFrom_chained
    (h : Chained st frames st') {tail : Bytes} (htail : Torn tail) {fuel : Nat}
    (hfuel : (frames.flatten ++ tail).length ≤ fuel) :
    completeFramesFrom fuel (frames.flatten ++ tail) = frames := by
  induction h generalizing fuel with
  | nil st =>
    cases fuel with
    | zero => rfl
    | succ fuel =>
      simp only [flatten_nil, nil_append, completeFramesFrom]
      rw [htail]
  | @cons st st' frame frames r decodes seq prev rest ih =>
    have hne := decodes.ne_nil
    cases fuel with
    | zero => simp [hne] at hfuel
    | succ fuel =>
      have hpos := length_pos_iff.mpr hne
      simp only [flatten_cons, append_assoc, length_append] at hfuel ih ⊢
      rw [completeFramesFrom, decodes.decodeFrame_eq]
      simp only [take_left, drop_left]
      rw [ih (by omega)]

theorem chained_of_readAllInternal {data : Bytes}
    (h : readAllInternal [data] = .ok st) : Chained Reader.start (completeFrames data) st := by
  rw [readAllInternal_single] at h
  obtain ⟨frames, tail, rfl, htail, hchain⟩ := chained_of_readSegment le_rfl h
  rwa [completeFrames, completeFramesFrom_chained hchain htail le_rfl]

/-! ## Commitment -/

def covered (frame : Bytes) : Bytes := frame.take (frame.length - hashSize)

/-- The hash behaves on these frames as an injection that never gives zeros. -/
structure Distinguished (frames : List Bytes) : Prop where
  injective : ∀ f ∈ frames, ∀ g ∈ frames,
    Hash.sum (covered f) = Hash.sum (covered g) → covered f = covered g
  nonzero : ∀ f ∈ frames, Hash.sum (covered f) ≠ Hash.zero

theorem Distinguished.mono {more : List Bytes} (h : Distinguished more)
    (hsub : frames ⊆ more) : Distinguished frames where
  injective f hf g hg := h.injective f (hsub hf) g (hsub hg)
  nonzero f hf := h.nonzero f (hsub hf)

section Decoded

variable {frame other : Bytes} {r r' : Record}

theorem Decodes.recordHash_covered (h : Decodes frame r frame.length) :
    r.recordHash = Hash.sum (covered frame) :=
  h.recordHash_eq

theorem Decodes.eq_covered (h : Decodes frame r frame.length) :
    frame = covered frame ++ (Hash.sum (covered frame)).val := by
  have := h.take_eq
  rwa [take_length, h.recordHash_covered] at this

theorem Decodes.record_unique (h : Decodes frame r frame.length)
    (h' : Decodes frame r' frame.length) : r = r' := by
  have := (decodeFrame_ok_iff.mpr h).symm.trans (decodeFrame_ok_iff.mpr h')
  simpa using this

end Decoded

theorem Chained.inv_append {frame : Bytes}
    (h : Chained st (frames ++ [frame]) st') : ∃ mid r, Chained st frames mid ∧
      Decodes frame r frame.length ∧ r.prevHash = mid.prev ∧ st' = mid.add r := by
  induction frames generalizing st with
  | nil =>
    cases h with
    | cons decodes seq prev rest =>
      cases rest
      exact ⟨st, _, .nil st, decodes, prev, rfl⟩
  | cons f frames ih =>
    cases h with
    | cons decodes seq prev rest =>
      obtain ⟨mid, r, hmid, hrest⟩ := ih rest
      exact ⟨mid, r, .cons decodes seq prev hmid, hrest⟩

theorem Chained.prev_eq {frame : Bytes}
    (h : Chained st (frames ++ [frame]) st') : st'.prev = Hash.sum (covered frame) := by
  obtain ⟨mid, r, -, hdecodes, -, rfl⟩ := h.inv_append
  exact hdecodes.recordHash_covered

/-- Chains with one tip are one chain. -/
theorem Chained.eq_of_prev_eq {more : List Bytes}
    (h : Chained Reader.start frames st) (h' : Chained Reader.start more st')
    (hdist : Distinguished (frames ++ more)) (htip : st.prev = st'.prev) : frames = more := by
  -- from the last frames backwards: equal tips give equal last frames, and these name the tips before
  induction frames using reverseRecOn generalizing more st st' with
  | nil =>
    cases h
    rcases eq_nil_or_concat more with rfl | ⟨more, g, rfl⟩
    · rfl
    · rw [concat_eq_append] at h' hdist
      rw [h'.prev_eq] at htip
      exact absurd htip.symm (hdist.nonzero g (by simp))
  | append_singleton frames f ih =>
    rcases eq_nil_or_concat more with rfl | ⟨more, g, rfl⟩
    · cases h'
      rw [h.prev_eq] at htip
      exact absurd htip (hdist.nonzero f (by simp))
    · rw [concat_eq_append] at h' hdist ⊢
      have hcovered : covered f = covered g := by
        apply hdist.injective f (by simp) g (by simp)
        rw [← h.prev_eq, ← h'.prev_eq, htip]
      obtain ⟨mid, r, hchain, hdecodes, hprev, rfl⟩ := h.inv_append
      obtain ⟨mid', r', hchain', hdecodes', hprev', rfl⟩ := h'.inv_append
      have hframe : f = g := by
        rw [hdecodes.eq_covered, hdecodes'.eq_covered, hcovered]
      subst hframe
      have hrecord := hdecodes.record_unique hdecodes'
      have hmid : mid.prev = mid'.prev := by rw [← hprev, ← hprev', hrecord]
      have hsub : frames ++ more ⊆ (frames ++ [f]) ++ (more ++ [f]) := by
        intro x hx
        simp only [mem_append] at hx ⊢
        tauto
      rw [ih hchain hchain' (hdist.mono hsub) hmid]

theorem completeFrames_eq {a b : Bytes}
    (hdist : Distinguished (completeFrames a ++ completeFrames b))
    (ha : readAllInternal [a] = .ok st) (hb : readAllInternal [b] = .ok st')
    (htip : st'.prev = st.prev) : completeFrames b = completeFrames a :=
  ((chained_of_readAllInternal ha).eq_of_prev_eq (chained_of_readAllInternal hb) hdist
    htip.symm).symm

/-! ## Logs without failures -/

def numbered (n : UInt64) : List Entry → List Entry
  | [] => []
  | e :: es => { e with seq := n } :: numbered (n + 1) es

def unfaulted (es : List Entry) : List Log.Call := es.map fun e => (e, none)

theorem Log.length_acked_le (l : Log) (calls : List Call) :
    (l.appendAll calls).2.length ≤ calls.length := by
  induction calls generalizing l with
  | nil => exact le_rfl
  | cons call calls ih =>
    obtain ⟨entry, fault⟩ := call
    cases happend : l.append entry fault with
    | mk l' result =>
      cases result with
      | error err => simpa [appendAll, happend] using Nat.le_succ_of_le (ih l')
      | ok => simpa [appendAll, happend] using ih l'

theorem Log.Holds.run_unfaulted {l : Log} {es : List Entry} (h : l.Holds frames st)
    (hall : (l.appendAll (unfaulted es)).2.length = es.length) :
    ∃ frames' st', (l.appendAll (unfaulted es)).1.Holds frames' st' ∧
      st'.entries = st.entries ++ (numbered l.nextSeq es).map Entry.rendered := by
  induction es generalizing l frames st with
  | nil => exact ⟨frames, st, h, by simp [numbered]⟩
  | cons e es ih =>
    cases hencode : encodeFrame l.lastHash { e with seq := l.nextSeq } with
    | error err =>
      have hle := l.length_acked_le (unfaulted es)
      simp only [unfaulted, map_cons, appendAll, append, hencode, length_cons]
        at hall hle
      simp only [length_map] at hle
      omega
    | ok fr =>
      simp only [unfaulted, map_cons, appendAll, append, hencode, length_cons,
        Nat.add_right_cancel_iff] at hall ⊢
      obtain ⟨frames', st', hholds, hentries⟩ := ih (h.step hencode) hall
      refine ⟨frames', st', hholds, ?_⟩
      simpa [numbered, Reader.add, record] using hentries

theorem Log.readAll_of_holds {l : Log} (h : l.Holds frames st) :
    readAllInternal l.dir = .ok st := by
  have := readAllInternal_chained h.chained torn_nil
  rwa [append_nil, ← h.seg, show [l.seg] = l.dir by simp [dir, h.earlier]] at this

theorem Log.holds_fresh : fresh.Holds [] Reader.start :=
  ⟨rfl, rfl, .nil _, rfl, rfl⟩

theorem readAll_unfaulted {es : List Entry}
    (hall : (Log.fresh.appendAll (unfaulted es)).2.length = es.length) :
    readAll (Log.fresh.appendAll (unfaulted es)).1.dir =
      .ok ((numbered 0 es).map Entry.rendered) := by
  obtain ⟨frames, st, hholds, hentries⟩ := Log.holds_fresh.run_unfaulted hall
  rw [readAll, Log.readAll_of_holds hholds]
  exact congrArg Except.ok hentries

/-! ## Tampering -/

/-- Where the hash is injective and never zero on the frames of two files: files accepted with
one final hash hold the same frames, a file with other frames is rejected or has another final
hash, and a log written without failures reads back as its entries, numbered and rendered. -/
theorem audit_tamper_evident {a b : Bytes} {st : Reader}
    (hdist : Distinguished (completeFrames a ++ completeFrames b))
    (ha : readAllInternal [a] = .ok st) :
    (∀ st', readAllInternal [b] = .ok st' → st'.prev = st.prev →
      completeFrames b = completeFrames a) ∧
    (completeFrames b ≠ completeFrames a → (∃ err, verify [b] = .error err) ∨
      ∃ st', readAllInternal [b] = .ok st' ∧ st'.prev ≠ st.prev) ∧
    ∀ es, (Log.fresh.appendAll (unfaulted es)).2.length = es.length →
      verify (Log.fresh.appendAll (unfaulted es)).1.dir = .ok () ∧
      readAll (Log.fresh.appendAll (unfaulted es)).1.dir =
        .ok ((numbered 0 es).map Entry.rendered) := by
  refine ⟨fun st' hb htip => completeFrames_eq hdist ha hb htip, ?_, ?_⟩
  · intro hne
    cases hb : readAllInternal [b] with
    | error err => exact .inl ⟨err, by rw [verify, hb]; rfl⟩
    | ok st' =>
      exact .inr ⟨st', rfl, fun htip => hne (completeFrames_eq hdist ha hb htip)⟩
  · intro es hall
    obtain ⟨frames, st, hholds, -⟩ := Log.holds_fresh.run_unfaulted hall
    exact ⟨by rw [verify, Log.readAll_of_holds hholds]; rfl, readAll_unfaulted hall⟩

def oneRecord : Bytes := (Log.fresh.appendAll [(Log.faultAllowed, none)]).1.seg

theorem audit_tamper_evident_torn :
    ∃ st, readAllInternal [oneRecord] = .ok st ∧
      ∀ st', readAllInternal [oneRecord ++ [recordType]] = .ok st' → st'.prev = st.prev →
        completeFrames (oneRecord ++ [recordType]) = completeFrames oneRecord := by
  have hframes : completeFrames (oneRecord ++ [recordType]) = [oneRecord] := by decide +kernel
  have hnonzero : Hash.sum (covered oneRecord) ≠ Hash.zero := by decide +kernel
  have hdist : Distinguished (completeFrames oneRecord ++
      completeFrames (oneRecord ++ [recordType])) := by
    have hone : completeFrames oneRecord = [oneRecord] := by decide +kernel
    rw [hone, hframes]
    exact ⟨by simp, by simpa using hnonzero⟩
  have hok : (readAllInternal [oneRecord]).isOk := by decide +kernel
  cases ha : readAllInternal [oneRecord] with
  | error err => simp [ha, Except.isOk, Except.toBool] at hok
  | ok st => exact ⟨st, rfl, (audit_tamper_evident hdist ha).1⟩

/-- A principal that is not UTF-8. -/
def latinPrincipal : Entry := { Log.faultAllowed with principal := [0xFF] }

/-- It is acknowledged and read back as the replacement character. -/
theorem principal_read_back_repaired :
    (Log.fresh.appendAll (unfaulted [latinPrincipal])).2 = [latinPrincipal] ∧
      readAll (Log.fresh.appendAll (unfaulted [latinPrincipal])).1.dir =
        .ok [{ latinPrincipal with principal := replacement }] ∧
      ({ latinPrincipal with principal := replacement } : Entry) ≠ latinPrincipal := by
  have hacked : (Log.fresh.appendAll (unfaulted [latinPrincipal])).2 = [latinPrincipal] := by
    decide +kernel
  refine ⟨hacked, ?_, by decide⟩
  rw [readAll_unfaulted (by rw [hacked])]
  decide

end ChronicleDB.Audit
