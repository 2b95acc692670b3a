import ChronicleDB.Audit.Frame

/-!
# The audit log

`Open`, `Append` and the two readers of the audit log (`internal/audit/audit.go`).
A directory is the list of its segments' bytes; the log itself only ever writes
one segment.  A write of the segment may fail after any number of bytes, and a
sync may fail with the bytes left in the file; the log then keeps its chain tip
and its next number, and the file has grown.
-/

namespace ChronicleDB.Audit

open Foundation List

/-! ## Reading -/

inductive ReadError where
  | frame (err : FrameError)
  | sequenceGap (want found : UInt64)
  | chainBroken (seq : UInt64)
  deriving DecidableEq

structure Reader where
  entries : List Entry
  prev : Hash
  wantSeq : UInt64
  deriving DecidableEq

namespace Reader

def start : Reader := ⟨[], Hash.zero, 0⟩

def add (st : Reader) (r : Record) : Reader :=
  ⟨st.entries ++ [r.entry], r.recordHash, st.wantSeq + 1⟩

end Reader

/-- The frames of one segment; a torn tail ends them. -/
def readSegment : Nat → Bytes → Reader → Except ReadError Reader
  | 0, _, st => .ok st
  | fuel + 1, data, st =>
    if data = [] then .ok st
    else
      match decodeFrame data with
      | .error .tornTail => .ok st
      | .error err => .error (.frame err)
      | .ok (rec, frameLen) =>
        if rec.seq ≠ st.wantSeq then .error (.sequenceGap st.wantSeq rec.seq)
        else if rec.prevHash ≠ st.prev then .error (.chainBroken rec.seq)
        else readSegment fuel (data.drop frameLen) (st.add rec)

def readAllInternal (dir : List Bytes) : Except ReadError Reader :=
  dir.foldlM (fun st data => readSegment data.length data st) Reader.start

def readAll (dir : List Bytes) : Except ReadError (List Entry) :=
  (readAllInternal dir).map Reader.entries

def verify (dir : List Bytes) : Except ReadError Unit :=
  (readAllInternal dir).map fun _ => ()

/-! ## Opening and appending -/

structure Log where
  earlier : List Bytes
  seg : Bytes
  nextSeq : UInt64
  lastHash : Hash
  deriving DecidableEq

namespace Log

def dir (l : Log) : List Bytes := l.earlier ++ [l.seg]

/-- The loop of `recoverTail`.  The numbers of the records are not checked. -/
def recoverFrames (data : Bytes) : Nat → Nat → Hash → UInt64 →
    Except ReadError (Bytes × UInt64 × Hash)
  | 0, _, prev, seq => .ok (data, seq, prev)
  | fuel + 1, offset, prev, seq =>
    if offset < data.length then
      match decodeFrame (data.drop offset) with
      | .error .tornTail => .ok (data.take offset, seq, prev)
      | .error err => .error (.frame err)
      | .ok (rec, frameLen) =>
        if rec.prevHash ≠ prev then .error (.chainBroken rec.seq)
        else recoverFrames data fuel (offset + frameLen) rec.recordHash (rec.seq + 1)
    else .ok (data, seq, prev)

def openLog (dir : List Bytes) : Except ReadError Log := do
  let data := dir.getLastD []
  let (seg, nextSeq, lastHash) ← recoverFrames data data.length 0 Hash.zero 0
  return ⟨dir.dropLast, seg, nextSeq, lastHash⟩

/-- How writing a frame can fail: after some bytes, or in the sync. -/
inductive Fault where
  | write (written : Nat)
  | sync
  deriving DecidableEq

inductive WriteFailed where
  | encode (err : FrameError)
  | write
  | sync
  deriving DecidableEq

def append (l : Log) (entry : Entry) (fault : Option Fault) : Log × Except WriteFailed Unit :=
  match encodeFrame l.lastHash { entry with seq := l.nextSeq } with
  | .error err => (l, .error (.encode err))
  | .ok (frame, recordHash) =>
    match fault with
    | some (.write written) => ({ l with seg := l.seg ++ frame.take written }, .error .write)
    | some .sync => ({ l with seg := l.seg ++ frame }, .error .sync)
    | none =>
      ({ l with seg := l.seg ++ frame, nextSeq := l.nextSeq + 1, lastHash := recordHash },
        .ok ())

abbrev Call := Entry × Option Fault

def appendAll (l : Log) : List Call → Log × List Entry
  | [] => (l, [])
  | (entry, fault) :: calls =>
    match l.append entry fault with
    | (l', .ok ()) =>
      let (last, acked) := l'.appendAll calls
      (last, { entry with seq := l.nextSeq } :: acked)
    | (l', .error _) => l'.appendAll calls

end Log

/-! ## Chains of frames -/

/-- The frames take a reader from one state to the other. -/
inductive Chained : Reader → List Bytes → Reader → Prop
  | nil (st : Reader) : Chained st [] st
  | cons {st st' : Reader} {frame : Bytes} {frames : List Bytes} {r : Record}
      (decodes : Decodes frame r frame.length) (seq : r.seq = st.wantSeq)
      (prev : r.prevHash = st.prev) (rest : Chained (st.add r) frames st') :
      Chained st (frame :: frames) st'

/-- Bytes that hold no complete frame and claim none. -/
def Torn (tail : Bytes) : Prop := decodeFrame tail = .error .tornTail

theorem torn_nil : Torn [] := rfl

namespace Chained

theorem append {st mid st' : Reader} {frames more : List Bytes} (h : Chained st frames mid)
    (h' : Chained mid more st') : Chained st (frames ++ more) st' := by
  induction h with
  | nil => exact h'
  | cons decodes seq prev _ ih => exact .cons decodes seq prev (ih h')

theorem single {st : Reader} {frame : Bytes} {r : Record} (h : Decodes frame r frame.length)
    (hseq : r.seq = st.wantSeq) (hprev : r.prevHash = st.prev) :
    Chained st [frame] (st.add r) :=
  .cons h hseq hprev (.nil _)

end Chained

theorem Decodes.decodeFrame_eq {frame : Bytes} {r : Record} (h : Decodes frame r frame.length)
    (rest : Bytes) : decodeFrame (frame ++ rest) = .ok (r, frame.length) := by
  have := h.append rest
  rw [take_length] at this
  exact decodeFrame_ok_iff.mpr this

theorem Decodes.ne_nil {frame : Bytes} {r : Record} {n : Nat} (h : Decodes frame r n) :
    frame ≠ [] := by
  intro hnil
  have hpos := h.pos
  have hcomplete := h.complete
  simp only [hnil, length_nil] at hcomplete
  omega

theorem readSegment_chained {st st' : Reader} {frames : List Bytes} (h : Chained st frames st')
    {tail : Bytes} (htail : Torn tail) {fuel : Nat}
    (hfuel : (frames.flatten ++ tail).length ≤ fuel) :
    readSegment fuel (frames.flatten ++ tail) st = .ok st' := by
  induction h generalizing fuel with
  | nil st =>
    cases fuel with
    | zero => rfl
    | succ fuel =>
      simp only [flatten_nil, nil_append, readSegment]
      split
      · rfl
      · rw [htail]
  | @cons st st' frame frames r decodes seq prev rest ih =>
    have hne := decodes.ne_nil
    cases fuel with
    | zero => simp [hne] at hfuel
    | succ fuel =>
      have hpos := length_pos_iff.mpr hne
      simp only [flatten_cons, append_assoc, length_append] at hfuel ih ⊢
      rw [readSegment, if_neg (by simp [hne]), decodes.decodeFrame_eq]
      simp only [seq, prev, ne_eq, not_true_eq_false, if_false, drop_left]
      exact ih (by omega)

theorem recoverFrames_chained {st st' : Reader} {frames : List Bytes} (h : Chained st frames st')
    {tail : Bytes} (htail : Torn tail) {front : Bytes} {fuel : Nat}
    (hfuel : (frames.flatten ++ tail).length ≤ fuel) :
    Log.recoverFrames (front ++ (frames.flatten ++ tail)) fuel front.length st.prev st.wantSeq =
      .ok (front ++ frames.flatten, st'.wantSeq, st'.prev) := by
  induction h generalizing fuel front with
  | nil st =>
    cases fuel with
    | zero =>
      have hnil : tail = [] := by simpa using hfuel
      simp [Log.recoverFrames, hnil]
    | succ fuel =>
      simp only [flatten_nil, nil_append, append_nil, Log.recoverFrames, drop_left, take_left]
      split
      · rw [htail]
      · rename_i hend
        have hnil : tail = [] := by simpa using hend
        simp [hnil]
  | @cons st st' frame frames r decodes seq prev rest ih =>
    have hne := decodes.ne_nil
    cases fuel with
    | zero => simp [hne] at hfuel
    | succ fuel =>
      have hpos := length_pos_iff.mpr hne
      simp only [flatten_cons, append_assoc, length_append] at hfuel ih ⊢
      rw [Log.recoverFrames, if_pos (by simp; omega), drop_left, decodes.decodeFrame_eq]
      simp only [prev, ne_eq, not_true_eq_false, if_false]
      have := @ih (front ++ frame) fuel (by omega)
      simpa [append_assoc, Reader.add, seq] using this

theorem chained_of_readSegment {fuel : Nat} {data : Bytes} {st st' : Reader}
    (hfuel : data.length ≤ fuel) (h : readSegment fuel data st = .ok st') :
    ∃ frames tail, data = frames.flatten ++ tail ∧ Torn tail ∧ Chained st frames st' := by
  induction fuel generalizing data st with
  | zero =>
    cases h
    exact ⟨[], data, rfl, by simp [length_eq_zero_iff.mp (Nat.le_zero.mp hfuel), torn_nil], .nil _⟩
  | succ fuel ih =>
    rw [readSegment] at h
    split at h
    · rename_i hnil
      cases h
      exact ⟨[], [], by simp [hnil], torn_nil, .nil _⟩
    split at h
    · rename_i htorn
      cases h
      exact ⟨[], data, rfl, htorn, .nil _⟩
    · cases h
    · rename_i rec frameLen hdecode
      have hd := decodeFrame_ok_iff.mp hdecode
      have hpos := hd.pos
      have hcomplete := hd.complete
      split at h
      · cases h
      rename_i hseq
      split at h
      · cases h
      rename_i hprev
      rw [not_not] at hseq hprev
      have hfuel' : (data.drop frameLen).length ≤ fuel := by
        simp only [length_drop]
        omega
      obtain ⟨frames, tail, hdata, htail, hchain⟩ := ih hfuel' h
      have hlen : (data.take frameLen).length = frameLen := by simp [hcomplete]
      have hframe : Decodes (data.take frameLen) rec (data.take frameLen).length := by
        rw [hlen]
        simpa using hd.append []
      refine ⟨data.take frameLen :: frames, tail, ?_, htail, .cons hframe hseq hprev hchain⟩
      rw [flatten_cons, append_assoc, ← hdata, take_append_drop]

/-! ## One segment -/

theorem readAllInternal_single (data : Bytes) :
    readAllInternal [data] = readSegment data.length data Reader.start := by
  simp [readAllInternal]

theorem readAllInternal_chained {frames : List Bytes} {st : Reader} {tail : Bytes}
    (h : Chained Reader.start frames st) (htail : Torn tail) :
    readAllInternal [frames.flatten ++ tail] = .ok st := by
  rw [readAllInternal_single, readSegment_chained h htail le_rfl]

theorem openLog_chained {frames : List Bytes} {st : Reader} {tail : Bytes}
    (h : Chained Reader.start frames st) (htail : Torn tail) :
    Log.openLog [frames.flatten ++ tail] = .ok ⟨[], frames.flatten, st.wantSeq, st.prev⟩ := by
  have hrec := @recoverFrames_chained _ _ _ h _ htail [] _ le_rfl
  simp only [nil_append, length_nil] at hrec
  simp only [Log.openLog, getLastD_cons, getLastD_nil, dropLast_singleton]
  rw [show (0 : UInt64) = Reader.start.wantSeq from rfl,
    show Hash.zero = Reader.start.prev from rfl, hrec]
  rfl

/-! ## Runs of Append -/

namespace Log

/-- The segment is exactly the frames that lead to the log's tip. -/
structure Holds (l : Log) (frames : List Bytes) (st : Reader) : Prop where
  earlier : l.earlier = []
  seg : l.seg = frames.flatten
  chained : Chained Reader.start frames st
  nextSeq : l.nextSeq = st.wantSeq
  lastHash : l.lastHash = st.prev

theorem holds_of_openLog {data : Bytes} {l : Log} {st : Reader} (hopen : openLog [data] = .ok l)
    (hread : readAllInternal [data] = .ok st) : ∃ frames, l.Holds frames st := by
  rw [readAllInternal_single] at hread
  obtain ⟨frames, tail, rfl, htail, hchain⟩ := chained_of_readSegment le_rfl hread
  rw [openLog_chained hchain htail] at hopen
  cases hopen
  exact ⟨frames, rfl, rfl, hchain, rfl, rfl⟩

theorem append_cases (l : Log) (entry : Entry) (fault : Option Fault) :
    (∃ err, l.append entry fault = (l, .error err)) ∨
    ∃ frame recordHash,
      encodeFrame l.lastHash { entry with seq := l.nextSeq } = .ok (frame, recordHash) ∧
      ((∃ written err, l.append entry fault =
          ({ l with seg := l.seg ++ frame.take written }, .error err)) ∨
        l.append entry fault = ({ l with
          seg := l.seg ++ frame, nextSeq := l.nextSeq + 1, lastHash := recordHash }, .ok ())) := by
  cases hencode : encodeFrame l.lastHash { entry with seq := l.nextSeq } with
  | error err => exact .inl ⟨.encode err, by simp [append, hencode]⟩
  | ok fr =>
    refine .inr ⟨fr.1, fr.2, rfl, ?_⟩
    rcases fault with _ | written | _
    · exact .inr (by simp [append, hencode])
    · exact .inl ⟨written, .write, by simp [append, hencode]⟩
    · exact .inl ⟨fr.1.length, .sync, by simp [append, hencode]⟩

section Step

variable {l : Log} {frames : List Bytes} {st : Reader} {entry : Entry} {frame : Bytes}
  {recordHash : Hash}

def record (l : Log) (entry : Entry) (recordHash : Hash) : Record :=
  ⟨l.nextSeq, l.lastHash, { entry with seq := l.nextSeq }.rendered, recordHash⟩

theorem Holds.chained_frame (h : l.Holds frames st)
    (hencode : encodeFrame l.lastHash { entry with seq := l.nextSeq } = .ok (frame, recordHash)) :
    Chained Reader.start (frames ++ [frame]) (st.add (l.record entry recordHash)) := by
  have hdecode := decodeFrame_encodeFrame hencode []
  rw [append_nil] at hdecode
  exact h.chained.append (.single (decodeFrame_ok_iff.mp hdecode) h.nextSeq h.lastHash)

theorem Holds.step (h : l.Holds frames st)
    (hencode : encodeFrame l.lastHash { entry with seq := l.nextSeq } = .ok (frame, recordHash)) :
    Holds { l with seg := l.seg ++ frame, nextSeq := l.nextSeq + 1, lastHash := recordHash }
      (frames ++ [frame]) (st.add (l.record entry recordHash)) where
  earlier := h.earlier
  seg := by simp [h.seg]
  chained := h.chained_frame hencode
  nextSeq := by simp [Reader.add, h.nextSeq]
  lastHash := rfl

end Step

/-- After a call that failed and left bytes, no call writes any. -/
def Clean (l : Log) : List Call → Prop
  | [] => True
  | (entry, fault) :: calls =>
    let r := l.append entry fault
    if r.2.isOk ∨ r.1.seg = l.seg then r.1.Clean calls
    else (r.1.appendAll calls).1.seg = r.1.seg

instance decidableClean : (l : Log) → (calls : List Call) → Decidable (l.Clean calls)
  | _, [] => .isTrue trivial
  | l, (entry, fault) :: calls =>
    have := decidableClean (l.append entry fault).1 calls
    inferInstanceAs (Decidable (ite _ _ _))

theorem isPrefix_appendAll (l : Log) (calls : List Call) :
    l.seg <+: (l.appendAll calls).1.seg := by
  induction calls generalizing l with
  | nil => exact prefix_rfl
  | cons call calls ih =>
    obtain ⟨entry, fault⟩ := call
    rcases l.append_cases entry fault with
      ⟨err, happend⟩ | ⟨frame, recordHash, -, ⟨written, err, happend⟩ | happend⟩
    · simpa only [appendAll, happend] using ih l
    · simp only [appendAll, happend]
      have hgrown := ih { l with seg := l.seg ++ frame.take written }
      exact (prefix_append l.seg _).trans hgrown
    · simp only [appendAll, happend]
      have hgrown := ih { l with
        seg := l.seg ++ frame, nextSeq := l.nextSeq + 1, lastHash := recordHash }
      exact (prefix_append l.seg _).trans hgrown

theorem appendAll_of_seg_eq {l : Log} {calls : List Call}
    (h : (l.appendAll calls).1.seg = l.seg) : l.appendAll calls = (l, []) := by
  induction calls with
  | nil => rfl
  | cons call calls ih =>
    obtain ⟨entry, fault⟩ := call
    rcases l.append_cases entry fault with
      ⟨err, happend⟩ | ⟨frame, recordHash, hencode, ⟨written, err, happend⟩ | happend⟩
    · simp only [appendAll, happend] at h ⊢
      exact ih h
    · simp only [appendAll, happend] at h ⊢
      have hle := isPrefix_appendAll { l with seg := l.seg ++ frame.take written } calls
      have hnil : frame.take written = [] := by
        rw [h] at hle
        simpa using hle.length_le
      simp only [hnil, append_nil] at h ⊢
      exact ih h
    · simp only [appendAll, happend] at h
      have hle := isPrefix_appendAll { l with
        seg := l.seg ++ frame, nextSeq := l.nextSeq + 1, lastHash := recordHash } calls
      rw [h] at hle
      have hnil : frame = [] := by simpa using hle.length_le
      exact absurd hnil (encodeFrame_ne_nil hencode)

/-- The directory is one segment of chained frames and a torn tail. -/
structure Legible (dir : List Bytes) (st : Reader) (frames : List Bytes) (tail : Bytes) : Prop where
  dir : dir = [frames.flatten ++ tail]
  torn : Torn tail
  chained : Chained Reader.start frames st

/-- What one failed call leaves: a torn tail, or a whole frame that no one was told of. -/
theorem Holds.legible_of_written {l : Log} {frames : List Bytes} {st : Reader} {entry : Entry}
    {frame : Bytes} {recordHash : Hash} (h : l.Holds frames st)
    (hencode : encodeFrame l.lastHash { entry with seq := l.nextSeq } = .ok (frame, recordHash))
    (written : Nat) :
    ∃ frames' tail st', Legible (dir { l with seg := l.seg ++ frame.take written }) st' frames'
      tail ∧ st.entries <+: st'.entries := by
  by_cases hcut : written < frame.length
  · refine ⟨frames, frame.take written, st, ⟨?_, decodeFrame_take_encodeFrame hencode hcut,
      h.chained⟩, prefix_rfl⟩
    simp [dir, h.earlier, h.seg]
  · refine ⟨frames ++ [frame], [], st.add (l.record entry recordHash), ⟨?_, torn_nil,
      h.chained_frame hencode⟩, prefix_append _ _⟩
    simp [dir, h.earlier, h.seg, take_of_length_le (Nat.not_lt.mp hcut)]

theorem Holds.run {l : Log} {frames : List Bytes} {st : Reader} {calls : List Call}
    (h : l.Holds frames st) (hclean : l.Clean calls) :
    ∃ frames' tail st', Legible (l.appendAll calls).1.dir st' frames' tail ∧
      st.entries ++ (l.appendAll calls).2.map Entry.rendered <+: st'.entries := by
  induction calls generalizing l frames st with
  | nil =>
    refine ⟨frames, [], st, ⟨?_, torn_nil, h.chained⟩, by simp [appendAll]⟩
    simp [appendAll, dir, h.earlier, h.seg]
  | cons call calls ih =>
    obtain ⟨entry, fault⟩ := call
    rcases l.append_cases entry fault with
      ⟨err, happend⟩ | ⟨frame, recordHash, hencode, ⟨written, err, happend⟩ | happend⟩
    · simp only [Clean, happend, or_true, if_true] at hclean
      simpa only [appendAll, happend] using ih h hclean
    · simp only [Clean, happend, Except.isOk, Except.toBool, Bool.false_eq_true, false_or] at hclean
      simp only [appendAll, happend]
      split at hclean
      · rename_i hsame
        have hnil : frame.take written = [] := by simpa using hsame
        simp only [hnil, append_nil] at hclean ⊢
        exact ih h hclean
      · rw [appendAll_of_seg_eq hclean]
        simpa using h.legible_of_written hencode written
    · simp only [Clean, happend, Except.isOk, Except.toBool, true_or, if_true] at hclean
      obtain ⟨frames', tail, st', hlegible, hentries⟩ := ih (h.step hencode) hclean
      refine ⟨frames', tail, st', ?_, ?_⟩
      · simpa only [appendAll, happend] using hlegible
      · simpa [appendAll, happend, Reader.add, record] using hentries

theorem mem_of_mem_acked {l : Log} {calls : List Call} {e : Entry}
    (h : e ∈ (l.appendAll calls).2) : ∃ call ∈ calls, ∃ seq, e = { call.1 with seq := seq } := by
  induction calls generalizing l with
  | nil => cases h
  | cons call calls ih =>
    obtain ⟨entry, fault⟩ := call
    cases happend : l.append entry fault with
    | mk l' result =>
      cases result with
      | error err =>
        simp only [appendAll, happend] at h
        obtain ⟨c, hc, seq, rfl⟩ := ih h
        exact ⟨c, mem_cons_of_mem _ hc, seq, rfl⟩
      | ok =>
        simp only [appendAll, happend, mem_cons] at h
        rcases h with rfl | h
        · exact ⟨(entry, fault), mem_cons_self, l.nextSeq, rfl⟩
        · obtain ⟨c, hc, seq, rfl⟩ := ih h
          exact ⟨c, mem_cons_of_mem _ hc, seq, rfl⟩

def fresh : Log := ⟨[], [], 0, Hash.zero⟩

def faultAllowed : Entry :=
  ⟨0, 0, Json.ascii "ops", Json.ascii "admin", Json.ascii "fault.block", Json.ascii "/fault",
    Json.ascii "allow", []⟩

end Log

end ChronicleDB.Audit
