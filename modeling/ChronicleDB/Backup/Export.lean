import ChronicleDB.Raft.Reports

/-!
# Backups

`Export` of `internal/backup/backup.go` and `handleBackup` of `internal/node/node.go`.
A backup is a base snapshot and a copy of the log above it.  The event loop takes a
backup between two inputs.
-/

namespace ChronicleDB.Backup

open Foundation Consensus Raft

inductive ExportError where
  | untilBeforeBase (untilIndex baseIndex : Nat)
  | indexMismatch (assigned source : Nat)
  deriving DecidableEq, Repr

/-- The loop of `copyWALSuffix`: `dst` is what the new log has above `baseIndex`, so that it
gives the next entry the index `baseIndex + dst.length + 1`. -/
def copyRecords (baseIndex : Nat) (untilIndex : Option Nat) (transform : Entry → Entry) :
    List Entry → List Entry → Nat → Except ExportError (List Entry × Nat)
  | [], dst, last => .ok (dst, last)
  | rec :: src, dst, last =>
    if untilIndex.any (· < rec.index) then .ok (dst, last)
    else if baseIndex + dst.length + 1 ≠ rec.index then
      .error (.indexMismatch (baseIndex + dst.length + 1) rec.index)
    else copyRecords baseIndex untilIndex transform src (dst ++ [transform rec]) rec.index

/-- `untilIndex` is `none` for `UntilLatest`. -/
def copyWALSuffix (src : List Entry) (baseIndex : Nat) (untilIndex : Option Nat)
    (transform : Entry → Entry) : Except ExportError (List Entry × Nat) :=
  copyRecords baseIndex untilIndex transform (src.filter (baseIndex + 1 ≤ ·.index)) [] baseIndex

structure Source where
  lastIncludedIndex : Nat
  lastIncludedTerm : Nat
  configuration : Configuration
  wal : List Entry
  deriving DecidableEq, Repr

structure BackupDir where
  lastIncludedIndex : Nat
  lastIncludedTerm : Nat
  configuration : Configuration
  walEntries : List Entry
  walUntilIndex : Nat
  deriving DecidableEq, Repr

def exportSource (src : Source) (untilIndex : Option Nat) : Except ExportError BackupDir :=
  if untilIndex.any (· < src.lastIncludedIndex) then
    .error (.untilBeforeBase (untilIndex.getD 0) src.lastIncludedIndex)
  else
    match copyWALSuffix src.wal src.lastIncludedIndex untilIndex id with
    | .error e => .error e
    | .ok (entries, walUntil) =>
      .ok ⟨src.lastIncludedIndex, src.lastIncludedTerm, src.configuration, entries, walUntil⟩

def handleBackup (c : Core) (store : Store) (continuous : Bool) : Except ExportError BackupDir :=
  exportSource
    ⟨c.snapshotIndex, if c.snapshotIndex = 0 then 0 else c.snapshotTerm,
      (c.configAt c.snapshotIndex).1, store.entries⟩
    (if continuous then none else some c.snapshotIndex)

/-! ## What is copied -/

theorem copyRecords_latest {baseIndex : Nat} (transform : Entry → Entry) {src dst : List Entry}
    (last : Nat) (h : ∀ k e, src[k]? = some e → e.index = baseIndex + dst.length + k + 1) :
    ∃ last', copyRecords baseIndex none transform src dst last =
      .ok (dst ++ src.map transform, last') := by
  induction src generalizing dst last with
  | nil => exact ⟨last, by simp [copyRecords]⟩
  | cons rec src ih =>
    have hrec := h 0 rec rfl
    obtain ⟨last', hlast⟩ := @ih (dst ++ [transform rec]) rec.index (fun k e he => by
      have := h (k + 1) e (by simpa using he)
      simp only [List.length_append, List.length_singleton]
      omega)
    refine ⟨last', ?_⟩
    rw [copyRecords, Option.any_none, if_neg (by simp), if_neg (by omega), hlast]
    simp

theorem handleBackup_continuous {K : Entry → Prop} {c : Core} {store : Store} {ℓ : List Entry}
    (h : c.Backed K ℓ) (hstore : store.entries = c.log) :
    ∃ b, handleBackup c store true = .ok b ∧ b.lastIncludedIndex = c.snapshotIndex ∧
      b.lastIncludedTerm = termAt ℓ c.snapshotIndex ∧ b.walEntries = c.log := by
  have hindex : ∀ k e, c.log[k]? = some e → e.index = c.snapshotIndex + k + 1 := by
    intro k e he
    rw [h.shows.log, List.getElem?_drop] at he
    exact h.indexed _ e he
  have hall : c.log.filter (fun e => c.snapshotIndex + 1 ≤ e.index) = c.log := by
    refine List.filter_eq_self.mpr fun e he => ?_
    obtain ⟨k, hk⟩ := List.mem_iff_getElem?.mp he
    have := hindex k e hk
    simp only [decide_eq_true_eq]
    omega
  obtain ⟨last, hcopy⟩ := @copyRecords_latest c.snapshotIndex id c.log [] c.snapshotIndex
    (by simpa using hindex)
  have hterm : (if c.snapshotIndex = 0 then 0 else c.snapshotTerm) = termAt ℓ c.snapshotIndex := by
    split
    case isTrue hzero => rw [hzero]; rfl
    case isFalse => exact h.shows.boundary
  refine ⟨⟨c.snapshotIndex, termAt ℓ c.snapshotIndex, (c.configAt c.snapshotIndex).1, c.log, last⟩,
    ?_, rfl, rfl, rfl⟩
  have hwal : copyWALSuffix c.log c.snapshotIndex none id = .ok (c.log, last) := by
    rw [copyWALSuffix, hall, hcopy, List.map_id, List.nil_append]
  simp [handleBackup, exportSource, hstore, hwal, hterm]

/-! ## Committed history -/

/-- The base snapshot and the log of `b` make up a sequence of entries that are committed
in `s`, from the first one on. -/
def CommittedPrefix (s : Cluster) (b : BackupDir) : Prop :=
  ∃ ℓ, Indexed ℓ ∧ (∀ e ∈ ℓ, s.Reported e) ∧ b.lastIncludedIndex ≤ ℓ.length ∧
    b.lastIncludedTerm = termAt ℓ b.lastIncludedIndex ∧ b.walEntries = ℓ.drop b.lastIncludedIndex

/-- The cluster has committed another entry in the place of one of `b`. -/
def Discards (s : Cluster) (b : BackupDir) : Prop :=
  ∃ e ∈ b.walEntries, ∃ e', s.Reported e' ∧ e'.index = e.index ∧ e' ≠ e

def threeVoters : Configuration := ⟨[⟨[1], []⟩, ⟨[2], []⟩, ⟨[3], []⟩], []⟩

/-- Node `n` is elected in `term` by the vote of `voter`, with nothing in its log. -/
def election (n voter : NodeID) (term : Nat) : List Act :=
  [.electionTimeout n, .persist n, .persist n,
    .deliver ⟨n, voter, term, .requestVoteRequest 0 0⟩, .persist voter, .persist voter,
    .deliver ⟨voter, n, term, .requestVoteResponse true⟩]

def proposal (n : NodeID) (data : Bytes) : List Act := [.propose n data, .persist n, .persist n]

/-- The first entry of the leader `n` is replicated to `peer` and committed. -/
def commitment (n peer : NodeID) (term : Nat) (data : Bytes) : List Act :=
  [.deliver ⟨n, peer, term, .appendEntriesRequest 0 0 [⟨1, term, .normal, data⟩] 0⟩,
    .persist peer, .persist peer,
    .deliver ⟨peer, n, term, .appendEntriesResponse true 1 0 0⟩]

def startAll : List Act := [.start [1], .start [2], .start [3]]

end ChronicleDB.Backup
