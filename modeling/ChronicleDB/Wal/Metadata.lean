import ChronicleDB.Wal.Record

/-!
# WAL metadata records

Node identity, format version, snapshot pointer and cluster generation
(`internal/wal/metadata.go`).  The generation is written as a trailing field
only when it is nonzero, so a never finalized node writes the older layout.
-/

namespace ChronicleDB.Wal

open Foundation List

structure Metadata where
  nodeID : Bytes
  formatVersion : UInt8
  latestSnapshotIndex : Nat
  clusterGeneration : Nat
  deriving DecidableEq, Repr

def maxSupportedGeneration : Nat := 3

def encodeMetadata (m : Metadata) : Bytes :=
  m.formatVersion :: (putUint 8 m.latestSnapshotIndex ++
    (putUint 2 m.nodeID.length ++ (m.nodeID ++
      if m.clusterGeneration > 0 then putUint 4 m.clusterGeneration else [])))

inductive MetadataError where
  | tooShort (length : Nat)
  | truncatedNodeID (declared available : Nat)
  | trailingBytes (extra : Nat)
  deriving DecidableEq, Repr

def decodeMetadata (b : Bytes) : Except MetadataError Metadata :=
  if b.length < 11 then .error (.tooShort b.length)
  else
    let version := b.getD 0 0
    let snap := getUint ((b.drop 1).take 8)
    let idLen := getUint ((b.drop 9).take 2)
    if idLen > b.length - 11 then .error (.truncatedNodeID idLen (b.length - 11))
    else
      let id := (b.drop 11).take idLen
      let off := 11 + idLen
      let extra := b.length - off
      if extra = 0 then .ok ⟨id, version, snap, 0⟩
      else if extra = 4 then .ok ⟨id, version, snap, getUint ((b.drop off).take 4)⟩
      else .error (.trailingBytes extra)

/-- Metadata whose fields fit their widths on disk. -/
structure Metadata.Fits (m : Metadata) : Prop where
  nodeID_lt : m.nodeID.length < 2 ^ 16
  snapshot_lt : m.latestSnapshotIndex < 2 ^ 64
  generation_lt : m.clusterGeneration < 2 ^ 32

theorem decodeMetadata_encodeMetadata {m : Metadata} (h : m.Fits) :
    decodeMetadata (encodeMetadata m) = .ok m := by
  obtain ⟨nodeID, version, snap, gen⟩ := m
  have hid : getUint (putUint 2 nodeID.length) = nodeID.length :=
    getUint_putUint_of_lt h.nodeID_lt
  have hsnap : getUint (putUint 8 snap) = snap := getUint_putUint_of_lt h.snapshot_lt
  have hgen : getUint (putUint 4 gen) = gen := getUint_putUint_of_lt h.generation_lt
  generalize htail : (if gen > 0 then putUint 4 gen else []) = tail
  have hsplit : encodeMetadata ⟨nodeID, version, snap, gen⟩ =
      version :: (putUint 8 snap ++ (putUint 2 nodeID.length ++ (nodeID ++ tail))) := by
    rw [encodeMetadata, ← htail]
  have hlen : (encodeMetadata ⟨nodeID, version, snap, gen⟩).length =
      11 + nodeID.length + tail.length := by
    rw [hsplit]; simp; omega
  have h9 : (encodeMetadata ⟨nodeID, version, snap, gen⟩).drop 9 =
      putUint 2 nodeID.length ++ (nodeID ++ tail) := by
    rw [hsplit, show (9 : Nat) = 8 + 1 from rfl, drop_succ_cons, drop_putUint_append]
  have h11 : (encodeMetadata ⟨nodeID, version, snap, gen⟩).drop 11 =
      nodeID ++ tail := by
    rw [show (11 : Nat) = 9 + 2 from rfl, ← drop_drop, h9, drop_putUint_append]
  have hoff : (encodeMetadata ⟨nodeID, version, snap, gen⟩).drop
      (11 + nodeID.length) = tail := by
    rw [← drop_drop, h11, drop_left]
  have h1 : ((encodeMetadata ⟨nodeID, version, snap, gen⟩).drop 1).take 8 =
      putUint 8 snap := by
    rw [hsplit, drop_one, tail_cons, take_putUint_append]
  have hversion : (encodeMetadata ⟨nodeID, version, snap, gen⟩).getD 0 0 = version := by
    rw [hsplit]; rfl
  unfold decodeMetadata
  simp only [h1, h9, h11, take_putUint_append, hid, hsnap, hoff, hversion, hlen, take_left]
  rw [if_neg (by omega), if_neg (by omega)]
  have hextra : 11 + nodeID.length + tail.length - (11 + nodeID.length) =
      tail.length := by omega
  rw [hextra]
  by_cases hzero : gen > 0
  · rw [if_pos hzero] at htail
    simp [← htail, take_of_length_le, hgen]
  · rw [if_neg hzero] at htail
    have : gen = 0 := by omega
    simp [← htail, this]

end ChronicleDB.Wal
