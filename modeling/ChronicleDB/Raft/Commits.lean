import ChronicleDB.Raft.Replication

/-!
# What a step can do to the commit index

A leader moves its commit index when a success of the current term arrives, a
follower when it accepts a request that needs no write, and a snapshot moves it to
its boundary.
-/

namespace ChronicleDB.Raft.Core

open Foundation

inductive CommitMove (c : Core) : Input → Core → Output → Prop where
  | keep {input c' out} (commit : c'.commitIndex = c.commitIndex)
      (applied : c'.appliedIndex = c.appliedIndex) (boundary : c'.snapshotIndex = c.snapshotIndex)
      (reports : out.committedEntries = []) : CommitMove c input c' out
  | leader {msg c' out index}
      (leads : c.role = .leader) (msgTerm : msg.term = c.currentTerm) (body : Reports msg index)
      (rule : c.Committable (c.matchAfter msg.sender index) c'.commitIndex)
      (applied : c'.appliedIndex = c.appliedIndex)
      (reports : out.committedEntries = c.newlyCommitted c'.commitIndex) :
      CommitMove c (.message msg) c' out
  | follower {msg c' out prev entries commit}
      (accepts : c.Accepts msg prev entries commit none []) (log : c'.log = c.log)
      (above : c.commitIndex < c'.commitIndex)
      (commit : c'.commitIndex = min (min commit (prev + entries.length)) c.lastIndex)
      (applied : c'.appliedIndex = c.appliedIndex)
      (reports : out.committedEntries = c.newlyCommitted c'.commitIndex) :
      CommitMove c (.message msg) c' out
  | install {msg c' out index term cfg hasCfg}
      (body : msg.body = .installSnapshotRequest index term cfg hasCfg)
      (msgTerm : c.currentTerm ≤ msg.term) (new : c.commitIndex < index)
      (snapshot : c'.snapshotIndex = index) (log : c'.log = []) (commit : c'.commitIndex = index)
      (applied : c'.appliedIndex ≤ max c.appliedIndex index)
      (reports : out.committedEntries = []) :
      CommitMove c (.message msg) c' out

theorem Outcome.commitMove {c c' : Core} {input : Input} {out : Output}
    (h : c.Outcome input c' out) : CommitMove c input c' out := by
  cases h with
  | ignore _ reports => exact .keep rfl rfl rfl reports
  | adopt _ _ reports => exact .keep rfl rfl rfl reports
  | replicate _ _ reports => exact .keep rfl rfl rfl reports
  | append _ core =>
    subst core
    exact .keep rfl rfl rfl rfl
  | record leads msgTerm body frame _ commit =>
    rcases commit with ⟨hcommit, hreports⟩ | ⟨hrule, hreports⟩
    · exact .keep hcommit frame.appliedIndex frame.boundary.1 hreports
    · exact .leader leads msgTerm body hrule frame.appliedIndex hreports
  | store _ core =>
    subst core
    exact .keep rfl rfl rfl rfl
  | agree accepts _ advances =>
    rcases advances with ⟨rfl, rfl⟩ | ⟨habove, hcommit, rfl⟩
    · exact .keep rfl rfl rfl rfl
    · exact .follower accepts rfl habove hcommit rfl rfl
  | install body msgTerm _ new =>
    exact .install body msgTerm new rfl rfl (Nat.max_eq_right new.le) le_rfl rfl
  | _ => exact .keep rfl rfl rfl rfl

/-- A step asks for a write or reports committed entries, never both. -/
theorem Outcome.exclusive {c c' : Core} {input : Input} {out : Output}
    (h : c.Outcome input c' out) : out.persistRequest = none ∨ out.committedEntries = [] := by
  cases h with
  | ignore stores => exact .inl stores
  | adopt _ _ reports => exact .inr reports
  | replicate _ stores => exact .inl stores
  | record _ _ _ _ stores => exact .inl stores
  | agree => exact .inl rfl
  | _ => exact .inr rfl

end ChronicleDB.Raft.Core
