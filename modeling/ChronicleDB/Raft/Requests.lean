import ChronicleDB.Raft.Replication

/-!
# Requests and messages of a step

A step makes at most one `PersistRequest`, under the next number, and its messages
are of few kinds: no vote is granted before the hard state is stored.
-/

namespace ChronicleDB.Raft.Core

open Foundation

/-! ## Request numbers -/

def Numbered (c c' : Core) (out : Output) : Prop :=
  c'.cfg = c.cfg ∧ c'.persistedSeq = c.persistedSeq ∧
    (out.persistRequest = none ∧ c'.persistSeq = c.persistSeq ∨
      ∃ pr, out.persistRequest = some pr ∧ pr.seq = c.persistSeq + 1 ∧
        c'.persistSeq = c.persistSeq + 1)

variable {c c' : Core} {m : Message}

theorem TermStored.numbered {msg : Message} {out : Output} {seq : Nat} {pr : Option PersistRequest}
    (h : c.TermStored msg seq pr) (hpr : out.persistRequest = pr) (hseq : c'.persistSeq = seq)
    (hcfg : c'.cfg = c.cfg) (hseq' : c'.persistedSeq = c.persistedSeq) : Numbered c c' out := by
  cases h with
  | raised => exact ⟨hcfg, hseq', .inr ⟨_, hpr, rfl, hseq⟩⟩
  | same => exact ⟨hcfg, hseq', .inl ⟨hpr, hseq⟩⟩

theorem Outcome.numbered {input : Input} {out : Output} (h : c.Outcome input c' out) :
    Numbered c c' out := by
  cases h with
  | ignore stores => exact ⟨rfl, rfl, .inl ⟨stores, rfl⟩⟩
  | adopt _ stores => exact ⟨rfl, rfl, .inr ⟨_, stores, rfl, rfl⟩⟩
  | replicate _ stores => exact ⟨rfl, rfl, .inl ⟨stores, rfl⟩⟩
  | append _ core =>
    subst core
    exact ⟨rfl, rfl, .inr ⟨_, rfl, rfl, rfl⟩⟩
  | record _ _ _ frame stores =>
    exact ⟨frame.cfg, frame.persistedSeq, .inl ⟨stores, frame.persistSeq⟩⟩
  | reply _ _ stores => exact stores.numbered rfl rfl rfl rfl
  | install _ _ _ _ stores => exact stores.numbered rfl rfl rfl rfl
  | store _ core =>
    subst core
    exact ⟨rfl, rfl, .inr ⟨_, rfl, rfl, rfl⟩⟩
  | wake => exact ⟨rfl, rfl, .inl ⟨rfl, rfl⟩⟩
  | count => exact ⟨rfl, rfl, .inl ⟨rfl, rfl⟩⟩
  | countWon => exact ⟨rfl, rfl, .inl ⟨rfl, rfl⟩⟩
  | agree => exact ⟨rfl, rfl, .inl ⟨rfl, rfl⟩⟩
  | _ => exact ⟨rfl, rfl, .inr ⟨_, rfl, rfl, rfl⟩⟩

/-! ## Messages -/

inductive SentBody (c c' : Core) : Input → Body → Prop where
  | ask (term : c'.currentTerm = c.currentTerm + 1) (vote : c'.votedFor = c.cfg.id)
      (log : c'.log = c.log) (boundary : SameBoundary c c')
      (multi : c'.role = .candidate ∨ c'.role = .leader) :
      SentBody c c' .electionTimeout (.requestVoteRequest c'.lastIndex c'.lastTerm)
  | refuseVote {input} : SentBody c c' input (.requestVoteResponse false)
  | replicate {input m} (leads : c'.role = .leader) (sent : c'.Replicates m) :
      SentBody c c' input m.body
  | ack {msg prev prevTerm entries commit i}
      (body : msg.body = .appendEntriesRequest prev prevTerm entries commit)
      (recognized : c.currentTerm ≤ msg.term) (term : c'.currentTerm = msg.term) :
      SentBody c c' (.message msg) (.appendEntriesResponse true i 0 0)
  | reject {input a b} : SentBody c c' input (.appendEntriesResponse false 0 a b)
  | installed {msg index term cfg hasCfg i}
      (body : msg.body = .installSnapshotRequest index term cfg hasCfg)
      (recognized : c.currentTerm ≤ msg.term) (term : c'.currentTerm = msg.term)
      (known : i ≤ max c'.snapshotIndex c'.commitIndex) :
      SentBody c c' (.message msg) (.installSnapshotResponse true i)
  | notInstalled {input} : SentBody c c' input (.installSnapshotResponse false 0)

structure Sent (c : Core) (input : Input) (c' : Core) (m : Message) : Prop where
  sender : m.sender = c.cfg.id
  term : m.term = c'.currentTerm
  body : SentBody c c' input m.body

theorem Replicates.sent (h : c'.Replicates m) (c : Core) (hcfg : c'.cfg = c.cfg)
    (leads : c'.role = .leader) (input : Input) : Sent c input c' m :=
  ⟨by rw [h.sender, hcfg], h.term, .replicate leads h⟩

theorem Refuses.sent (h : c'.Refuses m) (c : Core) (hcfg : c'.cfg = c.cfg) (input : Input) :
    Sent c input c' m := by
  refine ⟨by rw [h.sender, hcfg], h.term, ?_⟩
  rcases h.body with hbody | ⟨a, b, hbody⟩ | hbody
  · exact hbody ▸ .refuseVote
  · exact hbody ▸ .reject
  · exact hbody ▸ .notInstalled

theorem sent_of_canvass (h : m ∈ c.candidacy.canvass.messages)
    (term : c'.currentTerm = c.currentTerm + 1) (vote : c'.votedFor = c.cfg.id)
    (log : c'.log = c.log) (boundary : SameBoundary c c')
    (multi : c'.role = .candidate ∨ c'.role = .leader) : Sent c .electionTimeout c' m := by
  obtain ⟨id, -, rfl⟩ := List.mem_map.mp h
  have hask := SentBody.ask term vote log boundary multi
  rw [lastIndex, lastTerm, log, boundary.index, boundary.term] at hask
  exact ⟨rfl, term.symm, hask⟩

theorem Outcome.sent {input : Input} {out : Output} (h : c.Outcome input c' out) :
    ∀ m ∈ out.messages, Sent c input c' m := by
  intro m hm
  cases h with
  | ignore _ _ sent => exact (sent m hm).sent c rfl _
  | wake => cases hm
  | campaign => exact sent_of_canvass hm rfl rfl rfl ⟨rfl, rfl, rfl, rfl⟩ (.inl rfl)
  | campaignWon _ _ _ sent =>
    rcases List.mem_append.mp hm with hm | hm
    · exact sent_of_canvass hm rfl rfl rfl ⟨rfl, rfl, rfl, rfl⟩ (.inr rfl)
    · exact (sent m hm).sent c rfl rfl _
  | count => cases hm
  | countWon _ _ _ _ sent => exact (sent m hm).sent c rfl rfl _
  | adopt _ _ _ sent => exact (sent m hm).sent c rfl _
  | cast => cases hm
  | @replicate _ nx _ leads _ _ sent =>
    have : { c with nextIndex := nx }.Replicates m :=
      ⟨(sent m hm).sender, (sent m hm).term, (sent m hm).body⟩
    exact this.sent c rfl leads _
  | append leads core _ sent =>
    refine (sent m hm).sent c ?_ ?_ _
    · rw [core]
    · rw [core]
      exact leads
  | record _ _ _ frame _ _ _ sent => exact (sent m hm).2.sent c frame.cfg (sent m hm).1 _
  | reply term answers =>
    rw [List.mem_singleton.mp hm]
    refine ⟨rfl, rfl, ?_⟩
    cases answers with
    | reject => exact .reject
    | known body => exact .ack body term rfl
    | installed body => exact .installed body term rfl le_rfl
  | store => cases hm
  | agree accepts =>
    rw [List.mem_singleton.mp hm]
    exact ⟨rfl, rfl, .ack accepts.body accepts.term rfl⟩
  | install body msgTerm =>
    rw [List.mem_singleton.mp hm]
    exact ⟨rfl, rfl, .installed body msgTerm rfl (le_max_left _ _)⟩

end ChronicleDB.Raft.Core
