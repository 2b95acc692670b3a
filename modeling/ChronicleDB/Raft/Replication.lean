import ChronicleDB.Raft.Votes

/-!
# What a step can do to the log

Every input but a completion keeps the log, appends an entry of the leader, takes
over the entries of a request or replaces the log by a snapshot.  With each of
these go the acknowledgements that leave at once and the items that wait for the
request to be stored.
-/

namespace ChronicleDB.Raft

open Foundation List

variable {c c' : Core} {out : Output} {m : Message} {r : Core × Output}

def PersistRequest.Idle (pr : PersistRequest) : Prop := pr.truncateFrom = none ∧ pr.entries = []

namespace Core

/-! ## The scan of a request -/

/-- The scan passes over `kept`, whose entries the log holds with the same terms. -/
structure Scanned (c : Core) (first : Nat) (entries : List Entry) (truncateFrom : Option Nat)
    (new kept : List Entry) : Prop where
  parts : entries = kept ++ new
  within : kept ≠ [] → first + kept.length ≤ c.lastIndex + 1
  terms : ∀ k e, kept[k]? = some e → c.termAt (first + k) = e.term
  unchanged : new = [] → truncateFrom = none
  fresh : new ≠ [] → truncateFrom = none → c.lastIndex < first + kept.length
  conflict : ∀ idx, truncateFrom = some idx → idx = first + kept.length ∧ idx ≤ c.lastIndex ∧
    c.commitIndex < idx ∧ ∃ e rest, new = e :: rest ∧ c.termAt idx ≠ e.term

theorem scanEntries_spec {entries new : List Entry} {truncateFrom : Option Nat} :
    ∀ {first : Nat}, c.scanEntries first entries = .ok (truncateFrom, new) →
      ∃ kept, c.Scanned first entries truncateFrom new kept := by
  induction entries with
  | nil =>
    intro first h
    cases h
    exact ⟨[], rfl, by simp, by simp, by simp, by simp, by simp⟩
  | cons e es ih =>
    intro first h
    rw [scanEntries] at h
    split at h
    case isTrue hsame =>
      obtain ⟨kept, hk⟩ := ih h
      refine ⟨e :: kept, by simp [hk.parts], fun _ => ?_, fun k e' he' => ?_, hk.unchanged, fun hn ht => ?_,
        fun idx hidx => ?_⟩
      · by_cases hnil : kept = []
        · simp [hnil]
          omega
        · have := hk.within hnil
          simp only [length_cons]
          omega
      · cases k with
        | zero =>
          cases he'
          exact hsame.2
        | succ k =>
          have := hk.terms k e' (by simpa using he')
          rwa [Nat.add_right_comm] at this
      · have := hk.fresh hn ht
        simp only [length_cons]
        omega
      · have := hk.conflict idx hidx
        simp only [length_cons]
        exact ⟨by omega, this.2⟩
    case isFalse hsame =>
      split at h
      case isTrue hle =>
        split at h
        · cases h
        case isFalse hcommit =>
          cases h
          refine ⟨[], rfl, by simp, by simp, by simp, by simp, fun idx hidx => ?_⟩
          cases hidx
          exact ⟨rfl, hle, by omega, e, es, rfl, fun ht => hsame ⟨hle, ht⟩⟩
      case isFalse hle =>
        cases h
        refine ⟨[], rfl, by simp, by simp, by simp, fun _ _ => ?_, by simp⟩
        simp only [length_nil]
        omega

/-! ## Moves of the log -/

inductive LogMove (c : Core) : Input → Core → Output → Prop where
  | keep {input c' out}
      (log : c'.log = c.log) (boundary : SameBoundary c c')
      (idle : ∀ pr, out.persistRequest = some pr → pr.Idle)
      -- a request that starts below the boundary is acknowledged up to the boundary
      (acks : ∀ m ∈ out.messages, ∀ i, m.Acks i → i = c.snapshotIndex ∧ m.term = c'.currentTerm)
      (pending : ∀ p ∈ c'.pending, p.isGrant = true ∨ p ∈ c.pending) : LogMove c input c' out
  | append {data c' out e}
      (leader : c.role = .leader) (index : e.index = c.lastIndex + 1)
      (entryTerm : e.term = c.currentTerm) (term : c'.currentTerm = c.currentTerm)
      (role : c'.role = .leader)
      (log : c'.log = c.log ++ [e]) (boundary : SameBoundary c c')
      (stores : out.persistRequest = some ⟨c'.persistSeq, none, none, [e]⟩)
      (acks : ∀ m ∈ out.messages, ∀ i, ¬ m.Acks i)
      (pending : c'.pending =
        c.pending ++ [⟨c'.persistSeq, c.currentTerm, .selfMatch e.index e.term⟩]) :
      LogMove c (.propose data) c' out
  | accept {msg c' out prev entries commit truncateFrom new}
      (accepts : c.Accepts msg prev entries commit truncateFrom new)
      (log : c'.log = c.logWith truncateFrom new) (boundary : SameBoundary c c')
      (term : c'.currentTerm = msg.term) (role : c'.role = .follower)
      (stores : ∀ pr, out.persistRequest = some pr →
        pr.seq = c'.persistSeq ∧ pr.truncateFrom = truncateFrom ∧ pr.entries = new)
      (idle : out.persistRequest = none → truncateFrom = none ∧ new = [] ∧
        c.currentTerm = msg.term)
      (acks : ∀ m ∈ out.messages, ∀ i, m.Acks i → out.persistRequest = none ∧
        i = prev + entries.length ∧ m.term = msg.term)
      (pending : ∀ p ∈ c'.pending, p ∈ c.pending ∨ out.persistRequest.isSome = true ∧
        p.seq = c'.persistSeq ∧ p.term = msg.term ∧
        (p.kind = .appendAck msg.sender (prev + entries.length)
            (c'.termAt (prev + entries.length)) ∨
          p.kind = .commitAdvance (min commit (prev + entries.length))
            (c'.termAt (min commit (prev + entries.length))))) :
      LogMove c (.message msg) c' out
  | install {msg c' out index term cfg hasCfg}
      (body : msg.body = .installSnapshotRequest index term cfg hasCfg)
      (msgTerm : c.currentTerm ≤ msg.term)
      (above : c.snapshotIndex < index) (new : c.commitIndex < index)
      (log : c'.log = []) (snapshotIndex : c'.snapshotIndex = index)
      (snapshotTerm : c'.snapshotTerm = term) (snapshotConfig : c'.snapshotConfig = cfg)
      (snapshotHasConfig : c'.snapshotHasConfig = hasCfg)
      (term : c'.currentTerm = msg.term) (role : c'.role = .follower)
      (idle : ∀ pr, out.persistRequest = some pr → pr.Idle)
      (acks : ∀ m ∈ out.messages, ∀ i, ¬ m.Acks i)
      (pending : c'.pending = []) : LogMove c (.message msg) c' out

/-! ## Steps that keep the log -/

theorem Replicates.not_acks (h : c.Replicates m) (i : Nat) :
    ¬ m.Acks i := by
  rintro ⟨a, b, hack⟩
  rcases h.body with ⟨next, -, hbody⟩ | ⟨hbody, -⟩
  all_goals
    rw [hbody] at hack
    cases hack

theorem Refuses.not_acks (h : c.Refuses m) (i : Nat) : ¬ m.Acks i := by
  rintro ⟨a, b, hack⟩
  rcases h.body with hbody | ⟨_, _, hbody⟩ | hbody
  all_goals
    rw [hbody] at hack
    cases hack

theorem canvass_not_acks (h : m ∈ c.canvass.messages) (i : Nat) :
    ¬ m.Acks i := by
  obtain ⟨id, -, rfl⟩ := mem_map.mp h
  simp [Message.Acks]

theorem hardStateRequest_idle (c : Core) : c.hardStateRequest.Idle := ⟨rfl, rfl⟩

theorem TermStored.idle {msg : Message} {seq : Nat} {pr : Option PersistRequest}
    (h : c.TermStored msg seq pr) : ∀ q, pr = some q → q.Idle := by
  cases h with
  | raised => exact fun q hq => by cases hq; exact ⟨rfl, rfl⟩
  | same => simp

theorem mem_awaited {msg : Message} {last commit : Nat} {p : PendingItem}
    (h : p ∈ c.awaited msg last commit) : p.seq = c.persistSeq ∧ p.term = c.currentTerm ∧
      (p.kind = .appendAck msg.sender last (c.termAt last) ∨
        p.kind = .commitAdvance (min commit last) (c.termAt (min commit last))) := by
  rcases mem_append.mp h with hp | hp
  · split at hp
    · rw [mem_singleton.mp hp]
      exact ⟨rfl, rfl, .inr rfl⟩
    · cases hp
  · rw [mem_singleton.mp hp]
    exact ⟨rfl, rfl, .inl rfl⟩

/-- A step that leaves the log and its items alone, and acknowledges nothing. -/
theorem LogMove.quiet {input : Input} (log : c'.log = c.log)
    (boundary : SameBoundary c c') (pending : c'.pending = c.pending)
    (idle : ∀ pr, out.persistRequest = some pr → pr.Idle)
    (acks : ∀ m ∈ out.messages, ∀ i, ¬ m.Acks i) : LogMove c input c' out :=
  .keep log boundary idle (fun m hm i hi => absurd hi (acks m hm i))
    fun _ hp => .inr (pending ▸ hp)

theorem Outcome.logMove {input : Input} (h : c.Outcome input c' out) : LogMove c input c' out := by
  cases h with
  | ignore stores _ sent =>
    exact .quiet rfl ⟨rfl, rfl, rfl, rfl⟩ rfl (by simp [stores]) fun m hm => (sent m hm).not_acks
  | wake => exact .quiet rfl ⟨rfl, rfl, rfl, rfl⟩ rfl (by simp) (by simp)
  | campaign =>
    exact .quiet rfl ⟨rfl, rfl, rfl, rfl⟩ rfl
      (fun pr hpr => by cases hpr; exact hardStateRequest_idle _) fun _ => canvass_not_acks
  | campaignWon _ _ _ sent =>
    refine .quiet rfl ⟨rfl, rfl, rfl, rfl⟩ rfl
      (fun pr hpr => by cases hpr; exact hardStateRequest_idle _) fun m hm => ?_
    exact (mem_append.mp hm).elim canvass_not_acks fun hm => (sent m hm).not_acks
  | count => exact .quiet rfl ⟨rfl, rfl, rfl, rfl⟩ rfl (by simp) (by simp)
  | countWon _ _ _ _ sent =>
    exact .quiet rfl ⟨rfl, rfl, rfl, rfl⟩ rfl (by simp) fun m hm => (sent m hm).not_acks
  | adopt _ stores _ sent =>
    refine .quiet rfl ⟨rfl, rfl, rfl, rfl⟩ rfl (fun pr hpr => ?_) fun m hm => (sent m hm).not_acks
    rw [stores] at hpr
    cases hpr
    exact hardStateRequest_idle _
  | cast =>
    refine .keep rfl ⟨rfl, rfl, rfl, rfl⟩ (fun pr hpr => by cases hpr; exact ⟨rfl, rfl⟩) (by simp)
      fun p hp => (mem_append.mp hp).symm.imp (fun hp => ?_) id
    rw [mem_singleton.mp hp]
    rfl
  | replicate _ stores _ sent =>
    exact .quiet rfl ⟨rfl, rfl, rfl, rfl⟩ rfl (by simp [stores]) fun m hm => (sent m hm).not_acks
  | append leads core _ sent =>
    subst core
    exact .append leads rfl rfl rfl leads rfl ⟨rfl, rfl, rfl, rfl⟩ rfl
      (fun m hm => (sent m hm).not_acks) rfl
  | record _ _ _ frame stores _ _ sent =>
    exact .quiet frame.log frame.boundary frame.pending (by simp [stores]) fun m hm =>
      (sent m hm).2.not_acks
  | reply _ answers stores =>
    refine .keep rfl ⟨rfl, rfl, rfl, rfl⟩ stores.idle (fun m hm i hi => ?_) fun _ hp => .inr hp
    obtain ⟨a, b, hi⟩ := hi
    rw [mem_singleton.mp hm] at hi ⊢
    cases answers with
    | known =>
      cases hi
      exact ⟨rfl, rfl⟩
    | reject => cases hi
    | installed => cases hi
  | store accepts core _ items =>
    subst core
    refine .accept accepts rfl ⟨rfl, rfl, rfl, rfl⟩ rfl rfl (fun pr hpr => ?_) nofun nofun
      fun p hp => (mem_append.mp hp).imp (fun hp => items hp) fun hp => ⟨rfl, mem_awaited hp⟩
    cases hpr
    exact ⟨rfl, rfl, rfl⟩
  | agree accepts equal =>
    refine .accept accepts (append_nil _).symm ⟨rfl, rfl, rfl, rfl⟩ rfl rfl nofun
      (fun _ => ⟨rfl, rfl, equal.symm⟩) (fun m hm i hi => ?_) fun _ hp => .inl hp
    obtain ⟨a, b, hi⟩ := hi
    rw [mem_singleton.mp hm] at hi ⊢
    cases hi
    exact ⟨rfl, rfl, rfl⟩
  | install body msgTerm above new stores =>
    exact .install body msgTerm above new rfl rfl rfl rfl rfl rfl rfl stores.idle
      (by simp [Message.Acks]) rfl

/-! ## Completed writes -/

/-- The message that `p` turns into, if `c` still stands by it. -/
inductive Emits (c : Core) (p : PendingItem) : Message → Prop where
  | grant {candidate} (kind : p.kind = .voteGrant candidate) (term : c.currentTerm = p.term)
      (vote : c.votedFor = candidate) :
      Emits c p ⟨c.cfg.id, candidate, c.currentTerm, .requestVoteResponse true⟩
  | ack {receiver index entryTerm} (kind : p.kind = .appendAck receiver index entryTerm)
      (present : c.entryStillPresent index entryTerm = true) :
      Emits c p ⟨c.cfg.id, receiver, c.currentTerm, .appendEntriesResponse true index 0 0⟩

theorem Frame.emits (h : Frame c c') {p : PendingItem} (hm : Emits c' p m) :
    Emits c p m := by
  cases hm with
  | grant kind term vote =>
    rw [h.cfg, h.currentTerm]
    exact .grant kind (h.currentTerm ▸ term) (h.votedFor ▸ vote)
  | ack kind present =>
    rw [h.cfg, h.currentTerm]
    refine .ack kind ?_
    rwa [entryStillPresent, h.boundary.1, h.lastIndex,
      termAt_congr h.log h.boundary.1 h.boundary.2] at present

/-- The commit index of `r` is that of `c`, or has moved over entries that are reported. -/
structure Advances (c : Core) (out : Output) (r : Core × Output) : Prop where
  within : r.1.commitIndex = c.commitIndex ∨
    c.commitIndex < r.1.commitIndex ∧ r.1.commitIndex ≤ c.lastIndex
  reports : ∀ e, e ∈ r.2.committedEntries ↔ e ∈ out.committedEntries ∨ c.Between r.1.commitIndex e

theorem not_between_self {e : Entry} : ¬ c.Between c.commitIndex e := by
  rintro ⟨i, -, hlt, hle, -⟩
  omega

theorem Advances.refl (c : Core) (out : Output) : Advances c out (c, out) :=
  ⟨.inl rfl, fun _ => ⟨.inl, fun h => h.resolve_right not_between_self⟩⟩

theorem Advances.of_newlyCommitted {n : Nat}
    (hlt : c.commitIndex < n) (hn : n ≤ c.lastIndex) (hcommit : r.1.commitIndex = n)
    (hreports : r.2.committedEntries = out.committedEntries ++ c.newlyCommitted n) :
    Advances c out r := by
  refine ⟨.inr ⟨hcommit ▸ hlt, hcommit ▸ hn⟩, fun e => ?_⟩
  rw [hreports, mem_append, mem_newlyCommitted, hcommit]

theorem Advances.of_frame {c₁ : Core}
    (h : Advances c₁ out r) (hframe : Frame c c₁) (hcommit : c₁.commitIndex = c.commitIndex) :
    Advances c out r := by
  obtain ⟨hwithin, hreports⟩ := h
  rw [hcommit, hframe.lastIndex] at hwithin
  refine ⟨hwithin, fun e => ?_⟩
  rw [hreports e, Between, hframe.boundary.1, hcommit, hframe.log, Between]

theorem Advances.trans {r' : Core × Output} (h : Advances c out r)
    (h' : Advances r.1 r.2 r') (hframe : Frame c r.1) : Advances c out r' := by
  have hlast := hframe.lastIndex
  refine ⟨?_, fun e => ?_⟩
  · rcases h.within with hc | hc <;> rcases h'.within with hc' | hc' <;> omega
  · have hle : c.commitIndex ≤ r.1.commitIndex ∧ r.1.commitIndex ≤ r'.1.commitIndex := by
      rcases h.within with hc | hc <;> rcases h'.within with hc' | hc' <;> omega
    rw [h'.reports e, h.reports e, or_assoc]
    refine or_congr_right ?_
    simp only [Between, hframe.boundary.1, hframe.log]
    constructor
    · rintro (⟨i, h1, h2, h3, h4⟩ | ⟨i, h1, h2, h3, h4⟩)
      · exact ⟨i, h1, h2, by omega, h4⟩
      · exact ⟨i, h1, by omega, h3, h4⟩
    · rintro ⟨i, h1, h2, h3, h4⟩
      by_cases hi : i ≤ r.1.commitIndex
      · exact .inl ⟨i, h1, h2, hi, h4⟩
      · exact .inr ⟨i, h1, by omega, h3, h4⟩

theorem advanceFollowerCommit_frame (c : Core) (n : Nat) (out : Output) :
    Frame c (c.advanceFollowerCommit n out).1 ∧
      (c.advanceFollowerCommit n out).2.messages = out.messages ∧
      (c.advanceFollowerCommit n out).2.persistRequest = out.persistRequest ∧
      Advances c out (c.advanceFollowerCommit n out) := by
  obtain ⟨-, h⟩ | ⟨hlt, h⟩ := c.advanceFollowerCommit_cases n out
  · rw [h]
    exact ⟨.refl c, rfl, rfl, .refl c out⟩
  · rw [h]
    exact ⟨⟨⟨_, _, _, rfl⟩, .inl ⟨rfl, rfl⟩⟩, rfl, rfl,
      .of_newlyCommitted hlt (Nat.min_le_right _ _) rfl rfl⟩

theorem advanceLeaderCommit_frame (c : Core) (out : Output) :
    Frame c (c.advanceLeaderCommit out).1 ∧
      (c.advanceLeaderCommit out).2.messages = out.messages ∧
      (c.advanceLeaderCommit out).2.persistRequest = out.persistRequest ∧
      Advances c out (c.advanceLeaderCommit out) := by
  obtain h | ⟨n, hlt, hn, -, -, h⟩ := c.advanceLeaderCommit_cases out
  · rw [h]
    exact ⟨.refl c, rfl, rfl, .refl c out⟩
  · rw [h]
    obtain h | ⟨hlead, -, h⟩ := maybeStepDown_cases { c with commitIndex := n }
      { out with committedEntries := out.committedEntries ++ c.newlyCommitted n }
    · rw [h]
      exact ⟨⟨⟨_, _, _, rfl⟩, .inl ⟨rfl, rfl⟩⟩, rfl, rfl, .of_newlyCommitted hlt hn rfl rfl⟩
    · rw [h]
      exact ⟨⟨⟨_, _, _, rfl⟩, .inr ⟨hlead, rfl⟩⟩, rfl, rfl, .of_newlyCommitted hlt hn rfl rfl⟩

structure Releases (items : List PendingItem) (r r' : Core × Output) : Prop where
  frame : Frame r.1 r'.1
  messages : ∀ m ∈ r'.2.messages, m ∈ r.2.messages ∨ ∃ p ∈ items, Emits r.1 p m
  persistRequest : r'.2.persistRequest = r.2.persistRequest
  advances : Advances r.1 r.2 r'
  commit : r'.1.commitIndex = r.1.commitIndex ∨ ∃ p ∈ items, p.isGrant = false

theorem releaseItem_releases (r : Core × Output) (p : PendingItem) :
    Releases [p] r (releaseItem r p) := by
  have hsame : Releases [p] r r := ⟨.refl _, fun m hm => .inl hm, rfl, .refl _ _, .inl rfl⟩
  have hemit : ∀ m : Message, Emits r.1 p m →
      Releases [p] r (r.1, { r.2 with messages := r.2.messages ++ [m] }) := by
    intro m hm
    refine ⟨.refl _, fun m' hm' => ?_, rfl,
      ⟨.inl rfl, fun _ => ⟨.inl, fun h => h.resolve_right not_between_self⟩⟩, .inl rfl⟩
    rcases mem_append.mp hm' with hm' | hm'
    · exact .inl hm'
    · rw [mem_singleton.mp hm']
      exact .inr ⟨p, by simp, hm⟩
  unfold releaseItem
  dsimp only
  split
  case h_1 candidate hkind =>
    split
    case isTrue h => exact hemit _ (.grant hkind h.1 h.2)
    case isFalse => exact hsame
  case h_2 receiver index entryTerm hkind =>
    split
    case isTrue h => exact hemit _ (.ack hkind h)
    case isFalse => exact hsame
  case h_3 index entryTerm hkind =>
    split
    case isTrue h =>
      obtain ⟨hframe, hms, hpr, hadv⟩ := r.1.advanceFollowerCommit_frame index r.2
      exact ⟨hframe, fun m hm => .inl (hms ▸ hm), hpr, hadv,
        .inr ⟨p, by simp, by simp [PendingItem.isGrant, hkind]⟩⟩
    case isFalse => exact hsame
  case h_4 index entryTerm hkind =>
    split
    case isTrue h =>
      generalize hc₁ : (if index > r.1.matchIndex.get r.1.cfg.id then
        { r.1 with matchIndex := r.1.matchIndex.set r.1.cfg.id index } else r.1) = c₁
      have h₁ : Frame r.1 c₁ ∧ c₁.commitIndex = r.1.commitIndex := by
        subst hc₁
        split
        · exact ⟨⟨⟨_, _, _, rfl⟩, .inl ⟨rfl, rfl⟩⟩, rfl⟩
        · exact ⟨.refl _, rfl⟩
      obtain ⟨hframe, hms, hpr, hadv⟩ := c₁.advanceLeaderCommit_frame r.2
      exact ⟨h₁.1.trans hframe, fun m hm => .inl (hms ▸ hm), hpr, hadv.of_frame h₁.1 h₁.2,
        .inr ⟨p, by simp, by simp [PendingItem.isGrant, hkind]⟩⟩
    case isFalse => exact hsame

theorem foldl_releaseItem_releases (items : List PendingItem) (r : Core × Output) :
    Releases items r (items.foldl releaseItem r) := by
  induction items generalizing r with
  | nil => exact ⟨.refl _, fun m hm => .inl hm, rfl, .refl _ _, .inl rfl⟩
  | cons p items ih =>
    have hp := releaseItem_releases r p
    have hitems := ih (releaseItem r p)
    refine ⟨hp.frame.trans hitems.frame, fun m hm => ?_,
      hitems.persistRequest.trans hp.persistRequest, hp.advances.trans hitems.advances hp.frame, ?_⟩
    · rcases hitems.messages m hm with hm | ⟨q, hq, hm⟩
      · rcases hp.messages m hm with hm | ⟨q, hq, hm⟩
        · exact .inl hm
        · exact .inr ⟨q, by rw [mem_singleton.mp hq]; simp, hm⟩
      · exact .inr ⟨q, mem_cons_of_mem _ hq, hp.frame.emits hm⟩
    · rcases hitems.commit with hsame | ⟨q, hq, hgrant⟩
      · rcases hp.commit with hsame' | ⟨q, hq, hgrant⟩
        · exact .inl (hsame.trans hsame')
        · exact .inr ⟨q, by rw [mem_singleton.mp hq]; simp, hgrant⟩
      · exact .inr ⟨q, mem_cons_of_mem _ hq, hgrant⟩

def completed (c : Core) (seq : Nat) : List PendingItem :=
  c.pending.filter fun p => p.seq ≤ max c.persistedSeq seq

theorem handlePersistenceComplete_spec (c : Core) (seq : Nat) :
    Frame { c with
        persistedSeq := max c.persistedSeq seq
        pending := c.pending.filter fun p => max c.persistedSeq seq < p.seq }
      (c.handlePersistenceComplete seq).1 ∧
    (∀ m ∈ (c.handlePersistenceComplete seq).2.messages, ∃ p ∈ c.completed seq, Emits c p m) ∧
    (c.handlePersistenceComplete seq).2.persistRequest = none ∧
    Advances c {} (c.handlePersistenceComplete seq) ∧
    ((c.handlePersistenceComplete seq).1.commitIndex = c.commitIndex ∨
      ∃ p ∈ c.completed seq, p.isGrant = false) := by
  have h := foldl_releaseItem_releases (c.completed seq)
    ({ c with persistedSeq := max c.persistedSeq seq }, {})
  refine ⟨?_, fun m hm => ?_, h.persistRequest, ⟨h.advances.within, h.advances.reports⟩, h.commit⟩
  · obtain ⟨⟨leaderID, nx, mx, hcore⟩, hrole⟩ := h.frame
    refine ⟨⟨leaderID, nx, mx, ?_⟩, hrole⟩
    unfold handlePersistenceComplete
    dsimp only [completed] at hcore ⊢
    rw [hcore]
  · rcases h.messages m hm with hm | ⟨p, hp, hm⟩
    · cases hm
    · refine ⟨p, hp, ?_⟩
      cases hm with
      | grant kind term vote => exact .grant kind term vote
      | ack kind present => exact .ack kind present

end Core

end ChronicleDB.Raft
