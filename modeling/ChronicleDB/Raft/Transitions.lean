import ChronicleDB.Consensus.Quorum
import ChronicleDB.Raft.Votes

/-!
# Configurations that follow one another

The structural check of `classifyTransition`, what `ProposeConfigChange` appends,
and how a follower takes the entries that leaders append.
-/

namespace ChronicleDB.Raft

open Foundation Consensus List
open Snapshots (encodeConfiguration decodeConfiguration decodeConfiguration_encode
  putMember putMembers ConfigurationFits MemberFits getString_put)

variable {cfg : Configuration} {id : NodeID} {members : List Member}

/-! ## Sets of ids -/

namespace Configuration

def voterSet (cfg : Configuration) : Finset NodeID := cfg.voterIDs.toFinset

def learnerIDs (cfg : Configuration) : List NodeID := cfg.learners.map (·.id)

/-- No id is twice among the voters or twice among the learners. -/
def DuplicateFree (cfg : Configuration) : Prop := cfg.voterIDs.Nodup ∧ cfg.learnerIDs.Nodup

def Disjoint (cfg : Configuration) : Prop := ∀ id ∈ cfg.voterIDs, id ∉ cfg.learnerIDs

def SameIDs (a b : Configuration) : Prop :=
  (∀ id, id ∈ a.voterIDs ↔ id ∈ b.voterIDs) ∧ ∀ id, id ∈ a.learnerIDs ↔ id ∈ b.learnerIDs

instance (cfg : Configuration) : Decidable cfg.DuplicateFree :=
  inferInstanceAs (Decidable (_ ∧ _))

instance (cfg : Configuration) : Decidable cfg.Disjoint :=
  inferInstanceAs (Decidable (∀ id ∈ cfg.voterIDs, id ∉ cfg.learnerIDs))

theorem SameIDs.refl (cfg : Configuration) : SameIDs cfg cfg := ⟨fun _ => Iff.rfl, fun _ => Iff.rfl⟩

theorem SameIDs.symm {a b : Configuration} (h : SameIDs a b) : SameIDs b a :=
  ⟨fun id => (h.1 id).symm, fun id => (h.2 id).symm⟩

theorem SameIDs.trans {a b c : Configuration} (h : SameIDs a b) (h' : SameIDs b c) :
    SameIDs a c :=
  ⟨fun id => (h.1 id).trans (h'.1 id), fun id => (h.2 id).trans (h'.2 id)⟩

theorem isVoter_iff :
    cfg.isVoter id ↔ id ∈ cfg.voterIDs := by
  simp [isVoter, voterIDs]

theorem isLearner_iff :
    cfg.isLearner id ↔ id ∈ cfg.learnerIDs := by
  simp [isLearner, learnerIDs]

end Configuration

@[simp] theorem mem_toMemberSet :
    id ∈ toMemberSet members ↔ id ∈ members.map (·.id) := mem_dedup

theorem nodup_toMemberSet (members : List Member) : (toMemberSet members).Nodup :=
  nodup_dedup _

theorem length_toMemberSet (members : List Member) :
    (toMemberSet members).length = (members.map (·.id)).toFinset.card :=
  (card_toFinset _).symm

/-! ## Voters before and after -/

theorem card_of_classifyTransition {old new : Configuration} (h : classifyTransition old new) :
    old.voterSet.card ≤ new.voterSet.card + 1 ∧ new.voterSet.card ≤ old.voterSet.card + 1 := by
  have hold : (toMemberSet old.voters).length = old.voterSet.card := length_toMemberSet _
  have hnew : (toMemberSet new.voters).length = new.voterSet.card := length_toMemberSet _
  rw [classifyTransition, hold, hnew] at h
  split at h
  · cases h
  split at h
  case isTrue hshape => omega
  split at h
  case isTrue hshape => omega
  split at h
  case isTrue hshape => omega
  split at h
  case isTrue hshape => omega
  cases h

/-- An accepted step changes one voter at most exactly if one of the two sets of
voters has the other in it. -/
theorem adjacent_iff_of_classifyTransition {old new : Configuration}
    (h : classifyTransition old new) :
    Adjacent old.voterSet new.voterSet ↔
      new.voterSet ⊆ old.voterSet ∨ old.voterSet ⊆ new.voterSet := by
  obtain ⟨hold, hnew⟩ := card_of_classifyTransition h
  have hleft := Finset.card_sdiff_add_card_inter old.voterSet new.voterSet
  have hright := Finset.card_sdiff_add_card_inter new.voterSet old.voterSet
  rw [Finset.inter_comm] at hright
  unfold Adjacent
  rw [← Finset.sdiff_eq_empty_iff_subset, ← Finset.sdiff_eq_empty_iff_subset,
    ← Finset.card_eq_zero, ← Finset.card_eq_zero]
  omega

/-! ## The check depends on ids only -/

theorem toMemberSet_perm {a b : List Member}
    (h : ∀ id, id ∈ a.map (·.id) ↔ id ∈ b.map (·.id)) : (toMemberSet a).Perm (toMemberSet b) :=
  (perm_ext_iff_of_nodup (nodup_toMemberSet a) (nodup_toMemberSet b)).mpr fun id => by
    rw [mem_toMemberSet, mem_toMemberSet, h id]

theorem mem_of_oneAdded {old new : List NodeID} (h : oneAdded old new = some id) :
    id ∈ new ∧ id ∉ old := by
  rw [oneAdded] at h
  split at h
  · cases h
  · exact ⟨mem_of_find?_eq_some h, by simpa using find?_some h⟩

section Congruence

variable {old old' new : List NodeID} (h : old.Perm old')
include h

theorem sameMemberIDs_congr : sameMemberIDs old new = sameMemberIDs old' new := by
  simp only [sameMemberIDs, h.length_eq, h.mem_iff]

theorem oneAdded_congr : oneAdded old new = oneAdded old' new := by
  simp only [oneAdded, h.length_eq, h.mem_iff]

theorem isSome_oneRemoved_congr :
    (oneRemoved old new).isSome = (oneRemoved old' new).isSome := by
  have hfind : (old.find? (· ∉ new)).isSome = (old'.find? (· ∉ new)).isSome := by
    rw [Bool.eq_iff_iff, find?_isSome, find?_isSome]
    simp only [h.mem_iff]
  simp only [oneRemoved, oneAdded, h.length_eq]
  split
  · rfl
  · exact hfind

theorem oneRemoved_congr (hone : ∀ id ∈ old, ∀ id' ∈ old, id ∉ new → id' ∉ new → id = id') :
    oneRemoved old new = oneRemoved old' new := by
  have hsome : (oneRemoved old new).isSome = (oneRemoved old' new).isSome :=
    isSome_oneRemoved_congr h
  cases hfound : oneRemoved old new with
  | none =>
    rw [hfound] at hsome
    exact (Option.not_isSome_iff_eq_none.mp (by rw [← hsome]; exact Bool.false_ne_true)).symm
  | some id =>
    obtain ⟨id', hfound'⟩ := Option.isSome_iff_exists.mp (by rw [← hsome, hfound]; rfl)
    obtain ⟨hmem, hgone⟩ := mem_of_oneAdded hfound
    obtain ⟨hmem', hgone'⟩ := mem_of_oneAdded hfound'
    rw [hfound', hone id hmem id' (h.mem_iff.mpr hmem') hgone hgone']

end Congruence

theorem classifyTransition_congr {old old' new : Configuration} (hids : old.SameIDs old')
    (hone : ∀ id ∈ old.learnerIDs, ∀ id' ∈ old.learnerIDs, id ∉ new.learnerIDs →
      id' ∉ new.learnerIDs → id = id') :
    classifyTransition old new = classifyTransition old' new := by
  have hv := toMemberSet_perm hids.1
  have hl := toMemberSet_perm hids.2
  have hremoved : oneRemoved (toMemberSet old.learners) (toMemberSet new.learners) =
      oneRemoved (toMemberSet old'.learners) (toMemberSet new.learners) := by
    refine oneRemoved_congr hl fun id hid id' hid' hgone hgone' => ?_
    rw [mem_toMemberSet] at hid hid' hgone hgone'
    exact hone id hid id' hid' hgone hgone'
  have hall : (toMemberSet old.voters).all (· ∈ toMemberSet new.voters) =
      (toMemberSet old'.voters).all (· ∈ toMemberSet new.voters) := by
    rw [Bool.eq_iff_iff, all_eq_true, all_eq_true]
    simp only [hv.mem_iff]
  simp only [classifyTransition, hv.length_eq, hl.length_eq, sameMemberIDs_congr hv,
    sameMemberIDs_congr hl, oneAdded_congr hv, oneAdded_congr hl, hremoved,
    isSome_oneRemoved_congr hv, hall, hv.mem_iff]

theorem disjoint_of_classifyTransition {old new : Configuration}
    (h : classifyTransition old new) : new.Disjoint := by
  rw [classifyTransition] at h
  split at h
  · cases h
  case isFalse hnone =>
    intro id hv hl
    refine hnone (any_eq_true.mpr ⟨id, mem_toMemberSet.mpr hv, ?_⟩)
    exact decide_eq_true (mem_toMemberSet.mpr hl)

/-! ## The configurations that are built -/

section Built

variable {cur new : Configuration} {kind : MembershipChangeKind} {target : NodeID} {addr : Bytes}

theorem map_removeMemberByID (members : List Member) (id : NodeID) :
    (removeMemberByID members id).map (·.id) = (members.map (·.id)).filter (· ≠ id) := by
  rw [removeMemberByID, filter_map]
  rfl

theorem buildNewConfiguration_cases (h : buildNewConfiguration cur kind target addr = .ok new) :
    (kind = .addLearner ∧ target ∉ cur.voterIDs ∧ target ∉ cur.learnerIDs ∧
      new.voterIDs = cur.voterIDs ∧ new.learnerIDs = cur.learnerIDs ++ [target]) ∨
    (kind = .promoteToVoter ∧ new.voterIDs = cur.voterIDs ++ [target] ∧
      new.learnerIDs = cur.learnerIDs.filter (· ≠ target)) ∨
    (kind = .removeServer ∧ new.voterIDs = cur.voterIDs.filter (· ≠ target) ∧
      new.learnerIDs = cur.learnerIDs) ∨
    (kind = .removeServer ∧ new.voterIDs = cur.voterIDs ∧
      new.learnerIDs = cur.learnerIDs.filter (· ≠ target)) := by
  cases kind with
  | addLearner =>
    rw [buildNewConfiguration] at h
    split at h
    · cases h
    case isFalse hmember =>
      cases h
      rw [Configuration.isMember, Bool.or_eq_true, Configuration.isVoter_iff,
        Configuration.isLearner_iff, not_or] at hmember
      exact .inl ⟨rfl, hmember.1, hmember.2, rfl, map_append⟩
  | promoteToVoter =>
    rw [buildNewConfiguration] at h
    split at h
    · cases h
    case h_2 m hm =>
      cases h
      have hid : m.id = target := by simpa using find?_some hm
      subst hid
      exact .inr (.inl ⟨rfl, map_append, map_removeMemberByID _ _⟩)
  | removeServer =>
    rw [buildNewConfiguration] at h
    split at h
    · cases h
      exact .inr (.inr (.inl ⟨rfl, map_removeMemberByID _ _, rfl⟩))
    · split at h
      · cases h
        exact .inr (.inr (.inr ⟨rfl, rfl, map_removeMemberByID _ _⟩))
      · cases h

theorem eq_target_of_gone (h : buildNewConfiguration cur kind target addr = .ok new)
    (hid : id ∈ cur.learnerIDs) (hgone : id ∉ new.learnerIDs) : id = target := by
  by_contra hne
  have hkept : id ∈ cur.learnerIDs.filter (· ≠ target) :=
    mem_filter.mpr ⟨hid, decide_eq_true hne⟩
  rcases buildNewConfiguration_cases h with
    ⟨_, _, _, _, hl⟩ | ⟨_, _, hl⟩ | ⟨_, _, hl⟩ | ⟨_, _, hl⟩
  · exact hgone (hl ▸ mem_append_left _ hid)
  · exact hgone (hl ▸ hkept)
  · exact hgone (hl ▸ hid)
  · exact hgone (hl ▸ hkept)

/-- The one way to a node that votes twice: to promote a learner that is a voter. -/
theorem duplicateFree_iff_of_built (h : buildNewConfiguration cur kind target addr = .ok new)
    (hcur : cur.DuplicateFree) :
    new.DuplicateFree ↔ (kind = .promoteToVoter → target ∉ cur.voterIDs) := by
  unfold Configuration.DuplicateFree
  rcases buildNewConfiguration_cases h with
    ⟨rfl, _, hfresh, hv, hl⟩ | ⟨rfl, hv, hl⟩ | ⟨rfl, hv, hl⟩ | ⟨rfl, hv, hl⟩
  · rw [hv, hl, nodup_append_comm, singleton_append, nodup_cons]
    simp [hfresh, hcur.1, hcur.2]
  · rw [hv, hl, nodup_append_comm, singleton_append, nodup_cons]
    simp [hcur.1, hcur.2.filter]
  · rw [hv, hl]
    simp [hcur.1.filter, hcur.2]
  · rw [hv, hl]
    simp [hcur.1, hcur.2.filter]

theorem learner_of_promoted (h : buildNewConfiguration cur .promoteToVoter target addr = .ok new) :
    target ∈ cur.learnerIDs := by
  rw [buildNewConfiguration] at h
  split at h
  · cases h
  case h_2 m hm =>
    have hid : m.id = target := by simpa using find?_some hm
    exact hid ▸ mem_map_of_mem (mem_of_find?_eq_some hm)

end Built

/-! ## Payloads -/

theorem length_putMember (m : Member) :
    (putMember m).length = 8 + m.id.length + m.address.length := by
  simp only [putMember, length_append, length_putUint]
  omega

theorem le_length_putMembers (members : List Member) :
    4 + 8 * members.length ≤ (putMembers members).length := by
  rw [putMembers, length_append, length_putUint]
  induction members with
  | nil => simp
  | cons m members ih =>
    rw [flatMap_cons, length_append, length_putMember, length_cons]
    omega

theorem length_putMember_le {m : Member} (h : m ∈ members) :
    (putMember m).length ≤ (putMembers members).length := by
  rw [putMembers, length_append]
  refine Nat.le_trans (List.Sublist.length_le ?_) (Nat.le_add_left _ _)
  rw [flatMap_def]
  exact sublist_flatten_of_mem (mem_map_of_mem h)

theorem memberFits_of_lt (h : (putMembers members).length < 2 ^ 32)
    (m : Member) (hm : m ∈ members) : MemberFits m := by
  have := length_putMember_le hm
  rw [length_putMember] at this
  exact ⟨by omega, by omega⟩

theorem configurationFits_of_lt
    (h : (encodeConfiguration cfg).length < 2 ^ 32) : ConfigurationFits cfg := by
  have hsize : (putMembers cfg.voters).length + (putMembers cfg.learners).length < 2 ^ 32 := by
    rwa [encodeConfiguration, length_append] at h
  have hvoters := le_length_putMembers cfg.voters
  have hlearners := le_length_putMembers cfg.learners
  refine ⟨⟨by omega, by omega, memberFits_of_lt (by omega), memberFits_of_lt (by omega),
    by omega⟩, ?_⟩
  have hv : (putMembers cfg.voters).length = 4 + (cfg.voters.flatMap putMember).length := by
    rw [putMembers, length_append, length_putUint]
  have hl : (putMembers cfg.learners).length = 4 + (cfg.learners.flatMap putMember).length := by
    rw [putMembers, length_append, length_putUint]
  exact ⟨by omega, by omega⟩

theorem decodeConfigChange_encode_of_lt {kind : MembershipChangeKind}
    {requestID targetID addr : Bytes} (hvoters : cfg.voters ≠ [])
    (hrequest : requestID.length < 2 ^ 32) (htarget : targetID.length < 2 ^ 32)
    (haddr : addr.length < 2 ^ 32) (hcfg : (encodeConfiguration cfg).length < 2 ^ 32) :
    decodeConfigChange (encodeConfigChange (wireKindFor kind) requestID targetID addr cfg) =
      .ok ⟨wireKindFor kind, requestID, targetID, addr, some cfg⟩ := by
  have hread : ∀ {b : Bytes}, b.length < 2 ^ 32 → ∀ rest,
      getLenPrefixed (putLenPrefixed b ++ rest) = .ok (b, rest) := by
    intro b hb rest
    rw [getLenPrefixed, putLenPrefixed, append_assoc, getString_put hb]
  have hlast := hread hcfg []
  rw [append_nil] at hlast
  have hkind : checkConfigChange (wireKindFor kind) requestID targetID addr
      (encodeConfiguration cfg) = .ok ⟨wireKindFor kind, requestID, targetID, addr, some cfg⟩ := by
    have hdecode := decodeConfiguration_encode (configurationFits_of_lt hcfg)
    have hcount : ¬cfg.voters.length = 0 := fun hnil => hvoters (length_eq_zero_iff.mp hnil)
    rw [checkConfigChange, if_pos (by cases kind <;> decide), hdecode]
    exact if_neg hcount
  simp only [decodeConfigChange, encodeConfigChange, ne_eq, not_true_eq_false, if_false,
    hread hrequest, hread htarget, hread haddr, hlast, length_nil, hkind]

theorem decodeConfigChange_encode {kind : MembershipChangeKind} {requestID targetID addr : Bytes}
    (hvoters : cfg.voters ≠ [])
    (h : (encodeConfigChange (wireKindFor kind) requestID targetID addr cfg).length < 2 ^ 32) :
    decodeConfigChange (encodeConfigChange (wireKindFor kind) requestID targetID addr cfg) =
      .ok ⟨wireKindFor kind, requestID, targetID, addr, some cfg⟩ := by
  have hlengths : requestID.length + targetID.length + addr.length +
      (encodeConfiguration cfg).length < 2 ^ 32 := by
    simp only [encodeConfigChange, putLenPrefixed, length_cons, length_append, length_putUint] at h
    omega
  exact decodeConfigChange_encode_of_lt hvoters (by omega) (by omega) (by omega) (by omega)

/-! ## What `ProposeConfigChange` appends -/

section Proposals

variable {c c' : Core} {out : Output} {kind : MembershipChangeKind} {requestID addr : Bytes}
  {target : NodeID}

theorem Core.proposeConfigChange_appends
    (h : c.proposeConfigChange kind requestID target addr = .ok (c', out)) :
    ∃ e new, c'.log = c.log ++ [e] ∧ e.type = .config ∧
      e.data = encodeConfigChange (wireKindFor kind) requestID target addr new ∧
      buildNewConfiguration c.activeConfig kind target addr = .ok new ∧ new.voters ≠ [] ∧
      classifyTransition c.activeConfig new ∧
      (e.data.length < 2 ^ 32 → c'.activeConfig = new) := by
  obtain ⟨new, hnew, hvoters, haccepted, happend⟩ := proposeConfigChange_built h
  obtain ⟨nx, mx, active, index, ms, hr, hactive, -⟩ := appendLeaderEntry_core happend
  cases hr
  refine ⟨_, new, rfl, rfl, rfl, hnew, hvoters, haccepted, fun hlt => ?_⟩
  rw [Entry.configuration?, decodeConfigChange_encode hvoters hlt] at hactive
  exact congrArg Prod.fst hactive

end Proposals

/-! ## Followers -/

/-- Entries that leaders append one after the other from a configuration with the
ids of `cfg` on.  Each configuration entry comes from a leader whose configuration
has the ids of the one before it, and its payload fits the widths of its lengths. -/
inductive Appended : Configuration → List Entry → Prop
  | nil (cfg : Configuration) : Appended cfg []
  | normal {cfg : Configuration} {e : Entry} {es : List Entry} :
      e.type = .normal → Appended cfg es → Appended cfg (e :: es)
  | config {cfg : Configuration} {c c' : Core} {out : Output} {kind : MembershipChangeKind}
      {requestID addr : Bytes} {target : NodeID} {e : Entry} {es : List Entry} :
      c.activeConfig.SameIDs cfg → c.proposeConfigChange kind requestID target addr = .ok (c', out) →
      c'.log = c.log ++ [e] → e.data.length < 2 ^ 32 → Appended c'.activeConfig es →
      Appended cfg (e :: es)

theorem Appended.activates {es : List Entry} (h : Appended cfg es)
    {c : Core} (hc : c.activeConfig.SameIDs cfg ∨ c.activeConfig.isZero) :
    ∃ c', c.activateFromAppendedEntries es = .ok c' := by
  induction h generalizing c with
  | nil cfg => exact ⟨c, rfl⟩
  | @normal cfg e es htype _ ih =>
    obtain ⟨c', hc'⟩ := ih hc
    refine ⟨c', ?_⟩
    rw [Core.activateFromAppendedEntries, htype]
    exact hc'
  | @config cfg leader leader' out kind requestID addr target e es hids hpropose hlog hlt _ ih =>
    obtain ⟨e', new, hlog', htype, hdata, hnew, hvoters, haccepted, hactive⟩ :=
      Core.proposeConfigChange_appends hpropose
    obtain rfl : e = e' := by
      have := hlog.symm.trans hlog'
      simpa using this
    have hnext : leader'.activeConfig = new := hactive hlt
    obtain ⟨c', hc'⟩ := ih (c := { c with activeConfig := new, activeConfigIndex := e.index })
      (.inl (hnext ▸ .refl _))
    refine ⟨c', ?_⟩
    rw [Core.activateFromAppendedEntries, htype]
    dsimp only
    rw [hdata, decodeConfigChange_encode hvoters (hdata ▸ hlt)]
    dsimp only
    rw [if_neg, hc']
    -- the check of the follower is the one that the leader has made
    rcases hc with hsame | hzero
    · have hcheck : classifyTransition c.activeConfig new =
          classifyTransition leader.activeConfig new :=
        (classifyTransition_congr (hids.trans hsame.symm) fun id hid id' hid' hgone hgone' =>
          (eq_target_of_gone hnew hid hgone).trans
            (eq_target_of_gone hnew hid' hgone').symm).symm
      simp [hcheck, haccepted]
    · simp [hzero]

/-! ## Majorities of two configurations -/

/-- Two voter sets of an accepted step overlap in all majorities exactly if the step does not
exchange voters.  What `ProposeConfigChange` appends is accepted, keeps voters and learners apart
and has a voter; it is free of duplicates unless a learner was promoted that was a voter already.
A follower that starts from the ids of the leader, or from nothing, takes all such entries. -/
theorem transition_overlaps_iff (old new : Configuration) :
    (classifyTransition old new →
      ((Adjacent old.voterSet new.voterSet ∧
        ∀ Q Q', Majority old.voterSet Q → Majority new.voterSet Q' → ∃ id ∈ Q, id ∈ Q') ↔
          new.voterSet ⊆ old.voterSet ∨ old.voterSet ⊆ new.voterSet)) ∧
    (∀ (c c' : Core) out kind requestID target addr, c.activeConfig.DuplicateFree →
      c.proposeConfigChange kind requestID target addr = .ok (c', out) →
      ∃ e cfg, c'.log = c.log ++ [e] ∧
        e.data = encodeConfigChange (wireKindFor kind) requestID target addr cfg ∧
        classifyTransition c.activeConfig cfg ∧ cfg.Disjoint ∧ cfg.voters ≠ [] ∧
        (cfg.DuplicateFree ↔
          (kind = .promoteToVoter → target ∉ c.activeConfig.voterIDs)) ∧
        (c.activeConfig.Disjoint → cfg.DuplicateFree)) ∧
    ∀ cfg es (c : Core), Appended cfg es →
      c.activeConfig.SameIDs cfg ∨ c.activeConfig.isZero →
      ∃ c', c.activateFromAppendedEntries es = .ok c' := by
  refine ⟨fun haccepted => ?_, ?_, fun cfg es c happended hc => happended.activates hc⟩
  · rw [← adjacent_iff_of_classifyTransition haccepted]
    exact and_iff_left_of_imp fun hadjacent Q Q' hQ hQ' => hQ.inter_of_adjacent hadjacent hQ'
  · intro c c' out kind requestID target addr hfree hpropose
    obtain ⟨e, cfg, hlog, -, hdata, hnew, hvoters, haccepted, -⟩ :=
      Core.proposeConfigChange_appends hpropose
    have hiff := duplicateFree_iff_of_built hnew hfree
    refine ⟨e, cfg, hlog, hdata, haccepted, disjoint_of_classifyTransition haccepted, hvoters,
      hiff, fun hdisjoint => hiff.mpr fun hkind hvoter => ?_⟩
    exact hdisjoint target hvoter (learner_of_promoted (hkind ▸ hnew))

/-! ## An exchange of voters -/

def voting (ids : List NodeID) : Configuration := ⟨ids.map fun id => ⟨id, []⟩, []⟩

/-- The second and third voter are gone and a fourth has come: the check counts, and finds one
that is gone. -/
theorem voter_exchange_accepted :
    (voting [[1], [2], [3]]).DuplicateFree ∧ (voting [[1], [4]]).DuplicateFree ∧
      classifyTransition (voting [[1], [2], [3]]) (voting [[1], [4]]) ∧
      ∃ Q Q', Majority (voting [[1], [2], [3]]).voterSet Q ∧
        Majority (voting [[1], [4]]).voterSet Q' ∧ ∀ id ∈ Q, id ∉ Q' := by
  refine ⟨by decide, by decide, by decide, {[2], [3]}, {[1], [4]}, ?_, ?_, by decide⟩
  · exact ⟨by decide, by decide⟩
  · exact ⟨by decide, by decide⟩

/-! ## A learner is added and a voter removed -/

def leadsTwo : Core where
  cfg := ⟨[1], voting [[1], [2]]⟩
  role := .leader
  currentTerm := 1
  votedFor := [1]
  leaderID := [1]
  log := [⟨1, 1, .normal, []⟩]
  snapshotIndex := 0
  snapshotTerm := 0
  commitIndex := 1
  appliedIndex := 1
  nextIndex := [([2], 2)]
  matchIndex := [([2], 1)]
  votesReceived := [[1], [2]]
  persistSeq := 2
  persistedSeq := 2
  pending := []
  activeConfig := voting [[1], [2]]
  activeConfigIndex := 0
  snapshotConfig := .zero
  snapshotHasConfig := false
  pendingConfIndex := 0
  heardFromLeader := false

def leadsTwoAndLearner : Core × Output :=
  match leadsTwo.proposeConfigChange .addLearner [114] [3] [] with
  | .ok r => r
  | .error _ => (leadsTwo, {})

theorem transition_overlaps_iff_learner :
    (∀ Q Q', Majority (voting [[1], [2]]).voterSet Q → Majority (voting [[2]]).voterSet Q' →
      ∃ id ∈ Q, id ∈ Q') ∧
    (∃ e cfg, leadsTwoAndLearner.1.log = leadsTwo.log ++ [e] ∧
      e.data = encodeConfigChange (wireKindFor .addLearner) [114] [3] [] cfg ∧
      cfg.DuplicateFree) ∧
    ∃ c', leadsTwo.activateFromAppendedEntries (leadsTwoAndLearner.1.log.drop 1) = .ok c' := by
  have hpropose : leadsTwo.proposeConfigChange .addLearner [114] [3] [] =
      .ok (leadsTwoAndLearner.1, leadsTwoAndLearner.2) := by decide +kernel
  obtain ⟨hoverlap, happends, hfollows⟩ :=
    transition_overlaps_iff (voting [[1], [2]]) (voting [[2]])
  refine ⟨((hoverlap (by decide)).mpr (.inl (by decide))).2, ?_, ?_⟩
  · obtain ⟨e, cfg, hlog, hdata, -, -, -, hfree, -⟩ := happends _ _ _ _ _ _ _ (by decide) hpropose
    exact ⟨e, cfg, hlog, hdata, hfree.mpr fun h => nomatch h⟩
  · refine hfollows (voting [[1], [2]]) _ leadsTwo ?_ (.inl (.refl _))
    exact .config (.refl _) hpropose rfl (by decide +kernel) (.nil _)

end ChronicleDB.Raft
