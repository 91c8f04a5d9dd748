/-
The chain of validator sets: every set reached from genesis by certified membership changes.

A change adds one member or removes one, and chooses a new threshold; the result is validated before it takes effect.
The one inequality a valid set satisfies, threshold above two thirds, gives both intersections: within a set two
quorums share more than a third, and across one change a quorum of the old set meets a quorum of the new one.
-/
import Hocmesh.Base.Quorum
import Hocmesh.Ledger.Membership
import Hocmesh.Protocol.Sample

namespace Hocmesh.Ledger

open Hocmesh.Base Hocmesh.Protocol

/-! ## What a valid set is -/

def ValidatorSet.ids (set : ValidatorSet) : Finset String := (set.members.map (·.validatorId)).toFinset

/-- at least a threshold of sitting members -/
abbrev ValidatorSet.Quorum (set : ValidatorSet) (Q : Finset String) : Prop := IsQuorum set.ids set.threshold Q

theorem validateMembers_nodup (ids urls keys : List String) (members : List ValidatorMember)
    (h : validateMembers ids urls keys members = .ok ()) :
    (members.map (·.validatorId)).Nodup ∧ ∀ m ∈ members, m.validatorId ∉ ids := by
  induction members generalizing ids urls keys with
  | nil => simp
  | cons m rest ih =>
    simp only [validateMembers, bind_ok, bailIf_ok, exists_const] at h
    obtain ⟨hid, _, _, _, hrest⟩ := h
    obtain ⟨hnd, hfresh⟩ := ih _ _ _ hrest
    refine ⟨?_, ?_⟩
    · rw [List.map_cons, List.nodup_cons]
      refine ⟨?_, hnd⟩
      intro hm
      obtain ⟨m', hm', heq⟩ := List.mem_map.1 hm
      exact hfresh m' hm' (by rw [heq]; exact List.mem_cons_self)
    · intro m' hm'
      rcases List.mem_cons.1 hm' with rfl | hm'
      · exact hid
      · exact fun hin => hfresh m' hm' (List.mem_cons_of_mem _ hin)

/-- what `validate_validator_set` promises, as the later arguments use it -/
structure ValidatorSet.Valid (set : ValidatorSet) : Prop where
  threshold_le : set.threshold ≤ set.members.length
  above_two_thirds : set.members.length * 2 < set.threshold * 3
  limit_pos : 0 < set.communityIssuanceLimitMcu
  nodup : (set.members.map (·.validatorId)).Nodup

theorem valid_of_validate {set : ValidatorSet} (h : validateValidatorSet set = .ok ()) : set.Valid := by
  simp only [validateValidatorSet, bind_ok, bailIf_ok, exists_const, not_or, not_le, not_lt] at h
  obtain ⟨_, ⟨_, hle⟩, htwo, hlim, hm⟩ := h
  exact ⟨hle, htwo, hlim, (validateMembers_nodup _ _ _ _ hm).1⟩

theorem ValidatorSet.Valid.card_ids {set : ValidatorSet} (h : set.Valid) : set.ids.card = set.members.length := by
  unfold ValidatorSet.ids
  rw [List.toFinset_card_of_nodup h.nodup, List.length_map]

/-! ## One change -/

/-- what a change does to the members: one more, or one fewer -/
theorem changedMembers_ids {members next : List ValidatorMember} {action : MembershipAction} {m : ValidatorMember}
    (h : changedMembers members action m = .ok next) :
    (next.length = members.length + 1 ∧
      (members.map (·.validatorId)).toFinset ⊆ (next.map (·.validatorId)).toFinset) ∨
    (next.length + 1 = members.length ∧
      (next.map (·.validatorId)).toFinset ⊆ (members.map (·.validatorId)).toFinset) := by
  cases action with
  | join =>
    simp only [changedMembers, bind_ok, bailIf_ok, pure_ok, exists_const] at h
    obtain ⟨_, rfl⟩ := h
    left
    refine ⟨by simp, ?_⟩
    rw [List.map_append, List.toFinset_append]
    exact Finset.subset_union_left
  | leave =>
    simp only [changedMembers, bind_ok, bailIf_ok, orBail_ok, pure_ok, exists_const] at h
    obtain ⟨pos, hpos, _, rfl⟩ := h
    right
    have hlt : pos < members.length := (List.findIdx?_eq_some_iff_findIdx_eq.1 hpos).1
    refine ⟨?_, ?_⟩
    · rw [List.length_eraseIdx_of_lt hlt]
      omega
    · intro x hx
      simp only [List.mem_toFinset, List.mem_map] at hx ⊢
      obtain ⟨m', hm', rfl⟩ := hx
      exact ⟨m', List.mem_of_mem_eraseIdx hm', rfl⟩

/-- the facts a verified change leaves behind -/
structure ChangeStep (set next : ValidatorSet) : Prop where
  valid : validateValidatorSet next = .ok ()
  limit : next.communityIssuanceLimitMcu = set.communityIssuanceLimitMcu
  size : (next.members.length = set.members.length + 1 ∧ set.ids ⊆ next.ids) ∨
    (next.members.length + 1 = set.members.length ∧ next.ids ⊆ set.ids)

theorem changeStep_of_verify {c : Crypto} {set next : ValidatorSet} {e : MembershipChangeEvidence}
    (h : verifyMembershipChange c set e = .ok next) : ChangeStep set next := by
  simp only [verifyMembershipChange, applyMembershipChange, membershipResult, bind_ok, bailIf_ok, pure_ok,
    exists_ok_unit_and, exists_const] at h
  obtain ⟨next', ⟨_, ⟨members, hm, hv, rfl⟩, _, rfl⟩, _, rfl⟩ := h
  exact ⟨hv, rfl, changedMembers_ids hm⟩

/-- **Across one change.** A quorum of the old set meets a quorum of the new one. -/
theorem ChangeStep.quorums_meet {set next : ValidatorSet} (h : ChangeStep set next) (hv : set.Valid)
    {Q Q' : Finset String} (hQ : set.Quorum Q) (hQ' : next.Quorum Q') : (Q ∩ Q').Nonempty := by
  have hv' := valid_of_validate h.valid
  have h1 := hv.above_two_thirds
  have h2 := hv'.above_two_thirds
  have hc := hv.card_ids
  have hc' := hv'.card_ids
  refine hQ.inter_nonempty hQ' ?_
  rcases h.size with ⟨hlen, hsub⟩ | ⟨hlen, hsub⟩
  · rw [Finset.union_eq_right.2 hsub]
    omega
  · rw [Finset.union_eq_left.2 hsub]
    omega

/-! ## Any number of changes -/

/-- the sets reachable from genesis by verified membership changes -/
inductive SetChain (c : Crypto) (genesis : ValidatorSet) : ValidatorSet → Prop
  | genesis : SetChain c genesis genesis
  | change {set next : ValidatorSet} {e : MembershipChangeEvidence} :
      SetChain c genesis set → verifyMembershipChange c set e = .ok next → SetChain c genesis next

theorem SetChain.keeps {c : Crypto} {genesis set : ValidatorSet} (h : SetChain c genesis set)
    (hg : validateValidatorSet genesis = .ok ()) :
    validateValidatorSet set = .ok () ∧
      set.communityIssuanceLimitMcu = genesis.communityIssuanceLimitMcu := by
  induction h with
  | genesis => exact ⟨hg, rfl⟩
  | change _ hstep ih =>
    have hs := changeStep_of_verify hstep
    exact ⟨hs.valid, hs.limit.trans ih.2⟩

/-- **The set chain.** Every set reached from a valid genesis is valid and keeps the issuance limit, two of its quorums
share more than a third of its members, and each of its quorums meets each quorum of any immediate successor. -/
theorem set_chain_invariant {c : Crypto} {genesis set : ValidatorSet} (hg : validateValidatorSet genesis = .ok ())
    (h : SetChain c genesis set) :
    validateValidatorSet set = .ok () ∧
    set.communityIssuanceLimitMcu = genesis.communityIssuanceLimitMcu ∧
    (∀ Q Q', set.Quorum Q → set.Quorum Q' → set.members.length < 3 * (Q ∩ Q').card) ∧
    (∀ e next, verifyMembershipChange c set e = .ok next →
      ∀ Q Q', set.Quorum Q → next.Quorum Q' → (Q ∩ Q').Nonempty) := by
  obtain ⟨hv, hlim⟩ := h.keeps hg
  have hvalid := valid_of_validate hv
  refine ⟨hv, hlim, ?_, ?_⟩
  · intro Q Q' hQ hQ'
    have hk : set.ids.card * 2 < set.threshold * 3 := by
      rw [hvalid.card_ids]
      exact hvalid.above_two_thirds
    have := hQ.third_lt_inter hk hQ'
    rwa [hvalid.card_ids] at this
  · intro e next hstep Q Q' hQ hQ'
    exact (changeStep_of_verify hstep).quorums_meet hvalid hQ hQ'

/-- a change to `set` that the given validators vouch for -/
def Sample.vouchedChange (set next : ValidatorSet) (action : MembershipAction) (member : ValidatorMember)
    (signers : List ℕ) : MembershipChangeEvidence :=
  let hash := membershipHash Sample.crypto next
  { action, member, threshold := next.threshold, resultingSetHash := hash
    vouches := Sample.signatures signers
      (vouchSigningMessage (membershipHash Sample.crypto set) action member hash) }

/-- three validators admit a fourth, and the invariant holds of the set of four -/
theorem set_chain_after_join :
    SetChain Sample.crypto (Sample.committee 3) (Sample.committee 4) ∧
    ∀ Q Q', (Sample.committee 4).Quorum Q → (Sample.committee 4).Quorum Q' → 4 < 3 * (Q ∩ Q').card := by
  have hjoin : verifyMembershipChange Sample.crypto (Sample.committee 3)
      (Sample.vouchedChange (Sample.committee 3) (Sample.committee 4) .join (Sample.member 3) [0, 1, 2]) =
      .ok (Sample.committee 4) := by decide +kernel
  have hchain := SetChain.change SetChain.genesis hjoin
  exact ⟨hchain, (set_chain_invariant (by decide +kernel) hchain).2.2.1⟩

end Hocmesh.Ledger
