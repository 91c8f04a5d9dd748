/-
What a client reads off a quorum (`hocmesh-ledger/src/network.rs`): `head_quorum`, `checkpoint_quorum` and
`agreed_balance`.

`joinAll` puts each answer in the place of the member it was asked of, so the proofs a client keeps are in the members'
order. A hash map of counts or groups is a list whose order is not known. `quorum_reads_unambiguous` says that neither
order shows in what is read, because at a threshold above two thirds only one value can reach it.
-/
import Hocmesh.Base.Grouping
import Hocmesh.Ledger.SetChain
import Hocmesh.Network.Client

namespace Hocmesh.Network

open Hocmesh.Base Hocmesh.Protocol Hocmesh.Ledger Hocmesh.Validator

structure StateProof where
  head : LedgerHead
  stateHash : String
  validatorId : String
  signatureB64 : String
deriving DecidableEq

structure BalanceProof where
  accountId : String
  balanceMcu : ℤ
  earnedMcu : ℤ
  spentMcu : ℤ
  head : LedgerHead
  validatorId : String
  signatureB64 : String
deriving DecidableEq

/-- `join_all` over the members: an answer names the request it is for, and comes when it comes -/
def joinAll {α : Type} (set : ValidatorSet) (arrived : List (ℕ × α)) : List (Option α) :=
  (List.range set.members.length).map fun i => (arrived.find? fun a => a.1 = i).map (·.2)

section

variable (c : Crypto)

/-- the states that are signed by the seat that sent them -/
def signedStates (set : ValidatorSet) (answers : List (Option StateProof)) : List StateProof :=
  (answered set answers).filterMap fun x =>
    if x.2.validatorId = x.1.validatorId ∧ x.2.head.membershipHash = membershipHash c set ∧
        verifyValidatorSignature c x.1
          (checkpointSigningMessage x.2.head.membershipHash x.2.head.sequence x.2.head.entryHash x.2.stateHash)
          x.2.signatureB64 = true then some x.2
    else none

def balanceSigningMessage (p : BalanceProof) : String :=
  "hocmesh-balance-v1|" ++ p.head.membershipHash ++ "|" ++ p.accountId ++ "|" ++ toString p.balanceMcu ++ "|" ++
    toString p.earnedMcu ++ "|" ++ toString p.spentMcu ++ "|" ++ toString p.head.sequence ++ "|" ++ p.head.entryHash

/-- the balances that are signed by the seat that sent them -/
def signedBalances (set : ValidatorSet) (answers : List (Option BalanceProof)) : List BalanceProof :=
  (answered set answers).filterMap fun x =>
    if x.2.validatorId = x.1.validatorId ∧ x.2.head.membershipHash = membershipHash c set ∧
        verifyValidatorSignature c x.1 (balanceSigningMessage x.2) x.2.signatureB64 = true then some x.2
    else none

/-- what a head counts for -/
def headValue (h : LedgerHead) : ℕ × String := (h.sequence, h.entryHash)

def stateValue (p : StateProof) : ℕ × String × String := (p.head.sequence, p.head.entryHash, p.stateHash)

/-- what a balance proof is grouped by: the balance alone, deliberately not the head -/
def balanceValue (p : BalanceProof) : ℤ × ℤ × ℤ := (p.balanceMcu, p.earnedMcu, p.spentMcu)

/-- `checkpoint_quorum` with its groups in the order the hash map happens to list them -/
def checkpointQuorum (set : ValidatorSet) (byState : List ((ℕ × String × String) × List StateProof)) :
    Check LedgerCheckpoint := do
  let best ← orBail (maxBy (fun a b => b.2.length < a.2.length) byState) "no signed validator state available"
  bailIf (best.2.length < set.threshold) "no quorum-agreed ledger state"
  pure { head := ⟨best.1.1, best.1.2.1, membershipHash c set⟩, stateHash := best.1.2.2
         signatures := best.2.map fun p => ⟨p.validatorId, p.signatureB64⟩ }

end

/-- the height of the freshest proof of a group -/
def freshest (ps : List BalanceProof) : ℕ := (ps.map fun p => p.head.sequence).foldl max 0

/-- `agreed_balance` with its groups in the order the hash map happens to list them -/
def agreedBalance (threshold : ℕ) (byBalance : List ((ℤ × ℤ × ℤ) × List BalanceProof)) : Option BalanceProof :=
  (maxBy (fun a b => freshest b < freshest a) ((byBalance.map (·.2)).filter fun ps => threshold ≤ ps.length)).bind
    fun ps => maxBy (fun a b => b.head.sequence < a.head.sequence) ps

/-! ## Orders that do not show -/

section

variable {α : Type}

/-- in whatever order the answers arrive, each ends up in its member's place -/
theorem joinAll_perm (set : ValidatorSet) {arrived arrived' : List (ℕ × α)} (hone : (arrived.map Prod.fst).Nodup)
    (h : arrived.Perm arrived') : joinAll set arrived = joinAll set arrived' := by
  unfold joinAll
  refine List.map_congr_left fun i _ => congrArg (Option.map Prod.snd) ?_
  apply Option.ext
  intro a
  have hfind : ∀ l : List (ℕ × α), (l.map Prod.fst).Nodup →
      (l.find? (fun a => decide (a.1 = i)) = some a ↔ a ∈ l ∧ a.1 = i) := by
    intro l hl
    constructor
    · intro hfound
      exact ⟨List.mem_of_find?_eq_some hfound, by simpa using List.find?_some hfound⟩
    · intro hin
      have hsome : (l.find? fun a => decide (a.1 = i)).isSome = true :=
        List.find?_isSome.2 ⟨a, hin.1, decide_eq_true hin.2⟩
      obtain ⟨b, hb⟩ := Option.isSome_iff_exists.1 hsome
      have hbi : b.1 = i := by simpa using List.find?_some hb
      rw [hb, List.inj_on_of_nodup_map hl (List.mem_of_find?_eq_some hb) hin.1 (hbi.trans hin.2.symm)]
  rw [hfind arrived hone, hfind arrived' ((h.map Prod.fst).nodup_iff.1 hone), h.mem_iff]

theorem length_answered_le (set : ValidatorSet) (answers : List (Option α)) :
    (answered set answers).length ≤ set.members.length := by
  unfold answered
  exact (List.length_filterMap_le _ _).trans ((List.length_zip ..).le.trans (min_le_left _ _))

variable {κ : Type} [LinearOrder κ] {beats : α → α → Bool} {key : α → κ}

theorem maxBy_atTop (hbeats : ∀ a b, beats a b = true ↔ key b < key a) {l : List α} {a : α}
    (h : maxBy beats l = some a) : AtTop key l a := by
  cases l with
  | nil => cases h
  | cons first rest =>
    rw [← Option.some.inj h]
    exact atTop_scan hbeats rest first

theorem maxBy_eq_none {l : List α} : maxBy beats l = none ↔ l = [] := by
  cases l with
  | nil => simp [maxBy]
  | cons first rest => simp [maxBy]

theorem exists_maxBy {l : List α} (h : l ≠ []) : ∃ a, maxBy beats l = some a :=
  Option.ne_none_iff_exists'.1 fun hnone => h (maxBy_eq_none.1 hnone)

end

section

variable {c : Crypto} {set : ValidatorSet}

theorem sizes_headCounts (heads : List LedgerHead) : Sizes headValue heads Prod.fst Prod.snd (headCounts heads) where
  sound b hb := by
    simp only [headCounts, List.mem_map, List.mem_dedup] at hb
    obtain ⟨k, ⟨h, hh, rfl⟩, rfl⟩ := hb
    have hcount : (heads.map headValue).count (headValue h) = (group headValue heads (headValue h)).length :=
      count_map_eq_length_group heads (headValue h)
    exact ⟨⟨h, hh, rfl⟩, hcount⟩
  complete h hh := by
    refine ⟨(headValue h, (heads.map headValue).count (headValue h)), ?_, rfl⟩
    exact List.mem_map.2 ⟨_, List.mem_dedup.2 (List.mem_map_of_mem hh), rfl⟩

/-- `max_by_key(..)` over counts or groups of one list and of a reordering: none in both, or one of a size in both, with one
key where the size reaches the bar -/
theorem largest_cases {β κ : Type} [DecidableEq κ] {key : α → κ} {keyOf : β → κ} {size : β → ℕ} {beats : β → β → Bool}
    (hbeats : ∀ a b, beats a b = true ↔ size b < size a) {l l' : List α} {entries entries' : List β}
    (h : Sizes key l keyOf size entries) (h' : Sizes key l' keyOf size entries') (hl : l.Perm l') {bar : ℕ}
    (hbar : l.length < 2 * bar) :
    (maxBy beats entries = none ∧ maxBy beats entries' = none) ∨
    ∃ best best', maxBy beats entries = some best ∧ maxBy beats entries' = some best' ∧ best ∈ entries ∧
      best' ∈ entries' ∧ size best = size best' ∧ (bar ≤ size best → keyOf best = keyOf best') := by
  cases hbest : maxBy beats entries with
  | none =>
    cases hbest' : maxBy beats entries' with
    | none => exact Or.inl ⟨rfl, rfl⟩
    | some best' =>
      obtain ⟨⟨a, ha, -⟩, -⟩ := h'.sound best' (maxBy_atTop hbeats hbest').mem
      obtain ⟨b, hb, -⟩ := h.complete a (hl.mem_iff.2 ha)
      rw [maxBy_eq_none.1 hbest] at hb
      cases hb
  | some best =>
    have htop := maxBy_atTop hbeats hbest
    cases hbest' : maxBy beats entries' with
    | none =>
      obtain ⟨⟨a, ha, -⟩, -⟩ := h.sound best htop.mem
      obtain ⟨b, hb, -⟩ := h'.complete a (hl.mem_iff.1 ha)
      rw [maxBy_eq_none.1 hbest'] at hb
      cases hb
    | some best' =>
      have htop' := maxBy_atTop hbeats hbest'
      obtain ⟨hsize, hkey⟩ := h.largest_agree h' hl htop htop' hbar
      exact Or.inr ⟨best, best', rfl, rfl, htop.mem, htop'.mem, hsize, hkey⟩

/-- the bar of a valid set is more than half of what its members can send -/
theorem lt_two_threshold (hv : set.Valid) {n : ℕ} (hn : n ≤ set.members.length) : n < 2 * set.threshold := by
  have habove := hv.above_two_thirds
  omega

theorem headQuorum_best {counts : List ((ℕ × String) × ℕ)} {best : (ℕ × String) × ℕ}
    (h : maxBy (fun a b => b.2 < a.2) counts = some best) :
    headQuorum c set counts = if best.2 < set.threshold then .error "no quorum-agreed ledger head"
      else .ok ⟨best.1.1, best.1.2, membershipHash c set⟩ := by
  simp only [headQuorum, h, orBail, bailIf]
  by_cases hlt : best.2 < set.threshold
  · simp [hlt, bind, Except.bind]
  · simp [hlt, bind, Except.bind, pure, Except.pure]

theorem headQuorum_perm (hv : set.Valid) {heads heads' : List LedgerHead} {counts counts' : List ((ℕ × String) × ℕ)}
    (hlen : heads.length ≤ set.members.length) (hperm : heads.Perm heads') (hcounts : counts.Perm (headCounts heads))
    (hcounts' : counts'.Perm (headCounts heads')) : headQuorum c set counts = headQuorum c set counts' := by
  have hbeats : ∀ a b : (ℕ × String) × ℕ, decide (b.2 < a.2) = true ↔ b.2 < a.2 := fun a b => decide_eq_true_iff
  have hcases := largest_cases hbeats ((sizes_headCounts heads).perm hcounts) ((sizes_headCounts heads').perm hcounts')
    hperm (lt_two_threshold hv hlen)
  rcases hcases with ⟨hnone, hnone'⟩ | ⟨best, best', hbest, hbest', -, -, hsize, hkey⟩
  · simp only [headQuorum, hnone, hnone']
  · rw [headQuorum_best hbest, headQuorum_best hbest', hsize]
    split_ifs with hlt
    · rfl
    · rw [hkey (by omega)]

/-- two reads with one outcome: one error, or one head and state, and the same signatures in some order -/
def SameCheckpoint : Check LedgerCheckpoint → Check LedgerCheckpoint → Prop
  | .ok cp, .ok cp' => cp.head = cp'.head ∧ cp.stateHash = cp'.stateHash ∧ cp.signatures.Perm cp'.signatures
  | .error e, .error e' => e = e'
  | _, _ => False

theorem SameCheckpoint.refl (r : Check LedgerCheckpoint) : SameCheckpoint r r := by
  cases r with
  | ok cp => exact ⟨rfl, rfl, List.Perm.refl _⟩
  | error e => rfl

/-- the entry of a key is its group -/
theorem eq_group {α κ : Type} [DecidableEq κ] {key : α → κ} {l : List α} {gs : List (κ × List α)}
    (hgs : gs.Perm (groups key l)) {g : κ × List α} (hg : g ∈ gs) : g.2 = group key l g.1 :=
  (mem_groups.1 (hgs.mem_iff.1 hg)).2

theorem checkpointQuorum_best {gs : List ((ℕ × String × String) × List StateProof)}
    {best : (ℕ × String × String) × List StateProof}
    (h : maxBy (fun a b => b.2.length < a.2.length) gs = some best) :
    checkpointQuorum c set gs = if best.2.length < set.threshold then .error "no quorum-agreed ledger state"
      else .ok { head := ⟨best.1.1, best.1.2.1, membershipHash c set⟩, stateHash := best.1.2.2
                 signatures := best.2.map fun p => ⟨p.validatorId, p.signatureB64⟩ } := by
  simp only [checkpointQuorum, h, orBail, bailIf]
  by_cases hlt : best.2.length < set.threshold
  · simp [hlt, bind, Except.bind]
  · simp [hlt, bind, Except.bind, pure, Except.pure]

theorem checkpointQuorum_perm (hv : set.Valid) {proofs proofs' : List StateProof}
    {gs gs' : List ((ℕ × String × String) × List StateProof)} (hlen : proofs.length ≤ set.members.length)
    (hperm : proofs.Perm proofs') (hgs : gs.Perm (groups stateValue proofs)) (hgs' : gs'.Perm (groups stateValue proofs')) :
    SameCheckpoint (checkpointQuorum c set gs) (checkpointQuorum c set gs') ∧
      (proofs = proofs' → checkpointQuorum c set gs = checkpointQuorum c set gs') := by
  have hbeats : ∀ a b : (ℕ × String × String) × List StateProof,
      decide (b.2.length < a.2.length) = true ↔ b.2.length < a.2.length := fun a b => decide_eq_true_iff
  have hcases := largest_cases hbeats ((sizes_groups proofs).perm hgs) ((sizes_groups proofs').perm hgs') hperm
    (lt_two_threshold hv hlen)
  rcases hcases with ⟨hnone, hnone'⟩ | ⟨best, best', hbest, hbest', hin, hin', hsize, hkey⟩
  · have heq : checkpointQuorum c set gs = checkpointQuorum c set gs' := by simp only [checkpointQuorum, hnone, hnone']
    exact ⟨heq ▸ SameCheckpoint.refl _, fun _ => heq⟩
  · rw [checkpointQuorum_best hbest, checkpointQuorum_best hbest', hsize]
    split_ifs with hlt
    · exact ⟨rfl, fun _ => rfl⟩
    · have hk : best.1 = best'.1 := hkey (by omega)
      have hgroup := eq_group hgs hin
      have hgroup' := eq_group hgs' hin'
      rw [← hk] at hgroup'
      refine ⟨⟨by rw [hk], by rw [hk], ?_⟩, fun heq => ?_⟩
      · rw [hgroup, hgroup']
        exact (group_perm hperm best.1).map _
      · subst heq
        rw [hk, hgroup, hgroup']

/-- the balance a proof stands for, and its height -/
def balanceRead (p : BalanceProof) : (ℤ × ℤ × ℤ) × ℕ := (balanceValue p, p.head.sequence)

/-- a group that reaches the bar is the group of a balance somebody attests -/
theorem eq_of_reaching {bar : ℕ} {proofs : List BalanceProof} {gs : List ((ℤ × ℤ × ℤ) × List BalanceProof)}
    (hgs : gs.Perm (groups balanceValue proofs)) {ps : List BalanceProof}
    (hps : ps ∈ (gs.map (·.2)).filter fun ps => bar ≤ ps.length) :
    ∃ k, ps = group balanceValue proofs k ∧ bar ≤ (group balanceValue proofs k).length ∧ k ∈ proofs.map balanceValue := by
  simp only [List.mem_filter, List.mem_map, decide_eq_true_eq] at hps
  obtain ⟨⟨g, hg, rfl⟩, hlen⟩ := hps
  obtain ⟨⟨p, hp, hkey⟩, hgroup⟩ := mem_groups.1 (hgs.mem_iff.1 hg)
  exact ⟨g.1, hgroup, hgroup ▸ hlen, hkey ▸ List.mem_map_of_mem hp⟩

theorem reaching_mem {bar : ℕ} {proofs : List BalanceProof} {gs : List ((ℤ × ℤ × ℤ) × List BalanceProof)}
    (hgs : gs.Perm (groups balanceValue proofs)) {k : ℤ × ℤ × ℤ} (hk : k ∈ proofs.map balanceValue)
    (hlen : bar ≤ (group balanceValue proofs k).length) :
    group balanceValue proofs k ∈ (gs.map (·.2)).filter fun ps => bar ≤ ps.length := by
  obtain ⟨p, hp, hkey⟩ := List.mem_map.1 hk
  have hmem : (k, group balanceValue proofs k) ∈ gs := hgs.mem_iff.2 (mem_groups.2 ⟨⟨p, hp, hkey⟩, rfl⟩)
  exact List.mem_filter.2 ⟨List.mem_map_of_mem hmem, decide_eq_true hlen⟩

/-- what `agreed_balance` is: nothing where no balance reaches the bar, and the last of the freshest proofs of the one
that does -/
theorem agreedBalance_eq {bar : ℕ} {proofs : List BalanceProof} {gs : List ((ℤ × ℤ × ℤ) × List BalanceProof)}
    (hgs : gs.Perm (groups balanceValue proofs)) :
    (agreedBalance bar gs = none ∧ ∀ k ∈ proofs.map balanceValue, (group balanceValue proofs k).length < bar) ∨
    ∃ k ∈ proofs.map balanceValue, bar ≤ (group balanceValue proofs k).length ∧ agreedBalance bar gs =
      maxBy (fun a b => b.head.sequence < a.head.sequence) (group balanceValue proofs k) := by
  unfold agreedBalance
  cases hbest : maxBy (fun a b => decide (freshest b < freshest a)) ((gs.map (·.2)).filter fun ps => bar ≤ ps.length) with
  | none =>
    refine Or.inl ⟨rfl, fun k hk => not_le.1 fun hle => ?_⟩
    have hin := reaching_mem hgs hk hle
    rw [maxBy_eq_none.1 hbest] at hin
    cases hin
  | some ps =>
    have htop : AtTop freshest _ ps := maxBy_atTop (fun a b => decide_eq_true_iff) hbest
    obtain ⟨k, rfl, hlen, hk⟩ := eq_of_reaching hgs htop.mem
    exact Or.inr ⟨k, hk, hlen, rfl⟩

theorem agreedBalance_perm (hv : set.Valid) {proofs proofs' : List BalanceProof}
    {gs gs' : List ((ℤ × ℤ × ℤ) × List BalanceProof)} (hlen : proofs.length ≤ set.members.length)
    (hperm : proofs.Perm proofs') (hgs : gs.Perm (groups balanceValue proofs))
    (hgs' : gs'.Perm (groups balanceValue proofs')) :
    (agreedBalance set.threshold gs).map balanceRead = (agreedBalance set.threshold gs').map balanceRead ∧
      (proofs = proofs' → agreedBalance set.threshold gs = agreedBalance set.threshold gs') := by
  have hbar := lt_two_threshold hv hlen
  have hgroup : ∀ k, (group balanceValue proofs k).length = (group balanceValue proofs' k).length :=
    fun k => (group_perm hperm k).length_eq
  have hkeys : ∀ k, k ∈ proofs.map balanceValue ↔ k ∈ proofs'.map balanceValue := fun k => (hperm.map _).mem_iff
  rcases agreedBalance_eq hgs with ⟨hnone, hall⟩ | ⟨k, hk, hreach, heq⟩
  · rcases agreedBalance_eq hgs' with ⟨hnone', -⟩ | ⟨k', hk', hreach', -⟩
    · rw [hnone, hnone']
      exact ⟨rfl, fun _ => rfl⟩
    · exact absurd (hgroup k' ▸ hreach') (not_le.2 (hall k' ((hkeys k').2 hk')))
  · rcases agreedBalance_eq hgs' with ⟨-, hall'⟩ | ⟨k', hk', hreach', heq'⟩
    · exact absurd (hgroup k ▸ hreach) (not_le.2 (hall' k ((hkeys k).1 hk)))
    · obtain rfl : k = k' := one_majority hbar hreach (hgroup k' ▸ hreach')
      rw [heq, heq']
      refine ⟨?_, fun h => h ▸ rfl⟩
      obtain ⟨p, hp⟩ := exists_maxBy (List.ne_nil_of_length_pos (by omega : 0 < (group balanceValue proofs k).length))
      obtain ⟨p', hp'⟩ := exists_maxBy (List.ne_nil_of_length_pos (by omega : 0 < (group balanceValue proofs' k).length))
      have htop : AtTop (fun p : BalanceProof => p.head.sequence) _ p := maxBy_atTop (fun a b => decide_eq_true_iff) hp
      have htop' : AtTop (fun p : BalanceProof => p.head.sequence) _ p' := maxBy_atTop (fun a b => decide_eq_true_iff) hp'
      have hsequence := htop.key_eq (htop'.perm (group_perm hperm k).symm)
      rw [hp, hp', Option.map_some, Option.map_some, balanceRead, balanceRead, (mem_group.1 htop.mem).2,
        (mem_group.1 htop'.mem).2, hsequence]

end

theorem length_signed_le {α : Type} (set : ValidatorSet) (answers : List (Option α)) {β : Type}
    (f : ValidatorMember × α → Option β) : ((answered set answers).filterMap f).length ≤ set.members.length :=
  (List.length_filterMap_le _ _).trans (length_answered_le set answers)

/-- **Quorum reads are unambiguous.** Of at most one proof from each member of a valid set: the head, the certified state
and the balance a client reads are the same for every order of the proofs and of the hash map, and the very same
certificate and proof come back when only the hash map differs; at most one value reaches the threshold, whatever the
proofs are grouped by; and the proofs a client keeps are at most one from each member, and the same for every order the
answers arrive in. -/
theorem quorum_reads_unambiguous (c : Crypto) {set : ValidatorSet} (hset : validateValidatorSet set = .ok ()) :
    (∀ heads heads' counts counts', heads.length ≤ set.members.length → heads.Perm heads' →
      counts.Perm (headCounts heads) → counts'.Perm (headCounts heads') →
        headQuorum c set counts = headQuorum c set counts') ∧
    (∀ proofs proofs' gs gs', proofs.length ≤ set.members.length → proofs.Perm proofs' →
      gs.Perm (groups stateValue proofs) → gs'.Perm (groups stateValue proofs') →
        SameCheckpoint (checkpointQuorum c set gs) (checkpointQuorum c set gs') ∧
          (proofs = proofs' → checkpointQuorum c set gs = checkpointQuorum c set gs')) ∧
    (∀ proofs proofs' gs gs', proofs.length ≤ set.members.length → proofs.Perm proofs' →
      gs.Perm (groups balanceValue proofs) → gs'.Perm (groups balanceValue proofs') →
        (agreedBalance set.threshold gs).map balanceRead = (agreedBalance set.threshold gs').map balanceRead ∧
          (proofs = proofs' → agreedBalance set.threshold gs = agreedBalance set.threshold gs')) ∧
    (∀ (α κ : Type) [DecidableEq κ] (value : α → κ) (proofs : List α), proofs.length ≤ set.members.length →
      ∀ k k', set.threshold ≤ (group value proofs k).length → set.threshold ≤ (group value proofs k').length → k = k') ∧
    (∀ (α : Type) (arrived arrived' : List (ℕ × α)), (arrived.map Prod.fst).Nodup → arrived.Perm arrived' →
      joinAll set arrived = joinAll set arrived') ∧
    (∀ answers, (signedHeads c set answers).length ≤ set.members.length) ∧
    (∀ answers, (signedStates c set answers).length ≤ set.members.length) ∧
    ∀ answers, (signedBalances c set answers).length ≤ set.members.length := by
  have hv := valid_of_validate hset
  refine ⟨?_, ?_, ?_, ?_, ?_, ?_, ?_, ?_⟩
  · intro heads heads' counts counts' hlen hperm hcounts hcounts'
    exact headQuorum_perm hv hlen hperm hcounts hcounts'
  · intro proofs proofs' gs gs' hlen hperm hgs hgs'
    exact checkpointQuorum_perm hv hlen hperm hgs hgs'
  · intro proofs proofs' gs gs' hlen hperm hgs hgs'
    exact agreedBalance_perm hv hlen hperm hgs hgs'
  · intro α κ _ value proofs hlen k k' hk hk'
    exact one_majority (lt_two_threshold hv hlen) hk hk'
  · intro α arrived arrived' hone hperm
    exact joinAll_perm set hone hperm
  · exact fun answers => length_signed_le set answers _
  · exact fun answers => length_signed_le set answers _
  · exact fun answers => length_signed_le set answers _

namespace Sample

/-- one seat's word for a balance and a height -/
def seatSays (seat : String) (balance : ℤ) (sequence : ℕ) : BalanceProof :=
  ⟨"account", balance, 9, 2, ⟨sequence, "hash", "set"⟩, seat, "signature"⟩

/-- three of four seats agree, from three heights; the fourth is ahead of two of them -/
def fourSeats : List BalanceProof := [seatSays "a" 7 4, seatSays "b" 5 6, seatSays "c" 7 9, seatSays "d" 7 5]

end Sample

/-- the freshest of the three that agree is read, in whichever order the map lists the two balances -/
theorem four_seats_one_balance :
    agreedBalance (Sample.committee 4).threshold (groups balanceValue Sample.fourSeats) = some (Sample.seatSays "c" 7 9) ∧
      agreedBalance (Sample.committee 4).threshold (groups balanceValue Sample.fourSeats).reverse =
        some (Sample.seatSays "c" 7 9) := by
  have hset : validateValidatorSet (Sample.committee 4) = .ok () := by decide +kernel
  have hread : agreedBalance (Sample.committee 4).threshold (groups balanceValue Sample.fourSeats) =
      some (Sample.seatSays "c" 7 9) := by decide +kernel
  have hunambiguous := (quorum_reads_unambiguous Sample.crypto hset).2.2.1 Sample.fourSeats Sample.fourSeats
    (groups balanceValue Sample.fourSeats) (groups balanceValue Sample.fourSeats).reverse (by decide +kernel)
    (List.Perm.refl _) (List.Perm.refl _) (List.reverse_perm _)
  exact ⟨hread, (hunambiguous.2 rfl).symm.trans hread⟩

end Hocmesh.Network
