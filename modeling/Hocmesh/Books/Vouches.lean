/-
How often a vouch can be used.

A vouch is signed over the hash of the set it was made against, and a membership change is claimed under the id of its
transaction alone. So what keeps a vouch from being presented again is that the set has moved on; a set that comes back
brings its vouches back with it. `changeLog` is every membership change of a history with the set it was judged against,
and `authority` the vouches that counted there.
-/
import Hocmesh.Books.Sample

namespace Hocmesh.Books

open Hocmesh.Base Hocmesh.Protocol Hocmesh.Compute Hocmesh.Ledger Hocmesh.Validator

/-! ## Histories -/

/-- certificates applied in order, each under the set the chain recognises at that point -/
inductive Applied (c : Crypto) (genesis : ValidatorSet) : List QuorumCertificate → LedgerStore → Prop
  | empty : Applied c genesis [] LedgerStore.empty
  | apply {certs : List QuorumCertificate} {st st' : LedgerStore} {cert : QuorumCertificate} :
      Applied c genesis certs st → st.apply c cert (sittingSet genesis st) = .ok st' →
        Applied c genesis (certs ++ [cert]) st'

/-- one membership change: its height, the set it was judged against, and its evidence -/
structure Change where
  height : ℕ
  set : ValidatorSet
  evidence : MembershipChangeEvidence

def changeOf (tx : LedgerTransaction) : Option MembershipChangeEvidence :=
  match tx.evidence with
  | .membershipChange e => some e
  | _ => none

/-- the membership changes of one certificate, with its height -/
def changesIn (cert : QuorumCertificate) : List (ℕ × MembershipChangeEvidence) :=
  (cert.entry.transactions.filterMap changeOf).map fun e => (cert.entry.sequence, e)

section

variable (c : Crypto)

/-- each change with the set its predecessors left -/
def walk (set : ValidatorSet) : List (ℕ × MembershipChangeEvidence) → List Change
  | [] => []
  | (height, e) :: rest =>
    ⟨height, set, e⟩ :: match verifyMembershipChange c set e with
      | .ok next => walk next rest
      | .error _ => []

def changeLog (genesis : ValidatorSet) (certs : List QuorumCertificate) : List Change :=
  walk c genesis (certs.flatMap changesIn)

/-- the hash of the set a change was judged against: what its vouches name -/
def Change.against (ch : Change) : String := membershipHash c ch.set

/-- what a vouch for this change is signed over -/
def Change.message (ch : Change) : String :=
  vouchSigningMessage (ch.against c) ch.evidence.action ch.evidence.member ch.evidence.resultingSetHash

/-- the vouches that count for a change: the ones sitting members really made -/
def Change.authority (ch : Change) : List ValidatorSignature :=
  ch.evidence.vouches.filter (signedByMember c ch.set (ch.message c))

end

variable {c : Crypto} {genesis : ValidatorSet}

/-! ## The log of a history -/

theorem evidence_changes {prev : String} {sigs : List ValidatorSignature} (txs : List LedgerTransaction)
    {set next : ValidatorSet} (h : txs.foldlM (LedgerStore.evidenceStep c prev sigs) set = .ok next) :
    (txs.filterMap changeOf).foldlM (verifyMembershipChange c) set = .ok next := by
  induction txs generalizing set with
  | nil => exact h
  | cons tx txs ih =>
    simp only [List.foldlM_cons, LedgerStore.evidenceStep, bind_ok, exists_ok_unit_and] at h
    obtain ⟨mid, ⟨_, hstep⟩, hrest⟩ := h
    cases he : tx.evidence with
    | membershipChange e =>
      simp only [he] at hstep
      have hsome : changeOf tx = some e := by simp only [changeOf, he]
      rw [List.filterMap_cons_some hsome, List.foldlM_cons, hstep]
      exact ih hrest
    | _ =>
      simp only [he, pure_ok] at hstep
      subst hstep
      have hnone : changeOf tx = none := by simp only [changeOf, he]
      rw [List.filterMap_cons_none hnone]
      exact ih hrest

/-- verified changes are all in the log, each judged against a set of the chain -/
theorem walk_verified (es : List (ℕ × MembershipChangeEvidence)) {set next : ValidatorSet}
    (h : (es.map (·.2)).foldlM (verifyMembershipChange c) set = .ok next) (hset : SetChain c genesis set) :
    (walk c set es).map (fun ch => (ch.height, ch.evidence)) = es ∧
      ∀ ch ∈ walk c set es, SetChain c genesis ch.set ∧ ∃ after, verifyMembershipChange c ch.set ch.evidence = .ok after := by
  induction es generalizing set with
  | nil => simp [walk]
  | cons x es ih =>
    simp only [List.map_cons, List.foldlM_cons, bind_ok] at h
    obtain ⟨mid, hstep, hrest⟩ := h
    obtain ⟨hall, hsets⟩ := ih hrest (hset.change hstep)
    simp only [walk, hstep, List.map_cons, hall, List.mem_cons, forall_eq_or_imp]
    exact ⟨trivial, ⟨hset, mid, rfl⟩, hsets⟩

/-- the changes of an applied history lead from genesis to the sitting set -/
theorem Applied.follows {certs : List QuorumCertificate} {st : LedgerStore} (h : Applied c genesis certs st) :
    (∀ k ∈ st.validatorSets, k ≤ st.headSequence) ∧
      ((certs.flatMap changesIn).map (·.2)).foldlM (verifyMembershipChange c) genesis = .ok (sittingSet genesis st) := by
  induction h with
  | empty => exact ⟨by simp [LedgerStore.empty], rfl⟩
  | @apply certs st st' cert _ hap ih =>
    obtain ⟨hrows, hfold⟩ := ih
    obtain ⟨next, balances, hok, rfl⟩ := apply_ok.1 hap
    have hle : ∀ k ∈ st.validatorSets, k ≤ cert.entry.sequence := by
      intro k hk
      have := hrows k hk
      rw [hok.sequence]
      omega
    have hstep := evidence_changes _ hok.evidence
    have hunchanged : LedgerStore.changesSet cert.entry.transactions = false → next = sittingSet genesis st := by
      intro hno
      have hnil : cert.entry.transactions.filterMap changeOf = [] := by
        rw [List.filterMap_eq_nil_iff]
        intro tx htx
        have hf := List.any_eq_false.1 hno tx htx
        unfold changeOf
        cases he : tx.evidence <;> simp [he] at hf ⊢
      rw [hnil] at hstep
      cases hstep
      rfl
    refine ⟨?_, ?_⟩
    · intro k hk
      rw [headSequence_commitRows]
      exact commitRows_set_le hle hk
    · rw [sittingSet_commitRows hle rfl hunchanged]
      simp only [List.flatMap_append, List.flatMap_cons, List.flatMap_nil, List.append_nil, List.map_append, changesIn,
        List.map_map]
      rw [foldlM_append_ok]
      refine ⟨_, hfold, ?_⟩
      simpa only [Function.comp_def, List.map_id'] using hstep

/-! ## One vouch, one set -/

theorem vouchSigningMessage_against {prev prev' : Payload} {action action' : MembershipAction}
    {member member' : ValidatorMember} {result result' : String}
    (h : vouchSigningMessage (hashJson c prev) action member result =
      vouchSigningMessage (hashJson c prev') action' member' result') : hashJson c prev = hashJson c prev' := by
  have hl := congrArg String.toList h
  unfold vouchSigningMessage at hl
  simp only [String.toList_append, List.append_assoc] at hl
  rw [List.append_cancel_left_eq] at hl
  exact String.toList_inj.1 (append_sep_inj (hashJson_no_bar c prev) (hashJson_no_bar c prev') hl).1

/-- a signature a sitting member really made: its bytes verify over the message under some key -/
theorem verified_of_signed {set : ValidatorSet} {message : String} {v : ValidatorSignature}
    (h : signedByMember c set message v = true) :
    ∃ pk sig, c.decode v.signatureB64 = some sig ∧ c.verify pk (bytesOf message) sig = true := by
  unfold signedByMember at h
  cases hm : set.members.find? (fun m => m.validatorId = v.validatorId) with
  | none => simp [hm] at h
  | some m =>
    simp only [hm, verifyValidatorSignature] at h
    cases hpk : c.decode m.publicKeyB64 with
    | none => simp [hpk] at h
    | some pk =>
      simp only [hpk] at h
      split_ifs at h
      cases hsig : c.decode v.signatureB64 with
      | none => simp [hsig] at h
      | some sig =>
        simp only [hsig, decide_eq_true_eq] at h
        exact ⟨pk, sig, rfl, h.2⟩

/-- a count of signatures above zero has counted one -/
theorem exists_signed {set : ValidatorSet} {message : String} (l : List ValidatorSignature) (seen : List String)
    (h : 0 < goodSigners c set message seen l) : ∃ v ∈ l, signedByMember c set message v = true := by
  induction l generalizing seen with
  | nil => simp [goodSigners] at h
  | cons v l ih =>
    unfold goodSigners at h
    split_ifs at h with hseen hsigned
    · obtain ⟨w, hw, hgood⟩ := ih seen h
      exact ⟨w, List.mem_cons_of_mem _ hw, hgood⟩
    · exact ⟨v, List.mem_cons_self, hsigned⟩
    · obtain ⟨w, hw, hgood⟩ := ih (v.validatorId :: seen) (by omega)
      exact ⟨w, List.mem_cons_of_mem _ hw, hgood⟩

/-- a verified change rests on at least one vouch that counts -/
theorem authority_nonempty {ch : Change} {after : ValidatorSet} (hvalid : ch.set.Valid)
    (h : verifyMembershipChange c ch.set ch.evidence = .ok after) : ch.authority c ≠ [] := by
  simp only [verifyMembershipChange, bind_ok, bailIf_ok, exists_const, pure_ok, not_lt] at h
  obtain ⟨_, _, hgood, _⟩ := h
  have hpos : 0 < ch.set.threshold := by
    have := hvalid.above_two_thirds
    omega
  obtain ⟨v, hv, hsigned⟩ := exists_signed _ _ (hpos.trans_le hgood)
  exact List.ne_nil_of_mem (List.mem_filter.2 ⟨hv, hsigned⟩)

/-- if a signature is over one message only, changes judged against different sets share no vouch -/
theorem authority_disjoint
    (hsig : ∀ pk pk' m m' sig, c.verify pk m sig = true → c.verify pk' m' sig = true → m = m') {a b : Change}
    (hne : a.against c ≠ b.against c) {v : ValidatorSignature} (hv : v ∈ b.authority c) : v ∉ a.authority c := by
  intro hv'
  obtain ⟨pk, sig, hdec, hver⟩ := verified_of_signed (List.mem_filter.1 hv).2
  obtain ⟨pk', sig', hdec', hver'⟩ := verified_of_signed (List.mem_filter.1 hv').2
  have hsame : sig' = sig := by
    rw [hdec] at hdec'
    exact (Option.some.inj hdec').symm
  rw [hsame] at hver'
  exact hne (vouchSigningMessage_against (bytesOf_inj (hsig pk' pk _ _ sig hver' hver)))

/-- **When vouches are single-use.** In every applied history in which no change is judged against a set hash that an
earlier change was judged against: the log holds every membership change of the history in order, each rests on at least
one vouch, and no vouch that counts for a change counts for a later one. -/
theorem vouches_used_once
    (hsig : ∀ pk pk' m m' sig, c.verify pk m sig = true → c.verify pk' m' sig = true → m = m')
    (hg : validateValidatorSet genesis = .ok ()) {certs : List QuorumCertificate} {st : LedgerStore}
    (h : Applied c genesis certs st) (hnew : ((changeLog c genesis certs).map (Change.against c)).Nodup) :
    (changeLog c genesis certs).map (fun ch => (ch.height, ch.evidence)) = certs.flatMap changesIn ∧
    (∀ ch ∈ changeLog c genesis certs, ch.authority c ≠ []) ∧
    (changeLog c genesis certs).Pairwise fun earlier later =>
      ∀ v ∈ later.authority c, v ∉ earlier.authority c := by
  obtain ⟨_, hfold⟩ := h.follows
  obtain ⟨hall, hsets⟩ := walk_verified _ hfold SetChain.genesis
  refine ⟨hall, ?_, ?_⟩
  · intro ch hch
    obtain ⟨hchain, after, hafter⟩ := hsets ch hch
    exact authority_nonempty (valid_of_validate (hchain.keeps hg).1) hafter
  · have hpair : (changeLog c genesis certs).Pairwise fun a b => a.against c ≠ b.against c := List.pairwise_map.1 hnew
    refine hpair.imp ?_
    intro a b hne v hv
    exact authority_disjoint hsig hne hv

/-! ## A set that comes back -/

namespace Sample

open Hocmesh.Protocol.Sample

/-- validator 0 admits validator 1 -/
def joinVouched : MembershipChangeEvidence :=
  Ledger.Sample.vouchedChange (committee 1) (committee 2) .join (member 1) [0]

/-- both let validator 1 leave again -/
def leaveVouched : MembershipChangeEvidence :=
  Ledger.Sample.vouchedChange (committee 2) (committee 1) .leave (member 1) [0, 1]

/-- validator 1 joins and leaves -/
def joinAndLeave : List (List LedgerTransaction) :=
  [[membershipChange "join" joinVouched 50], [membershipChange "leave" leaveVouched 60]]

/-- and is brought back on the vouches it was admitted with -/
def rejoin : List (List LedgerTransaction) := joinAndLeave ++ [[membershipChange "rejoin" joinVouched 70]]

/-- certify and apply one batch after another, with primitives of choice -/
def applyBatches (c : Crypto) (genesis : ValidatorSet) (batches : List (List LedgerTransaction)) :
    Check (List QuorumCertificate × LedgerStore) :=
  batches.foldlM (fun p txs => do
    let cert := certify (sittingSet genesis p.2) [0, 1] p.2 txs
    let st ← p.2.apply c cert (sittingSet genesis p.2)
    pure (p.1 ++ [cert], st)) ([], LedgerStore.empty)

theorem applied_of_applyBatches {c : Crypto} {genesis : ValidatorSet} {batches : List (List LedgerTransaction)}
    {p : List QuorumCertificate × LedgerStore} (h : applyBatches c genesis batches = .ok p) :
    Applied c genesis p.1 p.2 := by
  refine foldlM_inv _ (fun _ p => Applied c genesis p.1 p.2) ?_ batches [] _ _ .empty h
  intro _ p txs p' hp hstep
  simp only [bind_ok, pure_ok] at hstep
  obtain ⟨st, hap, rfl⟩ := hstep
  exact hp.apply hap

/-- whether a signature was made by one of these keys over one of these messages -/
def onRecord (keys : List (List UInt8)) (messages : List String) (pk m sig : List UInt8) : Bool :=
  decide (pk ∈ keys) && messages.any fun message => m = bytesOf message ∧ sig = signBytes pk m

/-- the stand-in primitives when nothing else was ever signed -/
def recorded (keys : List (List UInt8)) (messages : List String) : Crypto :=
  { crypto with verify := onRecord keys messages }

theorem recorded_one_message {keys : List (List UInt8)} {messages : List String}
    (h : ∀ pk ∈ keys, ∀ pk' ∈ keys, ∀ m ∈ messages, ∀ m' ∈ messages,
      signBytes pk (bytesOf m) = signBytes pk' (bytesOf m') → m = m') (pk pk' m m' sig : List UInt8)
    (hv : (recorded keys messages).verify pk m sig = true) (hv' : (recorded keys messages).verify pk' m' sig = true) :
    m = m' := by
  simp only [recorded, onRecord, Bool.and_eq_true, decide_eq_true_eq, List.any_eq_true] at hv hv'
  obtain ⟨hpk, a, ha, rfl, hs⟩ := hv
  obtain ⟨hpk', b, hb, rfl, hs'⟩ := hv'
  rw [h pk hpk pk' hpk' a ha b hb (hs.symm.trans hs')]

/-- everything that is signed while validator 1 joins and leaves -/
def joinAndLeaveMessages : List String :=
  let one := membershipHash crypto (committee 1)
  let two := membershipHash crypto (committee 2)
  let first := buildEntry crypto 1 "GENESIS" [membershipChange "join" joinVouched 50]
  let second := buildEntry crypto 2 first.entryHash [membershipChange "leave" leaveVouched 60]
  [vouchSigningMessage one .join (member 1) two, vouchSigningMessage two .leave (member 1) one,
    ledgerEntrySigningMessage one first.entryHash, ledgerEntrySigningMessage two second.entryHash]

def joinAndLeaveCrypto : Crypto := recorded [publicKey 0, publicKey 1] joinAndLeaveMessages

/-- what evaluating the model on the two chains gives: with the member brought back, and with everything on record -/
theorem rejoined_evaluated :
    ((applyBatches crypto (committee 1) rejoin).okWith fun p =>
      p.1.flatMap changesIn = [(1, joinVouched), (2, leaveVouched), (3, joinVouched)]) = true ∧
    ((applyBatches joinAndLeaveCrypto (committee 1) joinAndLeave).okWith fun p =>
      p.1.flatMap changesIn = [(1, joinVouched), (2, leaveVouched)] ∧
        ((changeLog joinAndLeaveCrypto (committee 1) p.1).map (Change.against joinAndLeaveCrypto)).Nodup) = true ∧
    (∀ pk ∈ [publicKey 0, publicKey 1], ∀ pk' ∈ [publicKey 0, publicKey 1], ∀ m ∈ joinAndLeaveMessages,
      ∀ m' ∈ joinAndLeaveMessages, signBytes pk (bytesOf m) = signBytes pk' (bytesOf m') → m = m') ∧
    validateValidatorSet (committee 1) = .ok () := by
  refine ⟨?_, ?_, ?_, ?_⟩
  · decide +kernel
  · decide +kernel
  · decide +kernel
  · decide +kernel

end Sample

/-- the join's own vouches admit the same member at height one and again at height three -/
theorem vouches_used_twice :
    ∃ certs st e, Applied Sample.crypto (Sample.committee 1) certs st ∧ (1, e) ∈ certs.flatMap changesIn ∧
      (3, e) ∈ certs.flatMap changesIn := by
  obtain ⟨p, hp, hlog⟩ := (okWith_iff _ _).1 Sample.rejoined_evaluated.1
  rw [decide_eq_true_eq] at hlog
  refine ⟨p.1, p.2, Sample.joinVouched, Sample.applied_of_applyBatches hp, ?_, ?_⟩
  · rw [hlog]
    simp
  · rw [hlog]
    simp

/-- while validator 1 only joins and leaves, no vouch counts twice -/
theorem join_and_leave_used_once :
    ∃ certs st, Applied Sample.joinAndLeaveCrypto (Sample.committee 1) certs st ∧
      certs.flatMap changesIn = [(1, Sample.joinVouched), (2, Sample.leaveVouched)] ∧
      (changeLog Sample.joinAndLeaveCrypto (Sample.committee 1) certs).Pairwise fun earlier later =>
        ∀ v ∈ later.authority Sample.joinAndLeaveCrypto, v ∉ earlier.authority Sample.joinAndLeaveCrypto := by
  obtain ⟨-, hrun, hapart, hg⟩ := Sample.rejoined_evaluated
  obtain ⟨p, hp, hfacts⟩ := (okWith_iff _ _).1 hrun
  obtain ⟨hlog, hnew⟩ := of_decide_eq_true hfacts
  have happlied := Sample.applied_of_applyBatches hp
  have honce := vouches_used_once (Sample.recorded_one_message hapart) hg happlied hnew
  exact ⟨p.1, p.2, happlied, hlog, honce.2.2⟩

end Hocmesh.Books
