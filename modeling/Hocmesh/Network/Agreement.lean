/-
Agreement: at every height, all the certificates clients assemble are for one entry.

Each height is one decision in the sense of `Voting`: a vote is a proposal a validator answered with a signature, the
value is the batch, and a ballot is closed to a validator once its head has reached the height or it has promised a later
one. The invariant `Settled` says that every proposal is safe to vote for. Two certificates of one height then carry one
batch, and because the entries below agree they carry it on one previous hash: one entry.
-/
import Hocmesh.Base.Voting
import Hocmesh.Ledger.SetChain
import Hocmesh.Network.Seats
import Hocmesh.Books.Sample

namespace Hocmesh.Network

open Hocmesh.Base Hocmesh.Protocol Hocmesh.Ledger Hocmesh.Validator

/-! ## A height as a decision -/

/-- a validator will not vote under this ballot at this height any more -/
def Closed (st : LedgerStore) (s : ℕ) (b : Ballot) : Prop :=
  s ≤ st.headSequence ∨ ∃ p, st.promisedBallot s = some p ∧ b < p

/-- the votes ever given at a height, and the ballots its validators have left behind -/
def votingAt (net : Net) (s : ℕ) : Voting String Ballot (List LedgerTransaction) where
  voted v b txs := ∃ vote, (v, ⟨txs, s, b⟩, vote) ∈ net.votes ∧ vote.accepted = true
  closed v b := Closed (net.apps v).store s b

/-- what a prepare vote reports -/
def latestVote (accepted : Option AcceptedProposal) : Option (Ballot × List LedgerTransaction) :=
  accepted.map fun a => (a.ballot, a.transactions)

/-- the row a validator below the height keeps: its newest vote, under a promise that is no older -/
structure Row (st : LedgerStore) (s : ℕ) (cast : Ballot → List LedgerTransaction → Prop) : Prop where
  accepted : ∀ a, st.acceptedAt s = some a →
    cast a.ballot a.transactions ∧ ∃ p, st.promisedBallot s = some p ∧ a.ballot ≤ p
  latest : ∀ b txs, cast b txs → ∃ a, st.acceptedAt s = some a ∧ b ≤ a.ballot

theorem Closed.advance {certs : List QuorumCertificate} {st st' : LedgerStore} {s : ℕ} {b : Ballot}
    (h : Closed st s b) (hadv : Advances certs st st') : Closed st' s b := by
  rcases h with hhead | ⟨p, hp, hlt⟩
  · exact Or.inl (hhead.trans hadv.head)
  · rcases le_or_gt s st'.headSequence with hs | hs
    · exact Or.inl hs
    · obtain ⟨p', hp', hle⟩ := hadv.promised s p hs hp
      exact Or.inr ⟨p', hp', hlt.trans_le hle⟩

theorem Row.congr {st : LedgerStore} {s : ℕ} {cast cast' : Ballot → List LedgerTransaction → Prop} (h : Row st s cast)
    (heq : ∀ b txs, cast' b txs ↔ cast b txs) : Row st s cast' where
  accepted a ha := by
    obtain ⟨hcast, hp⟩ := h.accepted a ha
    exact ⟨(heq a.ballot a.transactions).2 hcast, hp⟩
  latest b txs hcast := h.latest b txs ((heq b txs).1 hcast)

theorem Row.advance {certs : List QuorumCertificate} {st st' : LedgerStore} {s : ℕ}
    {cast : Ballot → List LedgerTransaction → Prop} (h : Row st s cast) (hadv : Advances certs st st')
    (hs : st'.headSequence < s) : Row st' s cast where
  accepted a ha := by
    rw [hadv.accepted s hs] at ha
    obtain ⟨hcast, p, hp, hle⟩ := h.accepted a ha
    obtain ⟨p', hp', hle'⟩ := hadv.promised s p hs hp
    exact ⟨hcast, p', hp', hle.trans hle'⟩
  latest b txs hcast := by
    rw [hadv.accepted s hs]
    exact h.latest b txs hcast

/-- a certificate: an entry on a certified head, whose batch a quorum voted for under one ballot -/
def Certified (c : Crypto) (set : ValidatorSet) (net : Net) (cert : QuorumCertificate) : Prop :=
  verifyCertificate c cert set = .ok () ∧ ∃ n previousHash txs b, cert.entry = buildEntry c (n + 1) previousHash txs ∧
    HeadAt net.certs n previousHash ∧ Voting.Chosen set.Quorum (votingAt net (n + 1)) b txs

structure Settled (c : Crypto) (set : ValidatorSet) (net : Net) : Prop where
  named : ∀ p, (net.clients p).proposer = p
  numbered : ∀ b, net.attempts b ≠ none → b.number ≤ (net.clients b.proposer).ballot
  proposed : ∀ req ∈ net.proposals, ∃ att, net.attempts req.ballot = some att ∧ att.stage ≠ .claiming
  one_proposal : ∀ req ∈ net.proposals, ∀ req' ∈ net.proposals, req.ballot = req'.ballot → req = req'
  asking : ∀ b att expected req, net.attempts b = some att → att.stage = .proposing expected req →
    req ∈ net.proposals ∧ expected = buildEntry c req.sequence att.head.entryHash req.transactions
  cast : ∀ v req vote, (v, req, vote) ∈ net.votes → vote.accepted = true →
    req ∈ net.proposals ∧ ∃ n, req.sequence = n + 1 ∧ HeadAt net.certs n vote.previousHash
  row : ∀ v s, (net.apps v).store.headSequence < s → Row (net.apps v).store s ((votingAt net s).voted v)
  promise : ∀ v req vote, (v, req, vote) ∈ net.promises → vote.promised = true →
    Voting.Promise (votingAt net req.sequence) v req.ballot (latestVote vote.accepted)
  safe : ∀ req ∈ net.proposals, Voting.SafeAt set.Quorum (votingAt net req.sequence) req.ballot req.transactions
  certified : ∀ cert ∈ net.certs, Certified c set net cert
  chained : ∀ v, Chained net.certs (net.apps v).store

section

variable {c : Crypto} {set : ValidatorSet} {net : Net}

/-- every vote at a height is for a proposal of its ballot, and every proposal is safe -/
theorem Settled.sound (h : Settled c set net) (s : ℕ) : Voting.Sound set.Quorum (votingAt net s) where
  one_value := by
    rintro v v' b txs txs' ⟨vote, hin, hacc⟩ ⟨vote', hin', hacc'⟩
    obtain ⟨hreq, _⟩ := h.cast v _ vote hin hacc
    obtain ⟨hreq', _⟩ := h.cast v' _ vote' hin' hacc'
    have heq := h.one_proposal _ hreq _ hreq' rfl
    cases heq
    rfl
  safe := by
    rintro v b txs ⟨vote, hin, hacc⟩
    obtain ⟨hreq, _⟩ := h.cast v _ vote hin hacc
    exact h.safe _ hreq

theorem settled_start (keys : String → String → String) : Settled c set (Net.start set keys) where
  named p := rfl
  numbered b hb := absurd rfl hb
  proposed req hreq := nomatch hreq
  one_proposal req hreq := nomatch hreq
  asking b att expected req hatt := nomatch hatt
  cast v req vote hin := nomatch hin
  row v s _ := by
    constructor
    · intro a ha
      simp [Net.start, LedgerStore.acceptedAt, LedgerStore.empty] at ha
    · rintro b txs ⟨vote, hin, _⟩
      cases hin
  promise v req vote hin := nomatch hin
  safe req hreq := nomatch hreq
  certified cert hin := nomatch hin
  chained v := by
    intro i cert hi
    simp [Net.start, LedgerStore.empty] at hi

/-! ## Steps of the validators -/

theorem Certified.extend {net' : Net} {cert : QuorumCertificate} (h : Certified c set net cert)
    (hcerts : net'.certs = net.certs) (hext : ∀ s, Voting.Extends (votingAt net s) (votingAt net' s)) :
    Certified c set net' cert := by
  obtain ⟨hverify, n, prev, txs, b, hentry, hhead, Q, hQ, hvotes⟩ := h
  refine ⟨hverify, n, prev, txs, b, hentry, hcerts ▸ hhead, Q, hQ, ?_⟩
  intro v hv
  exact (hext (n + 1)).voted v b txs (hvotes v hv)

/-- whatever changes only the validators and their votes keeps the invariant, if it takes nothing back -/
theorem Settled.seats (h : Settled c set net) {apps : String → App}
    {votes : List (String × ProposalRequest × ProposalVote)}
    (hext : ∀ s, Voting.Extends (votingAt net s) (votingAt { net with apps := apps, votes := votes } s))
    (hcast : ∀ v req vote, (v, req, vote) ∈ votes → vote.accepted = true →
      req ∈ net.proposals ∧ ∃ n, req.sequence = n + 1 ∧ HeadAt net.certs n vote.previousHash)
    (hrow : ∀ v s, (apps v).store.headSequence < s →
      Row (apps v).store s ((votingAt { net with apps := apps, votes := votes } s).voted v))
    (hchained : ∀ v, Chained net.certs (apps v).store) : Settled c set { net with apps := apps, votes := votes } where
  named := h.named
  numbered := h.numbered
  proposed := h.proposed
  one_proposal := h.one_proposal
  asking := h.asking
  cast := hcast
  row := hrow
  promise v req vote hin hp := (h.promise v req vote hin hp).mono (hext req.sequence)
  safe req hreq := (h.safe req hreq).mono (hext req.sequence)
  certified cert hin := (h.certified cert hin).extend rfl hext
  chained := hchained

/-- a fact about every party, after one of them was replaced -/
theorem forall_update {α : Type} {P : String → α → Prop} {v : String} {a : α} {f : String → α} (hv : P v a)
    (hother : ∀ w, w ≠ v → P w (f w)) : ∀ w, P w (Function.update f v a w) := by
  intro w
  by_cases hw : w = v
  · subst hw
    rwa [Function.update_self]
  · rw [Function.update_of_ne hw]
    exact hother w hw

/-- **Steps without a vote.** Preparing, committing, catching up, publishing a set and restarting. -/
theorem Settled.advance (h : Settled c set net) {v : String} {a : App}
    (hadv : Advances net.certs (net.apps v).store a.store) : Settled c set (net.setApp v a) := by
  refine @Settled.seats _ _ _ h _ net.votes ?_ h.cast ?_ ?_
  · intro s
    refine ⟨fun w b txs hv => hv, ?_, fun w b txs _ hv => hv⟩
    intro w b
    refine forall_update (P := fun w (a : App) => Closed (net.apps w).store s b → Closed a.store s b) ?_ ?_ w
    · exact fun hclosed => hclosed.advance hadv
    · exact fun w _ hclosed => hclosed
  · intro w s
    refine forall_update (P := fun w (a : App) => a.store.headSequence < s → Row a.store s ((votingAt net s).voted w)) ?_ ?_ w
    · exact fun hs => (h.row v s (hadv.head.trans_lt hs)).advance hadv hs
    · exact fun w _ => h.row w s
  · exact forall_update (P := fun _ (a : App) => Chained net.certs a.store) (hadv.chained (h.chained v)) fun w _ => h.chained w

/-- an answer to a prepare request joins the pool -/
theorem Settled.promised (h : Settled c set net) {v : String} {req : PrepareRequest} {vote : PrepareVote}
    (hp : vote.promised = true →
      Voting.Promise (votingAt net req.sequence) v req.ballot (latestVote vote.accepted)) :
    Settled c set { net with promises := (v, req, vote) :: net.promises } where
  named := h.named
  numbered := h.numbered
  proposed := h.proposed
  one_proposal := h.one_proposal
  asking := h.asking
  cast := h.cast
  row := h.row
  promise w req' vote' hin hp' := by
    rcases List.mem_cons.1 hin with heq | hin
    · cases heq
      exact hp hp'
    · exact h.promise w req' vote' hin hp'
  safe := h.safe
  certified := h.certified
  chained := h.chained

/-- **A promise.** Earlier ballots are closed, and the row handed back is the newest vote. -/
theorem Settled.prepare (h : Settled c set net) (v : String) (req : PrepareRequest) :
    Settled c set { net.setApp v (prepare (net.apps v) req).1 with
      promises := (v, req, (prepare (net.apps v) req).2) :: net.promises } := by
  refine (h.advance (advances_prepare net.certs (net.apps v) req)).promised ?_
  intro hp
  rcases prepare_cases (net.apps v) req with ⟨_, hrefused⟩ | ⟨hseq, hheld, hstore, hacc⟩
  · rw [hrefused] at hp
    cases hp
  · obtain ⟨haccepted, hlatest⟩ := h.row v req.sequence (by omega)
    rw [hacc]
    constructor
    case closed =>
      intro b hb
      refine Or.inr ⟨req.ballot, ?_, hb⟩
      change (Function.update net.apps v (Validator.prepare (net.apps v) req).1 v).store.promisedBallot req.sequence = _
      rw [Function.update_self, hstore]
      simp [LedgerStore.promisedBallot]
    case newest =>
      intro b _ txs hvote
      obtain ⟨a, ha, hle⟩ := hlatest b txs hvote
      exact ⟨a.ballot, a.transactions, by rw [ha]; rfl, hle⟩
    case cast =>
      intro b txs hb
      obtain ⟨a, ha, hpair⟩ := Option.map_eq_some_iff.1 hb
      cases hpair
      obtain ⟨hvote, p, hprom, hle⟩ := haccepted a ha
      exact ⟨hvote, hle.trans ((not_outranks_iff p req.ballot).1 (hheld p hprom))⟩

/-! ## Voting -/

/-- the row of a proposal that was accepted -/
def acceptedStore (st : LedgerStore) (s : ℕ) (b : Ballot) (hash : String) (txs : List LedgerTransaction) :
    LedgerStore :=
  { st with ballots := st.ballots.insert s ⟨b, some ⟨b, hash, txs⟩⟩ }

section

variable {st : LedgerStore} {s : ℕ} {b : Ballot} {hash : String} {txs : List LedgerTransaction}

theorem acceptedStore_acceptedAt (s' : ℕ) : (acceptedStore st s b hash txs).acceptedAt s' =
    if s = s' then some ⟨b, hash, txs⟩ else st.acceptedAt s' := by
  simp only [acceptedStore, LedgerStore.acceptedAt, Table.get_insert]
  split_ifs <;> rfl

theorem acceptedStore_promisedBallot (s' : ℕ) : (acceptedStore st s b hash txs).promisedBallot s' =
    if s = s' then some b else st.promisedBallot s' := by
  simp only [acceptedStore, LedgerStore.promisedBallot, Table.get_insert]
  split_ifs <;> rfl

theorem Closed.accept (hheld : ∀ held, st.promisedBallot s = some held → ¬ held.outranks b) {s' : ℕ} {b' : Ballot}
    (h : Closed st s' b') : Closed (acceptedStore st s b hash txs) s' b' := by
  rcases h with hhead | ⟨p, hp, hlt⟩
  · exact Or.inl hhead
  · by_cases hs : s = s'
    · subst hs
      refine Or.inr ⟨b, ?_, hlt.trans_le ((not_outranks_iff p b).1 (hheld p hp))⟩
      rw [acceptedStore_promisedBallot, if_pos rfl]
    · refine Or.inr ⟨p, ?_, hlt⟩
      rw [acceptedStore_promisedBallot, if_neg hs]
      exact hp

theorem Row.accept {cast cast' : Ballot → List LedgerTransaction → Prop} (h : Row st s cast)
    (hheld : ∀ held, st.promisedBallot s = some held → ¬ held.outranks b)
    (hcast : ∀ b' txs', cast' b' txs' ↔ cast b' txs' ∨ (b' = b ∧ txs' = txs)) :
    Row (acceptedStore st s b hash txs) s cast' where
  accepted a ha := by
    rw [acceptedStore_acceptedAt, if_pos rfl] at ha
    cases ha
    refine ⟨(hcast b txs).2 (Or.inr ⟨rfl, rfl⟩), b, ?_, le_rfl⟩
    rw [acceptedStore_promisedBallot, if_pos rfl]
  latest b' txs' hb' := by
    refine ⟨⟨b, hash, txs⟩, by rw [acceptedStore_acceptedAt, if_pos rfl], ?_⟩
    rcases (hcast b' txs').1 hb' with hold | ⟨rfl, _⟩
    · -- every earlier vote was under a ballot no later than the promise, and the promise did not outrank this one
      obtain ⟨a, ha, hle⟩ := h.latest b' txs' hold
      obtain ⟨_, p, hp, hle'⟩ := h.accepted a ha
      exact (hle.trans hle').trans ((not_outranks_iff p b).1 (hheld p hp))
    · exact le_rfl

theorem Row.elsewhere {s' : ℕ} (hne : s ≠ s') {cast : Ballot → List LedgerTransaction → Prop} (h : Row st s' cast) :
    Row (acceptedStore st s b hash txs) s' cast where
  accepted a ha := by
    rw [acceptedStore_acceptedAt, if_neg hne] at ha
    rw [acceptedStore_promisedBallot, if_neg hne]
    exact h.accepted a ha
  latest b' txs' hb' := by
    rw [acceptedStore_acceptedAt, if_neg hne]
    exact h.latest b' txs' hb'

end

/-- a refusal adds nothing that counts as a vote -/
theorem Settled.refused (h : Settled c set net) {v : String} {req : ProposalRequest} {vote : ProposalVote}
    (hacc : vote.accepted = false) : Settled c set { net with votes := (v, req, vote) :: net.votes } := by
  have hold : ∀ w req' x, (w, req', x) ∈ (v, req, vote) :: net.votes → x.accepted = true →
      (w, req', x) ∈ net.votes := by
    intro w req' x hin hx
    rcases List.mem_cons.1 hin with heq | hin
    · cases heq
      rw [hacc] at hx
      cases hx
    · exact hin
  have hsame : ∀ s w b txs, (votingAt { net with votes := (v, req, vote) :: net.votes } s).voted w b txs ↔
      (votingAt net s).voted w b txs := by
    intro s w b txs
    constructor
    · rintro ⟨x, hin, hx⟩
      exact ⟨x, hold _ _ _ hin hx, hx⟩
    · rintro ⟨x, hin, hx⟩
      exact ⟨x, List.mem_cons_of_mem _ hin, hx⟩
  refine h.seats (fun s => ⟨?_, fun w b hc => hc, ?_⟩) ?_ ?_ h.chained
  · exact fun w b txs hv => (hsame s w b txs).2 hv
  · exact fun w b txs _ hv => (hsame s w b txs).1 hv
  · exact fun w req' x hin hx => h.cast w req' x (hold w req' x hin hx) hx
  · exact fun w s hs => (h.row w s hs).congr (hsame s w)

/-- an accepted proposal is a vote under a ballot that was not closed -/
theorem Settled.accepted (h : Settled c set net) {v : String} {req : ProposalRequest} {vote : ProposalVote} {a : App}
    {hash : String} (hreq : req ∈ net.proposals) (hseq : req.sequence = (net.apps v).store.headSequence + 1)
    (hheld : ∀ held, (net.apps v).store.promisedBallot req.sequence = some held → ¬ held.outranks req.ballot)
    (hstore : a.store = acceptedStore (net.apps v).store req.sequence req.ballot hash req.transactions)
    (hprev : vote.previousHash = (net.apps v).store.headHash) (hacc : vote.accepted = true) :
    Settled c set { net.setApp v a with votes := (v, req, vote) :: net.votes } := by
  have hvoted : ∀ s w b txs, (votingAt { net.setApp v a with votes := (v, req, vote) :: net.votes } s).voted w b txs ↔
      (votingAt net s).voted w b txs ∨ (w = v ∧ s = req.sequence ∧ b = req.ballot ∧ txs = req.transactions) := by
    intro s w b txs
    constructor
    · rintro ⟨x, hin, hx⟩
      rcases List.mem_cons.1 hin with heq | hin
      · cases heq
        exact Or.inr ⟨rfl, rfl, rfl, rfl⟩
      · exact Or.inl ⟨x, hin, hx⟩
    · rintro (⟨x, hin, hx⟩ | ⟨rfl, rfl, rfl, rfl⟩)
      · exact ⟨x, List.mem_cons_of_mem _ hin, hx⟩
      · exact ⟨vote, List.mem_cons_self, hacc⟩
  refine h.seats (fun s => ⟨?_, ?_, ?_⟩) ?_ ?_ ?_
  · exact fun w b txs hv => (hvoted s w b txs).2 (Or.inl hv)
  · intro w b
    refine forall_update (P := fun w (a : App) => Closed (net.apps w).store s b → Closed a.store s b) ?_ ?_ w
    · rw [hstore]
      exact fun hclosed => hclosed.accept hheld
    · exact fun w _ hclosed => hclosed
  · intro w b txs hclosed hv
    rcases (hvoted s w b txs).1 hv with hold | ⟨rfl, rfl, rfl, rfl⟩
    · exact hold
    · rcases hclosed with hhead | ⟨p, hp, hlt⟩
      · omega
      · exact absurd hlt (not_lt.2 ((not_outranks_iff p req.ballot).1 (hheld p hp)))
  · intro w req' x hin hx
    rcases List.mem_cons.1 hin with heq | hin
    · cases heq
      exact ⟨hreq, _, hseq, hprev ▸ (h.chained v).headAt⟩
    · exact h.cast w req' x hin hx
  · intro w s
    refine forall_update (P := fun w (x : App) => x.store.headSequence < s → Row x.store s
      ((votingAt { net.setApp v a with votes := (v, req, vote) :: net.votes } s).voted w)) ?_ ?_ w
    · rw [hstore]
      intro hs
      have hrow := h.row v s hs
      by_cases hheight : s = req.sequence
      · subst hheight
        refine hrow.accept hheld ?_
        intro b txs
        rw [hvoted]
        simp
      · refine (hrow.elsewhere (Ne.symm hheight)).congr ?_
        intro b txs
        rw [hvoted]
        simp [hheight]
    · intro w hw hs
      refine (h.row w s hs).congr ?_
      intro b txs
      rw [hvoted]
      simp [hw]
  · refine forall_update (P := fun _ (a : App) => Chained net.certs a.store) ?_ fun w _ => h.chained w
    rw [hstore]
    exact h.chained v

/-- **A vote**, or a refusal. -/
theorem Settled.propose (h : Settled c set net) (v : String) {req : ProposalRequest} (hreq : req ∈ net.proposals) :
    Settled c set { net.setApp v (propose c (net.apps v) req).1 with
      votes := (v, req, (propose c (net.apps v) req).2) :: net.votes } := by
  rcases propose_cases c (net.apps v) req with ⟨happ, hrefused⟩ | ⟨hseq, hheld, happ, hacc, _, hprev, _⟩
  · rw [happ, Net.setApp, Function.update_eq_self]
    exact h.refused hrefused
  · rw [happ]
    exact h.accepted hreq hseq hheld rfl hprev hacc

/-! ## Steps of the clients -/

/-- a client's counter only grows -/
theorem Settled.outbid (h : Settled c set net) {p : String} {n : LedgerNetwork} (hname : n.proposer = p)
    (hle : (net.clients p).ballot ≤ n.ballot) :
    Settled c set { net with clients := Function.update net.clients p n } where
  named := forall_update (P := fun q (n : LedgerNetwork) => n.proposer = q) hname fun q _ => h.named q
  numbered b hb := by
    refine forall_update (P := fun q (n : LedgerNetwork) => b.proposer = q → b.number ≤ n.ballot) ?_ ?_ b.proposer rfl
    · intro hq
      exact (hq ▸ h.numbered b hb).trans hle
    · intro q _ hq
      exact hq ▸ h.numbered b hb
  proposed := h.proposed
  one_proposal := h.one_proposal
  asking := h.asking
  cast := h.cast
  row := h.row
  promise := h.promise
  safe := h.safe
  certified := h.certified
  chained := h.chained

theorem outbid_all (seen : List Ballot) (n : LedgerNetwork) :
    (seen.foldl LedgerNetwork.outbid n).proposer = n.proposer ∧ n.ballot ≤ (seen.foldl LedgerNetwork.outbid n).ballot := by
  induction seen generalizing n with
  | nil => exact ⟨rfl, le_rfl⟩
  | cons b seen ih =>
    obtain ⟨hname, hle⟩ := ih (n.outbid b)
    exact ⟨hname, (le_max_left _ _).trans hle⟩

/-- a client that has not run through its numbers takes one that is new to it -/
theorem nextBallot_eq {n : LedgerNetwork} (hroom : n.ballot + 1 < 2 ^ 64) :
    n.nextBallot.1.proposer = n.proposer ∧ n.nextBallot.1.ballot = n.ballot + 1 ∧
      n.nextBallot.2 = ⟨n.ballot + 1, n.proposer⟩ := by
  unfold LedgerNetwork.nextBallot
  rw [Nat.mod_eq_of_lt hroom]
  exact ⟨rfl, rfl, rfl⟩

/-- **A new attempt** takes a ballot nobody has used. -/
theorem Settled.begin (h : Settled c set net) {p : String} {txs : List LedgerTransaction}
    {answers : List (Option HeadProof)} {counts : List ((ℕ × String) × ℕ)} {net' : Net}
    (hs : net.begin c set p txs answers counts = some net') : Settled c set net' := by
  unfold Net.begin at hs
  simp only at hs
  split_ifs at hs with hguard
  obtain ⟨_, _, hroom⟩ := hguard
  split at hs
  · rename_i head _
    cases hs
    obtain ⟨hname, hcount, hballot⟩ := nextBallot_eq hroom
    generalize (net.clients p).nextBallot.1 = client at hname hcount
    generalize (net.clients p).nextBallot.2 = ballot at hballot
    rw [h.named p] at hname hballot
    have hfresh : net.attempts ballot = none := by
      by_contra hne
      have hle := h.numbered ballot hne
      rw [hballot] at hle
      simp only at hle
      omega
    have hattempt : ∀ b att, net.attempts b = some att →
        Function.update net.attempts ballot (some ⟨head, txs, .claiming⟩) b = some att := by
      intro b att hatt
      rw [Function.update_of_ne]
      · exact hatt
      · rintro rfl
        rw [hfresh] at hatt
        cases hatt
    have hout := h.outbid hname (by omega)
    constructor
    case named => exact hout.named
    case numbered =>
      intro b hb
      by_cases hnew : b = ballot
      · rw [hnew, hballot]
        simp only [Function.update_self, hcount, le_refl]
      · exact hout.numbered b (by simpa only [Function.update_of_ne hnew] using hb)
    case proposed =>
      intro req hreq
      obtain ⟨att, hatt, hstage⟩ := h.proposed req hreq
      exact ⟨att, hattempt _ _ hatt, hstage⟩
    case asking =>
      intro b att expected req hatt hstage
      by_cases hnew : b = ballot
      · simp only [hnew, Function.update_self, Option.some.injEq] at hatt
        rw [← hatt] at hstage
        cases hstage
      · simp only [Function.update_of_ne hnew] at hatt
        exact h.asking b att expected req hatt hstage
    case one_proposal => exact h.one_proposal
    case cast => exact h.cast
    case row => exact h.row
    case promise => exact h.promise
    case safe => exact h.safe
    case certified => exact h.certified
    case chained => exact h.chained
  · cases hs

/-- an attempt moves on without proposing anything -/
theorem Settled.ended (h : Settled c set net) {b : Ballot} {att : Attempt} (hatt : net.attempts b = some att) :
    Settled c set (net.setStage b att .ended) := by
  constructor
  case numbered =>
    intro b' hb'
    by_cases hb : b' = b
    · exact h.numbered b' (by rw [hb, hatt]; simp)
    · exact h.numbered b' (by simpa only [Net.setStage, Function.update_of_ne hb] using hb')
  case proposed =>
    intro req hreq
    obtain ⟨att', hatt', hstage⟩ := h.proposed req hreq
    by_cases hb : req.ballot = b
    · exact ⟨{ att with stage := .ended }, by rw [hb]; exact Function.update_self _ _ _, by simp⟩
    · exact ⟨att', by simpa only [Net.setStage, Function.update_of_ne hb] using hatt', hstage⟩
  case asking =>
    intro b' att' expected req hatt' hstage
    by_cases hb : b' = b
    · simp only [Net.setStage, hb, Function.update_self, Option.some.injEq] at hatt'
      rw [← hatt'] at hstage
      cases hstage
    · simp only [Net.setStage, Function.update_of_ne hb] at hatt'
      exact h.asking b' att' expected req hatt' hstage
  case named => exact h.named
  case one_proposal => exact h.one_proposal
  case cast => exact h.cast
  case row => exact h.row
  case promise => exact h.promise
  case safe => exact h.safe
  case certified => exact h.certified
  case chained => exact h.chained

/-- **A proposal.** The first of its ballot, and safe. -/
theorem Settled.ask (h : Settled c set net) (req : ProposalRequest) {b : Ballot} {att : Attempt}
    (hatt : net.attempts b = some att) (hstage : att.stage = .claiming) (hb : req.ballot = b)
    (hsafe : Voting.SafeAt set.Quorum (votingAt net req.sequence) req.ballot req.transactions) :
    Settled c set { net.setStage b att
        (.proposing (buildEntry c req.sequence att.head.entryHash req.transactions) req) with
      proposals := req :: net.proposals } := by
  have hfirst : ∀ req' ∈ net.proposals, req'.ballot ≠ b := by
    intro req' hreq' heq
    obtain ⟨att', hatt', hne⟩ := h.proposed req' hreq'
    rw [heq, hatt] at hatt'
    cases hatt'
    exact hne hstage
  constructor
  case numbered =>
    intro b' hb'
    by_cases hbb : b' = b
    · exact h.numbered b' (by rw [hbb, hatt]; simp)
    · exact h.numbered b' (by simpa only [Net.setStage, Function.update_of_ne hbb] using hb')
  case proposed =>
    intro req' hreq'
    rcases List.mem_cons.1 hreq' with rfl | hreq'
    · refine ⟨_, by rw [hb]; exact Function.update_self _ _ _, by simp⟩
    · obtain ⟨att', hatt', hne⟩ := h.proposed req' hreq'
      exact ⟨att', by simpa only [Net.setStage, Function.update_of_ne (hfirst req' hreq')] using hatt', hne⟩
  case one_proposal =>
    intro r hr r' hr' heq
    rcases List.mem_cons.1 hr with rfl | hold
    · rcases List.mem_cons.1 hr' with rfl | hold'
      · rfl
      · exact absurd (heq.symm.trans hb) (hfirst r' hold')
    · rcases List.mem_cons.1 hr' with rfl | hold'
      · exact absurd (heq.trans hb) (hfirst r hold)
      · exact h.one_proposal r hold r' hold' heq
  case asking =>
    intro b' att' expected req' hatt' hst
    by_cases hbb : b' = b
    · simp only [Net.setStage, hbb, Function.update_self, Option.some.injEq] at hatt'
      rw [← hatt'] at hst ⊢
      cases hst
      exact ⟨List.mem_cons_self, rfl⟩
    · simp only [Net.setStage, Function.update_of_ne hbb] at hatt'
      obtain ⟨hin, hexp⟩ := h.asking b' att' expected req' hatt' hst
      exact ⟨List.mem_cons_of_mem _ hin, hexp⟩
  case cast =>
    intro v req' vote hin hacc
    obtain ⟨hreq', hhead⟩ := h.cast v req' vote hin hacc
    exact ⟨List.mem_cons_of_mem _ hreq', hhead⟩
  case safe =>
    intro req' hreq'
    rcases List.mem_cons.1 hreq' with rfl | hreq'
    · exact hsafe
    · exact h.safe req' hreq'
  case named => exact h.named
  case row => exact h.row
  case promise => exact h.promise
  case certified => exact h.certified
  case chained => exact h.chained

/-- **A certificate** joins the pool. -/
theorem Settled.certify (h : Settled c set net) {cert : QuorumCertificate} (hcert : Certified c set net cert) :
    Settled c set { net with certs := cert :: net.certs } := by
  have hhead : ∀ {n hash}, HeadAt net.certs n hash → HeadAt (cert :: net.certs) n hash := by
    rintro n hash (hgenesis | ⟨x, hin, hx⟩)
    · exact Or.inl hgenesis
    · exact Or.inr ⟨x, List.mem_cons_of_mem _ hin, hx⟩
  have hkeep : ∀ {x}, Certified c set net x → Certified c set { net with certs := cert :: net.certs } x := by
    rintro x ⟨hverify, n, prev, txs, b, hentry, hat, hchosen⟩
    exact ⟨hverify, n, prev, txs, b, hentry, hhead hat, hchosen⟩
  constructor
  case cast =>
    intro v req vote hin hacc
    obtain ⟨hreq, n, hn, hat⟩ := h.cast v req vote hin hacc
    exact ⟨hreq, n, hn, hhead hat⟩
  case certified =>
    intro x hx
    rcases List.mem_cons.1 hx with rfl | hx
    · exact hkeep hcert
    · exact hkeep (h.certified x hx)
  case chained => exact fun v => (h.chained v).mono fun x hx => List.mem_cons_of_mem _ hx
  case named => exact h.named
  case numbered => exact h.numbered
  case proposed => exact h.proposed
  case one_proposal => exact h.one_proposal
  case asking => exact h.asking
  case row => exact h.row
  case promise => exact h.promise
  case safe => exact h.safe

/-! ## What a quorum of answers establishes -/

theorem answered_sublist {α : Type} (set : ValidatorSet) (answers : List (Option α)) :
    ((answered set answers).map (·.1)).Sublist set.members := by
  unfold answered
  generalize set.members = members
  induction members generalizing answers with
  | nil => simp
  | cons m members ih =>
    cases answers with
    | nil => simp
    | cons a answers =>
      cases a with
      | none => exact (ih answers).cons m
      | some a => exact (ih answers).cons_cons m

/-- answers of distinct members, at least a threshold of them, come from a quorum -/
theorem quorum_of_answers (hv : set.Valid) {α : Type} {answers : List (Option α)} {l : List (ValidatorMember × α)}
    (hl : l.Sublist (answered set answers)) (hlen : set.threshold ≤ l.length) :
    set.Quorum (l.map (·.1.validatorId)).toFinset := by
  have hsub : (l.map (·.1.validatorId)).Sublist (set.members.map (·.validatorId)) := by
    have := ((hl.map (·.1)).trans (answered_sublist set answers)).map (·.validatorId)
    simpa only [List.map_map, Function.comp_def] using this
  refine ⟨?_, ?_⟩
  · intro v hv'
    rw [List.mem_toFinset] at hv'
    exact List.mem_toFinset.2 (hsub.subset hv')
  · rw [List.toFinset_card_of_nodup (hv.nodup.sublist hsub), List.length_map]
    exact hlen

/-- of the ballots in a list, `max_by` finds one that none outranks -/
theorem maxBy_spec {l : List AcceptedProposal} {a : AcceptedProposal}
    (h : maxBy (fun a b => a.ballot.outranks b.ballot) l = some a) : a ∈ l ∧ ∀ x ∈ l, x.ballot ≤ a.ballot := by
  cases l with
  | nil => cases h
  | cons first rest =>
    have hfold : ∀ (rest : List AcceptedProposal) (best : AcceptedProposal),
        let found := rest.foldl (fun best x => if decide (best.ballot.outranks x.ballot) then best else x) best
        (found = best ∨ found ∈ rest) ∧ best.ballot ≤ found.ballot ∧ ∀ x ∈ rest, x.ballot ≤ found.ballot := by
      intro rest
      induction rest with
      | nil => intro best; simp
      | cons x rest ih =>
        intro best
        by_cases hbeats : best.ballot.outranks x.ballot
        · obtain ⟨hin, hle, hall⟩ := ih best
          simp only [List.foldl_cons, hbeats, decide_true, if_true]
          refine ⟨hin.imp id (List.mem_cons_of_mem x), hle, ?_⟩
          intro y hy
          rcases List.mem_cons.1 hy with rfl | hy
          · exact (le_of_lt ((outranks_iff _ _).1 hbeats)).trans hle
          · exact hall y hy
        · obtain ⟨hin, hle, hall⟩ := ih x
          simp only [List.foldl_cons, hbeats, decide_false, Bool.false_eq_true, if_false]
          refine ⟨Or.inr (List.mem_cons.2 hin), ((not_outranks_iff _ _).1 hbeats).trans hle, ?_⟩
          intro y hy
          rcases List.mem_cons.1 hy with rfl | hy
          · exact hle
          · exact hall y hy
    simp only [maxBy, Option.some.injEq] at h
    obtain ⟨hin, hle, hall⟩ := hfold rest first
    rw [h] at hin hle hall
    refine ⟨List.mem_cons.2 hin, ?_⟩
    intro x hx
    rcases List.mem_cons.1 hx with rfl | hx
    · exact hle
    · exact hall x hx

/-- the promises a client counts, with the members that made them -/
def promisers (set : ValidatorSet) (s : ℕ) (answers : List (Option PrepareVote)) : List (ValidatorMember × PrepareVote) :=
  (answered set answers).filter fun x =>
    decide (x.2.validatorId = x.1.validatorId ∧ x.2.sequence = s) && x.2.promised

theorem promisers_map (set : ValidatorSet) (s : ℕ) (answers : List (Option PrepareVote)) :
    (heightVotes set s answers).filter (·.promised) = (promisers set s answers).map (·.2) := by
  unfold heightVotes promisers
  induction answered set answers with
  | nil => rfl
  | cons x l ih =>
    by_cases hx : x.2.validatorId = x.1.validatorId ∧ x.2.sequence = s
    · cases hp : x.2.promised <;> simp [hx, hp, ih]
    · simp [hx, ih]

/-- **Phase one of an attempt.** What a client proposes after a quorum of promises is safe. -/
theorem Settled.safe_of_claim (h : Settled c set net) (hv : set.Valid) {s : ℕ} {b : Ballot}
    {answers : List (Option PrepareVote)} (hans : Net.Answers set answers fun v a => (v, ⟨s, b⟩, a) ∈ net.promises)
    {adopted : Option AcceptedProposal} (hclaim : claimHeight set s (heightVotes set s answers) = .ok adopted)
    (txs : List LedgerTransaction) :
    Voting.SafeAt set.Quorum (votingAt net s) b (proposedTransactions txs adopted) := by
  simp only [claimHeight, promisers_map, bind_ok, bailIf_ok, exists_const, pure_ok, not_lt, List.length_map] at hclaim
  obtain ⟨hlen, hpick⟩ := hclaim
  have hsub : (promisers set s answers).Sublist (answered set answers) := List.filter_sublist
  refine .of_promises (h.sound s) (quorum_of_answers hv hsub hlen)
    (fun v latest => ∃ x ∈ promisers set s answers, x.1.validatorId = v ∧ latest = latestVote x.2.accepted)
    ?_ ?_ ?_
  · intro v hvQ
    obtain ⟨x, hx, hid⟩ := List.mem_map.1 (List.mem_toFinset.1 hvQ)
    exact ⟨_, x, hx, hid, rfl⟩
  · rintro v latest ⟨x, hx, rfl, rfl⟩
    obtain ⟨hin, hcond⟩ := List.mem_filter.1 hx
    rw [Bool.and_eq_true] at hcond
    exact h.promise x.1.validatorId ⟨s, b⟩ x.2 (hans x hin) hcond.2
  · cases adopted with
    | none =>
      left
      rintro v latest ⟨x, hx, _, rfl⟩
      have hnil : ((promisers set s answers).map (·.2)).filterMap (·.accepted) = [] := by
        cases hl : ((promisers set s answers).map (·.2)).filterMap (·.accepted) with
        | nil => rfl
        | cons a l =>
          rw [hl] at hpick
          cases hpick
      have hnone := List.filterMap_eq_nil_iff.1 hnil x.2 (List.mem_map_of_mem hx)
      rw [hnone]
      rfl
    | some a =>
      right
      obtain ⟨hin, hmax⟩ := maxBy_spec hpick
      obtain ⟨vote, hvote, hacc⟩ := List.mem_filterMap.1 hin
      obtain ⟨x, hx, rfl⟩ := List.mem_map.1 hvote
      refine ⟨x.1.validatorId, a.ballot, ⟨x, hx, rfl, by rw [hacc]; rfl⟩, ?_⟩
      rintro v d txs' ⟨y, hy, _, hlatest⟩
      obtain ⟨a', hacc', hpair⟩ := Option.map_eq_some_iff.1 hlatest.symm
      cases hpair
      exact hmax a' (List.mem_filterMap.2 ⟨y.2, List.mem_map_of_mem hy, hacc'⟩)

theorem entrySignature_some {head : LedgerHead} {expected : LedgerEntry} {x : ValidatorMember × ProposalVote}
    (h : (entrySignature c head expected x).isSome = true) :
    x.2.accepted = true ∧ x.2.previousHash = expected.previousHash := by
  unfold entrySignature at h
  cases hs : x.2.signatureB64 with
  | none => simp [hs] at h
  | some sig =>
    simp only [hs, Option.bind_some] at h
    split_ifs at h with hsigns
    · exact ⟨hsigns.1, hsigns.2.2.2.1⟩
    · simp at h

/-- **Phase two of an attempt.** A certificate is formed from a quorum of votes for one proposal on one head. -/
theorem Settled.certified_of_gather (h : Settled c set net) (hv : set.Valid) {b : Ballot} {att : Attempt}
    {expected : LedgerEntry} {req : ProposalRequest} (hatt : net.attempts b = some att)
    (hstage : att.stage = .proposing expected req) {answers : List (Option ProposalVote)}
    (hans : Net.Answers set answers fun v a => (v, req, a) ∈ net.votes) {taken : Bool} {cert : QuorumCertificate}
    (hg : gather c set att.head expected req (answered set answers) taken = .formed cert) : Certified c set net cert := by
  obtain ⟨rfl, hshort, hverify⟩ := gather_formed hg
  obtain ⟨_, hexp⟩ := h.asking b att expected req hatt hstage
  unfold entrySignatures at hshort
  rw [List.length_filterMap_eq_countP, List.countP_eq_length_filter] at hshort
  have hsub : ((answered set answers).filter fun x => (entrySignature c att.head expected x).isSome).Sublist
      (answered set answers) := List.filter_sublist
  have hvotes : ∀ x ∈ (answered set answers).filter fun x => (entrySignature c att.head expected x).isSome,
      (x.1.validatorId, req, x.2) ∈ net.votes ∧ x.2.accepted = true ∧ x.2.previousHash = expected.previousHash := by
    intro x hx
    obtain ⟨hin, hsig⟩ := List.mem_filter.1 hx
    exact ⟨hans x hin, entrySignature_some hsig⟩
  have hpos : 0 < set.threshold := by
    have := hv.above_two_thirds
    omega
  obtain ⟨x, hx⟩ := List.exists_mem_of_length_pos (hpos.trans_le hshort)
  obtain ⟨hin, hacc, hprev⟩ := hvotes x hx
  obtain ⟨_, n, hn, hhead⟩ := h.cast _ _ _ hin hacc
  refine ⟨hverify, n, att.head.entryHash, req.transactions, req.ballot, hexp.trans (by rw [hn]), ?_, _,
    quorum_of_answers hv hsub hshort, ?_⟩
  · rwa [hprev, hexp] at hhead
  · intro v hvQ
    obtain ⟨y, hy, rfl⟩ := List.mem_map.1 (List.mem_toFinset.1 hvQ)
    obtain ⟨hiny, haccy, _⟩ := hvotes y hy
    exact ⟨y.2, by rw [← hn]; exact hiny, haccy⟩

/-! ## Runs -/

theorem Settled.claim (h : Settled c set net) (hv : set.Valid) {b : Ballot} {answers : List (Option PrepareVote)}
    {net' : Net} (hs : net.claim c set b answers = some net') : Settled c set net' := by
  unfold Net.claim at hs
  split at hs
  · rename_i head txs hatt
    simp only at hs
    split_ifs at hs with hans
    obtain ⟨hname, hle⟩ := outbid_all ((heightVotes set (head.sequence + 1) answers).filterMap (·.promisedBallot))
      (net.clients b.proposer)
    have hout := h.outbid (hname.trans (h.named b.proposer)) hle
    split at hs
    · rename_i adopted hclaim
      cases hs
      exact hout.ask ⟨_, head.sequence + 1, b⟩ hatt rfl rfl (h.safe_of_claim hv hans hclaim txs)
    · cases hs
      exact hout.ended hatt
  · cases hs

theorem Settled.collect (h : Settled c set net) (hv : set.Valid) {b : Ballot} {answers : List (Option ProposalVote)}
    {taken : Bool} {net' : Net} (hs : net.collect c set b answers taken = some net') : Settled c set net' := by
  unfold Net.collect at hs
  split at hs
  · rename_i head txs expected req hatt
    simp only at hs
    split_ifs at hs with hans
    have hdone := h.ended hatt
    split at hs
    · rename_i by_ _ _
      cases hs
      exact hdone.outbid (h.named b.proposer) (le_max_left _ by_.number)
    · rename_i cert hg
      cases hs
      exact hdone.certify (h.certified_of_gather hv hatt rfl hans hg)
    · cases hs
      exact hdone
    · cases hs
      exact hdone
  · cases hs

/-- **Step.** Every action keeps the invariant. -/
theorem Settled.step (h : Settled c set net) (hv : set.Valid) {a : Action} {net' : Net}
    (hs : net.step c set a = some net') : Settled c set net' := by
  cases a with
  | head v =>
    cases hs
    exact ⟨h.named, h.numbered, h.proposed, h.one_proposal, h.asking, h.cast, h.row, h.promise, h.safe, h.certified,
      h.chained⟩
  | «begin» p txs answers counts => exact h.begin hs
  | prepare v req =>
    simp only [Net.step] at hs
    split_ifs at hs
    cases hs
    exact h.prepare v req
  | claim b answers => exact h.claim hv hs
  | propose v req =>
    simp only [Net.step] at hs
    split_ifs at hs with hreq
    cases hs
    exact h.propose v hreq
  | collect b answers taken => exact h.collect hv hs
  | commit v cert =>
    simp only [Net.step] at hs
    split_ifs at hs with hin
    split at hs
    · rename_i a head hcommit
      cases hs
      exact h.advance (advances_commit hin hcommit)
    · cases hs
  | catchUp v target page =>
    simp only [Net.step] at hs
    split_ifs at hs with hpage
    cases hs
    exact h.advance (.catchUpLoop page hpage _ _)
  | publish v height =>
    cases hs
    exact h.advance (.refl _ _)
  | restart v key =>
    simp only [Net.step] at hs
    split at hs
    · rename_i a hrestart
      cases hs
      exact h.advance (advances_restart _ hrestart)
    · cases hs

/-- **Run.** The invariant holds in every reachable network. -/
theorem settled_of_run (hv : set.Valid) {keys : String → String → String} (h : Net.Run c set keys net) :
    Settled c set net := by
  induction h with
  | start => exact settled_start keys
  | step _ a hs ih => exact ih.step hv hs

/-- two quorums of a valid set share a member -/
theorem quorums_share (hv : set.Valid) (Q Q' : Finset String) (hQ : set.Quorum Q) (hQ' : set.Quorum Q') :
    ∃ v, v ∈ Q ∧ v ∈ Q' := by
  have hcard := hv.card_ids
  have h2 := hv.above_two_thirds
  obtain ⟨v, hvin⟩ := hQ.inter_nonempty hQ' (by rw [Finset.union_self]; omega)
  exact ⟨v, Finset.mem_inter.1 hvin⟩

/-- if a height has one entry, the height above it has one previous hash -/
theorem Settled.one_previous (h : Settled c set net) {n : ℕ} {prev prev' : String}
    (hone : ∀ x ∈ net.certs, ∀ y ∈ net.certs, x.entry.sequence = n → y.entry.sequence = n → x.entry = y.entry)
    (hhead : HeadAt net.certs n prev) (hhead' : HeadAt net.certs n prev') : prev = prev' := by
  have hpos : ∀ x ∈ net.certs, x.entry.sequence ≠ 0 := by
    intro x hx
    obtain ⟨_, m, _, _, _, hm, _⟩ := h.certified x hx
    rw [hm]
    exact Nat.succ_ne_zero m
  rcases hhead with ⟨h0, hg⟩ | ⟨x, hx, hxs, hxh⟩
  · rcases hhead' with ⟨_, hg'⟩ | ⟨y, hy, hys, _⟩
    · rw [hg, hg']
    · exact absurd (hys.trans h0) (hpos y hy)
  · rcases hhead' with ⟨h0, _⟩ | ⟨y, hy, hys, hyh⟩
    · exact absurd (hxs.trans h0) (hpos x hx)
    · rw [← hxh, ← hyh, hone x hx y hy hxs hys]

/-- one entry per height: same batch by the ballots, same previous hash by the heights below -/
theorem Settled.one_entry (h : Settled c set net) (hv : set.Valid) (n : ℕ) :
    ∀ cert ∈ net.certs, ∀ cert' ∈ net.certs, cert.entry.sequence = n → cert'.entry.sequence = n →
      cert.entry = cert'.entry := by
  induction n using Nat.strong_induction_on with
  | _ n ih =>
    intro cert hin cert' hin' hseq hseq'
    obtain ⟨_, k, prev, txs, b, hentry, hhead, hchosen⟩ := h.certified cert hin
    obtain ⟨_, k', prev', txs', b', hentry', hhead', hchosen'⟩ := h.certified cert' hin'
    have hk : n = k + 1 := by rw [← hseq, hentry]; rfl
    have hk' : n = k' + 1 := by rw [← hseq', hentry']; rfl
    obtain rfl : k = k' := by omega
    have htxs : txs = txs' := Voting.chosen_agree (h.sound (k + 1)) (quorums_share hv) hchosen hchosen'
    have hprev : prev = prev' := h.one_previous (ih k (by omega)) hhead hhead'
    rw [hentry, hentry', htxs, hprev]

/-- the entry hashes of a validator's chain, oldest first -/
def chainOf (net : Net) (v : String) : List String := (net.apps v).store.certificates.map (·.entry.entryHash)

/-- the shorter of two chains is the beginning of the longer -/
theorem Settled.prefix_chain (h : Settled c set net) (hv : set.Valid) {v w : String}
    (hle : (chainOf net v).length ≤ (chainOf net w).length) : chainOf net v <+: chainOf net w := by
  unfold chainOf at hle ⊢
  rw [List.prefix_iff_getElem?]
  intro i hi
  rw [List.length_map] at hi
  simp only [List.length_map] at hle
  have hv' : (net.apps v).store.certificates[i]? = some (net.apps v).store.certificates[i] := List.getElem?_eq_getElem hi
  have hw' : (net.apps w).store.certificates[i]? = some (net.apps w).store.certificates[i] :=
    List.getElem?_eq_getElem (hi.trans_le hle)
  obtain ⟨hseq, hin⟩ := h.chained v i _ hv'
  obtain ⟨hseq', hin'⟩ := h.chained w i _ hw'
  have hentry := h.one_entry hv (i + 1) _ hin' _ hin hseq' hseq
  rw [List.getElem?_map, hw', List.getElem_map, Option.map_some, hentry]

end

/-- **Agreement.** Whatever the clients, the validators and the network do, all certificates clients assemble for one
height carry one entry hash, and the chains of all validators are beginnings of one chain. -/
theorem agreement {c : Crypto} {set : ValidatorSet} (hset : validateValidatorSet set = .ok ())
    {keys : String → String → String} {net : Net} (h : Net.Run c set keys net) :
    (∀ cert ∈ net.certs, verifyCertificate c cert set = .ok () ∧ ∀ cert' ∈ net.certs,
      cert.entry.sequence = cert'.entry.sequence → cert.entry.entryHash = cert'.entry.entryHash) ∧
    ∃ chain : List String, ∀ v ∈ set.ids, chainOf net v <+: chain := by
  have hv := valid_of_validate hset
  have hs := settled_of_run hv h
  refine ⟨?_, ?_⟩
  · intro cert hin
    refine ⟨(hs.certified cert hin).1, ?_⟩
    intro cert' hin' heq
    rw [hs.one_entry hv _ cert hin cert' hin' rfl heq.symm]
  · rcases set.ids.eq_empty_or_nonempty with hempty | hne
    · exact ⟨[], by simp [hempty]⟩
    · obtain ⟨w, _, hmax⟩ := set.ids.exists_max_image (fun v => (chainOf net v).length) hne
      exact ⟨chainOf net w, fun v hvin => hs.prefix_chain hv (hmax v hvin)⟩

/-- one validator and one client: read the head, claim the height, propose, collect and commit -/
def soloPlan : List (Net → Action) :=
  let v := Sample.nodeId 0
  let b : Ballot := ⟨1, "client"⟩
  let counts (net : Net) := headCounts (signedHeads Sample.crypto (Sample.committee 1) [net.heads.head?.map (·.2)])
  [fun _ => .head v,
    fun net => .begin "client" [Sample.smallMint] [net.heads.head?.map (·.2)] (counts net),
    fun _ => .prepare v ⟨1, b⟩,
    fun net => .claim b [net.promises.head?.map (·.2.2)],
    fun _ => .propose v ⟨[Sample.smallMint], 1, b⟩,
    fun net => .collect b [net.votes.head?.map (·.2.2)] false,
    fun net => match net.certs with
      | cert :: _ => .commit v cert
      | [] => .head v]

/-- there is one certificate, and the validator holds its entry -/
def soloSettled (net : Net) : Bool :=
  match net.certs with
  | [cert] => chainOf net (Sample.nodeId 0) = [cert.entry.entryHash]
  | _ => false

/-- the solo run settles one entry, and nobody can have another one at its height -/
theorem solo_run_agrees : ∃ net cert, Net.Run Sample.crypto (Sample.committee 1) (fun _ => Sample.sign 0) net ∧
    net.certs = [cert] ∧ chainOf net (Sample.nodeId 0) = [cert.entry.entryHash] ∧
    ∃ chain : List String, chainOf net (Sample.nodeId 0) <+: chain := by
  have hrun : (((Net.start (Sample.committee 1) (fun _ => Sample.sign 0)).follow Sample.crypto (Sample.committee 1)
      soloPlan).any soloSettled) = true := by decide +kernel
  obtain ⟨net, hnet, hfacts⟩ := (Option.any_eq_true _ _).1 hrun
  have h := Net.Run.start.follow hnet
  unfold soloSettled at hfacts
  split at hfacts
  · rename_i cert hcerts
    obtain ⟨_, chain, hchain⟩ := agreement (by decide +kernel) h
    exact ⟨net, cert, h, hcerts, by simpa using hfacts, chain, hchain _ (by decide +kernel)⟩
  · cases hfacts

end Hocmesh.Network
