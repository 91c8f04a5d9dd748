/-
What a validator's signatures at one height can be.

A seat may sign a second entry at a height it has signed before: that is what a later ballot is for. What the ballots
rule out is a second entry under the same ballot, a signature under an older ballot than one already given, and any
other entry once a quorum has signed under one ballot. `Signed` adds to `Settled` what a vote says about itself and the
order in which a seat gives its votes; the pool of votes is newest first.
-/
import Hocmesh.Network.Agreement

namespace Hocmesh.Network

open Hocmesh.Base Hocmesh.Protocol Hocmesh.Ledger Hocmesh.Validator

/-- one answer to a proposal: who gave it, to which request, and what it says -/
abbrev Cast := String × ProposalRequest × ProposalVote

/-- the later of two votes of one seat at one height is under a ballot at least as high -/
def InOrder (later earlier : Cast) : Prop :=
  later.1 = earlier.1 → later.2.2.accepted = true → earlier.2.2.accepted = true →
    later.2.1.sequence = earlier.2.1.sequence → earlier.2.1.ballot ≤ later.2.1.ballot

structure Signed (c : Crypto) (net : Net) : Prop where
  names : ∀ x ∈ net.votes, x.2.2.accepted = true → x.2.2.sequence = x.2.1.sequence ∧
    x.2.2.entryHash = (buildEntry c x.2.1.sequence x.2.2.previousHash x.2.1.transactions).entryHash
  ordered : net.votes.Pairwise InOrder

section

variable {c : Crypto} {set : ValidatorSet} {net net' : Net}

/-- only a handled proposal adds a vote -/
theorem votes_of_step {a : Action} (hs : net.step c set a = some net') :
    net'.votes = net.votes ∨ ∃ v req, a = .propose v req ∧
      net'.votes = (v, req, (propose c (net.apps v) req).2) :: net.votes := by
  cases a with
  | propose v req =>
    simp only [Net.step] at hs
    split_ifs at hs
    cases hs
    exact Or.inr ⟨v, req, rfl, rfl⟩
  | «begin» p txs answers counts =>
    simp only [Net.step, Net.begin] at hs
    split_ifs at hs
    split at hs <;> cases hs
    exact Or.inl rfl
  | claim b answers =>
    simp only [Net.step, Net.claim] at hs
    split at hs
    · split_ifs at hs
      split at hs <;> cases hs <;> exact Or.inl rfl
    · cases hs
  | collect b answers taken =>
    simp only [Net.step, Net.collect] at hs
    split at hs
    · split_ifs at hs
      split at hs <;> cases hs <;> exact Or.inl rfl
    · cases hs
  | prepare v req =>
    simp only [Net.step] at hs
    split_ifs at hs
    cases hs
    exact Or.inl rfl
  | commit v cert =>
    simp only [Net.step] at hs
    split_ifs at hs
    split at hs <;> cases hs
    exact Or.inl rfl
  | catchUp v target page =>
    simp only [Net.step] at hs
    split_ifs at hs
    cases hs
    exact Or.inl rfl
  | restart v key =>
    simp only [Net.step] at hs
    split at hs <;> cases hs
    exact Or.inl rfl
  | head v => cases hs; exact Or.inl rfl
  | publish v height => cases hs; exact Or.inl rfl

/-- **Step.** A new vote names its entry, and no vote given before it at its height was under a higher ballot. -/
theorem Signed.step (h : Signed c net) (hset : Settled c set net) {a : Action}
    (hs : net.step c set a = some net') : Signed c net' := by
  rcases votes_of_step hs with hsame | ⟨v, req, rfl, hvotes⟩
  · exact ⟨hsame ▸ h.names, hsame ▸ h.ordered⟩
  rcases propose_cases c (net.apps v) req with ⟨_, hrefused⟩ | ⟨hseq, hheld, _, _, hsame, hprev, hhash⟩
  · constructor
    · rw [hvotes]
      intro x hx hacc
      rcases List.mem_cons.1 hx with rfl | hx
      · rw [hrefused] at hacc
        cases hacc
      · exact h.names x hx hacc
    · rw [hvotes]
      refine List.pairwise_cons.2 ⟨?_, h.ordered⟩
      intro y _ _ hacc
      rw [hrefused] at hacc
      cases hacc
  · constructor
    · rw [hvotes]
      intro x hx hacc
      rcases List.mem_cons.1 hx with rfl | hx
      · refine ⟨hsame, ?_⟩
        simp only [hhash, hprev, hseq]
        rfl
      · exact h.names x hx hacc
    · rw [hvotes]
      refine List.pairwise_cons.2 ⟨?_, h.ordered⟩
      intro y hy hv _ hacc hheight
      -- the seat's row at the height holds its newest vote, under a promise this ballot was not outranked by
      have hrow := hset.row v req.sequence (by omega)
      have hcast : (votingAt net req.sequence).voted v y.2.1.ballot y.2.1.transactions := by
        obtain ⟨w, r, vote⟩ := y
        obtain ⟨txs, s, b⟩ := r
        simp only at hv hheight hacc
        subst hv
        subst hheight
        exact ⟨vote, hy, hacc⟩
      obtain ⟨newest, hnewest, hle⟩ := hrow.latest _ _ hcast
      obtain ⟨_, p, hp, hle'⟩ := hrow.accepted newest hnewest
      exact (hle.trans hle').trans ((not_outranks_iff p req.ballot).1 (hheld p hp))

theorem signed_of_run (hv : set.Valid) {keys : String → String → String} (h : Net.Run c set keys net) :
    Signed c net := by
  induction h with
  | start => exact ⟨fun _ hx => absurd hx List.not_mem_nil, List.Pairwise.nil⟩
  | step hrun a hs ih => exact ih.step (settled_of_run hv hrun) hs

/-- a vote carries the entry its request's batch becomes on the one certified head below it -/
theorem vote_entry (hset : Settled c set net) (hsig : Signed c net) (hv : set.Valid) {x : Cast} (hx : x ∈ net.votes)
    (hacc : x.2.2.accepted = true) {n : ℕ} (hn : x.2.1.sequence = n + 1) {prev : String} (hhead : HeadAt net.certs n prev) :
    x.2.2.entryHash = (buildEntry c (n + 1) prev x.2.1.transactions).entryHash := by
  obtain ⟨_, m, hm, hhead'⟩ := hset.cast x.1 x.2.1 x.2.2 hx hacc
  obtain rfl : n = m := by omega
  have hprev := hset.one_previous (hset.one_entry hv n) hhead' hhead
  rw [(hsig.names x hx hacc).2, hn, hprev]

end

/-- **Votes at a height.** In every run: all signatures given at one height under one ballot are over one entry; a seat that
signs another entry at the height does so under a strictly higher ballot; and every certificate has a ballot under which
a quorum signed its entry and from which on nobody signs any other entry at its height. -/
theorem votes_follow_ballots {c : Crypto} {set : ValidatorSet} (hset : validateValidatorSet set = .ok ())
    {keys : String → String → String} {net : Net} (h : Net.Run c set keys net) :
    (∀ x ∈ net.votes, ∀ y ∈ net.votes, x.2.2.accepted = true → y.2.2.accepted = true →
      x.2.2.sequence = y.2.2.sequence → x.2.1.ballot = y.2.1.ballot → x.2.2.entryHash = y.2.2.entryHash) ∧
    net.votes.Pairwise (fun later earlier => later.1 = earlier.1 → later.2.2.accepted = true →
      earlier.2.2.accepted = true → later.2.2.sequence = earlier.2.2.sequence →
      later.2.2.entryHash ≠ earlier.2.2.entryHash → later.2.1.ballot.outranks earlier.2.1.ballot) ∧
    (∀ cert ∈ net.certs, ∃ b Q, set.Quorum Q ∧
      (∀ v ∈ Q, ∃ req vote, (v, req, vote) ∈ net.votes ∧ vote.accepted = true ∧ req.ballot = b ∧
        vote.sequence = cert.entry.sequence ∧ vote.entryHash = cert.entry.entryHash) ∧
      ∀ x ∈ net.votes, x.2.2.accepted = true → x.2.2.sequence = cert.entry.sequence →
        ¬ b.outranks x.2.1.ballot → x.2.2.entryHash = cert.entry.entryHash) := by
  have hv := valid_of_validate hset
  have hs := settled_of_run hv h
  have hsig := signed_of_run hv h
  have hone : ∀ x ∈ net.votes, ∀ y ∈ net.votes, x.2.2.accepted = true → y.2.2.accepted = true →
      x.2.2.sequence = y.2.2.sequence → x.2.1.ballot = y.2.1.ballot → x.2.2.entryHash = y.2.2.entryHash := by
    intro x hx y hy hax hay hseq hb
    obtain ⟨hreq, n, hn, hhead⟩ := hs.cast x.1 x.2.1 x.2.2 hx hax
    obtain ⟨hreq', _⟩ := hs.cast y.1 y.2.1 y.2.2 hy hay
    have hsame := hs.one_proposal _ hreq _ hreq' hb
    rw [vote_entry hs hsig hv hx hax hn hhead, vote_entry hs hsig hv hy hay (hsame ▸ hn) hhead, hsame]
  refine ⟨hone, ?_, ?_⟩
  · refine hsig.ordered.imp_of_mem ?_
    intro x y hx hy hord hsame hax hay hseq hne
    have hheight : x.2.1.sequence = y.2.1.sequence := by
      rw [← (hsig.names x hx hax).1, ← (hsig.names y hy hay).1, hseq]
    refine (outranks_iff _ _).2 (lt_of_le_of_ne (hord hsame hax hay hheight) ?_)
    intro hb
    exact hne (hone x hx y hy hax hay hseq hb.symm)
  · intro cert hin
    obtain ⟨_, n, prev, txs, b, hentry, hhead, hchosen⟩ := hs.certified cert hin
    have hchosen' := hchosen
    obtain ⟨Q, hQ, hvotes⟩ := hchosen
    refine ⟨b, Q, hQ, ?_, ?_⟩
    · intro v hvQ
      obtain ⟨vote, hvote, hacc⟩ := hvotes v hvQ
      refine ⟨_, vote, hvote, hacc, rfl, ?_, ?_⟩
      · rw [(hsig.names _ hvote hacc).1, hentry]
        rfl
      · rw [vote_entry hs hsig hv hvote hacc rfl hhead, hentry]
    · intro x hx hacc hseq hnot
      have hheight : x.2.1.sequence = n + 1 := by
        rw [← (hsig.names x hx hacc).1, hseq, hentry]
        rfl
      have hcast : (votingAt net (n + 1)).voted x.1 x.2.1.ballot x.2.1.transactions := by
        obtain ⟨w, ⟨txs', s, b'⟩, vote⟩ := x
        simp only at hheight
        subst hheight
        exact ⟨vote, hx, hacc⟩
      have htxs := (hs.sound (n + 1)).after_chosen (quorums_share hv) hchosen' hcast ((not_outranks_iff _ _).1 hnot)
      rw [vote_entry hs hsig hv hx hacc hheight hhead, htxs, hentry]

/-! ## A height that two proposers contest -/

namespace Sample

open Hocmesh.Protocol.Sample

/-- four seats, each signing with its own key -/
def keys (v : String) : String → String := sign (((List.range 4).find? fun n => nodeId n = v).getD 0)

def mintFor (job : String) : LedgerTransaction := communityReserve job smallWork 1 [0, 1, 2] 100

/-- the newest head of every seat that has answered -/
def headsSent (net : Net) : List (Option HeadProof) :=
  (List.range 4).map fun n => (net.heads.find? fun x => x.1 = nodeId n).map (·.2)

/-- what every seat that has answered promised to a ballot -/
def promisesSent (b : Ballot) (net : Net) : List (Option PrepareVote) :=
  (List.range 4).map fun n => (net.promises.find? fun x => x.1 = nodeId n ∧ x.2.1.ballot = b).map (·.2.2)

def beginWith (p : String) (tx : LedgerTransaction) (net : Net) : Action :=
  .begin p [tx] (headsSent net) (headCounts (signedHeads crypto (committee 4) (headsSent net)))

/-- two proposers claim the first height; the first seat signs for the one, is not among the seats that promise the
height to the other, and then signs for the other as well -/
def contestedPlan : List (Net → Action) :=
  let left : Ballot := ⟨1, "left"⟩
  let right : Ballot := ⟨1, "right"⟩
  [fun _ => .head (nodeId 0), fun _ => .head (nodeId 1), fun _ => .head (nodeId 2),
    beginWith "left" (mintFor "left"), beginWith "right" (mintFor "right"),
    fun _ => .prepare (nodeId 0) ⟨1, left⟩, fun _ => .prepare (nodeId 1) ⟨1, left⟩, fun _ => .prepare (nodeId 2) ⟨1, left⟩,
    fun net => .claim left (promisesSent left net),
    fun _ => .propose (nodeId 0) ⟨[mintFor "left"], 1, left⟩,
    fun _ => .prepare (nodeId 1) ⟨1, right⟩, fun _ => .prepare (nodeId 2) ⟨1, right⟩, fun _ => .prepare (nodeId 3) ⟨1, right⟩,
    fun net => .claim right (promisesSent right net),
    fun _ => .propose (nodeId 0) ⟨[mintFor "right"], 1, right⟩]

/-- the first seat has signed two entries at one height -/
def signsTwice (net : Net) : Bool :=
  match net.votes with
  | [later, earlier] => later.1 = nodeId 0 ∧ earlier.1 = nodeId 0 ∧ earlier.2.2.accepted ∧
    later.2.2.accepted ∧ earlier.2.2.sequence = later.2.2.sequence ∧ earlier.2.2.entryHash ≠ later.2.2.entryHash
  | _ => false

end Sample

theorem contested_run : validateValidatorSet (Sample.committee 4) = .ok () ∧
    ∃ (net : Net) (v : String) (req req' : ProposalRequest) (vote vote' : ProposalVote),
    Net.Run Sample.crypto (Sample.committee 4) Sample.keys net ∧ v ∈ (Sample.committee 4).ids ∧
      net.votes = [(v, req', vote'), (v, req, vote)] ∧ vote.accepted = true ∧ vote'.accepted = true ∧
      vote.sequence = vote'.sequence ∧ vote.entryHash ≠ vote'.entryHash := by
  refine ⟨by decide +kernel, ?_⟩
  have hrun : (((Net.start (Sample.committee 4) Sample.keys).follow Sample.crypto (Sample.committee 4)
      Sample.contestedPlan).any Sample.signsTwice) = true := by decide +kernel
  obtain ⟨net, hnet, hfacts⟩ := (Option.any_eq_true _ _).1 hrun
  have h := Net.Run.start.follow hnet
  unfold Sample.signsTwice at hfacts
  split at hfacts
  · rename_i later earlier hvotes
    obtain ⟨v', req', vote'⟩ := later
    obtain ⟨v, req, vote⟩ := earlier
    simp only [Bool.decide_and, Bool.and_eq_true, decide_eq_true_eq] at hfacts
    obtain ⟨rfl, rfl, hacc, hacc', hseq, hne⟩ := hfacts
    exact ⟨net, _, req, req', vote, vote', h, by decide +kernel, hvotes, hacc, hacc', hseq, hne⟩
  · cases hfacts

/-- one seat of four signs two entries at one height -/
theorem contested_height_signed_twice : ∃ (net : Net) (x y : Cast),
    Net.Run Sample.crypto (Sample.committee 4) Sample.keys net ∧ x ∈ net.votes ∧ y ∈ net.votes ∧
      x.1 = y.1 ∧ x.1 ∈ (Sample.committee 4).ids ∧ x.2.2.accepted = true ∧ y.2.2.accepted = true ∧
      x.2.2.sequence = y.2.2.sequence ∧ x.2.2.entryHash ≠ y.2.2.entryHash := by
  obtain ⟨-, net, v, req, req', vote, vote', h, hv, hvotes, hacc, hacc', hseq, hne⟩ := contested_run
  refine ⟨net, (v, req, vote), (v, req', vote'), h, ?_, ?_, rfl, hv, hacc, hacc', hseq, hne⟩
  · rw [hvotes]
    simp
  · rw [hvotes]
    simp

/-- in that run the second signature is under the higher ballot -/
theorem contested_height_follows_ballots : ∃ (net : Net) (v : String) (req req' : ProposalRequest)
    (vote vote' : ProposalVote), Net.Run Sample.crypto (Sample.committee 4) Sample.keys net ∧
      net.votes = [(v, req', vote'), (v, req, vote)] ∧ vote.entryHash ≠ vote'.entryHash ∧
      req'.ballot.outranks req.ballot := by
  obtain ⟨hset, net, v, req, req', vote, vote', h, _, hvotes, hacc, hacc', hseq, hne⟩ := contested_run
  obtain ⟨_, hordered, _⟩ := votes_follow_ballots hset h
  rw [hvotes, List.pairwise_cons] at hordered
  refine ⟨net, v, req, req', vote, vote', h, hvotes, hne, ?_⟩
  exact hordered.1 _ List.mem_cons_self rfl hacc' hacc hseq.symm hne.symm

end Hocmesh.Network
