/-
How a client settles a batch (`hocmesh-ledger/src/network.rs`): `attempt`, `round`, `settled_certificate` and `settle`.

Everything these read from outside is a value: the answers of the seats, the order a hash map lists its counts in, and the
set the client holds each time it looks, which another task may have moved in between. So each function is a function of
the answers it got, and what is proved of it holds whatever they were. Waiting between attempts changes nothing and is
left out.
-/
import Hocmesh.Network.Client

namespace Hocmesh.Network

open Hocmesh.Base Hocmesh.Protocol Hocmesh.Ledger Hocmesh.Validator

/-- what a validator says after storing an entry -/
structure CommitResponse where
  committed : Bool
  head : LedgerHead
deriving DecidableEq

/-- why a round failed, and whether its transactions are still safe to retry -/
inductive RoundError where
  | rejected (why : String)
  | committed (why : String)
deriving DecidableEq

def RoundError.text : RoundError → String
  | .rejected why => why
  | .committed why => why

/-- what one attempt at a height achieved -/
inductive Attempted where
  | settled (cert : QuorumCertificate)
  | deferred (why : String)
deriving DecidableEq

/-- how many contested heights a client will walk past before giving up -/
def roundAttempts : ℕ := 6

/-- what one attempt reads, phase by phase: the set the client holds, and the answers of its members; the certificate is
checked against `certSet` -/
structure AttemptAnswers where
  headSet : ValidatorSet
  heads : List (Option HeadProof)
  order : List ((ℕ × String) × ℕ) → List ((ℕ × String) × ℕ)
  claimSet : ValidatorSet
  promises : List (Option PrepareVote)
  voteSet : ValidatorSet
  votes : List (Option ProposalVote)
  certSet : ValidatorSet
  laterHeads : List (Option HeadProof)
  commitSet : ValidatorSet
  commits : List (Option CommitResponse)

/-- what looking a claim up reads -/
structure ClaimAnswers where
  askSet : ValidatorSet
  answers : List (Option ClaimProof)
  order : List ((Option ℕ × Option String × ℕ × String) × ℕ) → List ((Option ℕ × Option String × ℕ × String) × ℕ)
  certSet : ValidatorSet

/-- what settling a batch reads; `refresh` is the set `refresh_set` adopted and its height, if it adopted one -/
structure SettleAnswers where
  first : ℕ → AttemptAnswers
  refresh : Option (ValidatorSet × ℕ)
  second : ℕ → AttemptAnswers
  single : ℕ → ℕ → AttemptAnswers
  claims : ℕ → ClaimAnswers

section

variable (c : Crypto)

/-- one attempt at one height -/
def attempt (n : LedgerNetwork) (transactions : List LedgerTransaction) (w : AttemptAnswers) :
    LedgerNetwork × Except RoundError Attempted :=
  match headQuorum c w.headSet (w.order (headCounts (signedHeads c w.headSet w.heads))) with
  | .error e => (n, .ok (.deferred s!"no agreed head to build on yet: {e}"))
  | .ok head =>
    let sequence := head.sequence + 1
    let (n, ballot) := n.nextBallot
    let promises := heightVotes w.claimSet sequence w.promises
    let n := (promises.filterMap (·.promisedBallot)).foldl LedgerNetwork.outbid n
    match claimHeight w.claimSet sequence promises with
    | .error why => (n, .ok (.deferred why))
    | .ok adopted =>
      let txs := proposedTransactions transactions adopted
      let expected := buildEntry c sequence head.entryHash txs
      let req : ProposalRequest := ⟨txs, sequence, ballot⟩
      let heightIsTaken := aHeadReached (signedHeads c w.certSet w.laterHeads) sequence
      match gather c w.certSet head expected req (answered w.voteSet w.votes) heightIsTaken with
      | .outbid b why => (n.outbid b, .ok (.deferred why))
      | .deferred why => (n, .ok (.deferred why))
      | .rejected why => (n, .error (.rejected why))
      | .formed cert =>
        let stored := (answered w.commitSet w.commits).countP fun x =>
          x.2.committed && decide (cert.entry.sequence ≤ x.2.head.sequence)
        if stored < w.commitSet.threshold then
          (n, .error (.committed
            s!"certificate formed but committed on only {stored} validators; run validator sync/recovery"))
        else match adopted with
          | some a =>
            let held := LedgerStore.Ballot.text a.ballot
            (n, .ok (.deferred s!"height {sequence} went to ballot {held}"))
          | none => (n, .ok (.settled cert))

/-- the attempts a round has left -/
def roundLoop (transactions : List LedgerTransaction) (ws : ℕ → AttemptAnswers) :
    ℕ → LedgerNetwork → String → LedgerNetwork × Except RoundError QuorumCertificate
  | 0, n, last => (n, .error (.rejected s!"gave up after {roundAttempts} attempts at a contested height: {last}"))
  | left + 1, n, _ =>
    match attempt c n transactions (ws (roundAttempts - (left + 1))) with
    | (n, .ok (.settled cert)) => (n, .ok cert)
    | (n, .ok (.deferred why)) => roundLoop transactions ws left n why
    | (n, .error e) => (n, .error e)

/-- settle a batch, retrying while other proposers keep taking the height -/
def round (n : LedgerNetwork) (transactions : List LedgerTransaction) (ws : ℕ → AttemptAnswers) :
    LedgerNetwork × Except RoundError QuorumCertificate :=
  roundLoop c transactions ws roundAttempts n "no round was attempted"

/-- the certificate of the entry that already carries this very transaction, if a quorum will vouch for one -/
def settledCertificate (tx : LedgerTransaction) (w : ClaimAnswers) : Option QuorumCertificate :=
  let claim := claimKey tx
  if claim = "" then none
  else
    let proofs := signedClaims c w.askSet claim w.answers
    match claimQuorum c w.askSet claim proofs (w.order (claimCounts proofs)) with
    | .error _ => none
    | .ok p =>
      match p.certificate with
      | none => none
      | some cert =>
        if verifyCertificate c cert w.certSet = .ok () ∧
            ∃ t ∈ cert.entry.transactions, transactionHash c t = transactionHash c tx then some cert
        else none

/-- the answer for a transaction whose round failed with `why` -/
def resolve (tx : LedgerTransaction) (w : ClaimAnswers) (why : String) : Except String QuorumCertificate :=
  match settledCertificate c tx w with
  | some cert => .ok cert
  | none => .error why

/-- a rejected batch, one transaction at a time -/
def settleEach (single : ℕ → ℕ → AttemptAnswers) (claims : ℕ → ClaimAnswers) :
    ℕ → LedgerNetwork → List LedgerTransaction → LedgerNetwork × List (Except String QuorumCertificate)
  | _, n, [] => (n, [])
  | i, n, tx :: rest =>
    let (n, outcome) := round c n [tx] (single i)
    let reply : Except String QuorumCertificate := match outcome with
      | .ok cert => .ok cert
      | .error e => resolve c tx (claims i) e.text
    let (n, replies) := settleEach single claims (i + 1) n rest
    (n, reply :: replies)

/-- the round of a whole batch: a rejected one applied nothing, so it is put once more to the set the chain has moved on
to -/
def settleRound (n : LedgerNetwork) (txs : List LedgerTransaction) (w : SettleAnswers) :
    LedgerNetwork × Except RoundError QuorumCertificate :=
  match round c n txs w.first, w.refresh with
  | (n, .error (.rejected _)), some (set, at_) => round c { n with set := set, setSequence := at_ } txs w.second
  | (n, outcome), _ => (n, outcome)

/-- run one round for a batch, then hand each caller its own answer -/
def settle (n : LedgerNetwork) (txs : List LedgerTransaction) (w : SettleAnswers) :
    LedgerNetwork × List (Except String QuorumCertificate) :=
  let (n, outcome) := settleRound c n txs w
  match outcome with
  | .ok cert => (n, txs.map fun _ => .ok cert)
  | .error (.rejected why) =>
    if 1 < txs.length then settleEach c w.single w.claims 0 n txs
    else (n, txs.mapIdx fun i tx => resolve c tx (w.claims i) why)
  | .error (.committed why) => (n, txs.mapIdx fun i tx => resolve c tx (w.claims i) why)

end

/-! ## What a certificate handed back is -/

/-- every set an attempt looks at is one of these -/
def AttemptAnswers.Reads (held : List ValidatorSet) (w : AttemptAnswers) : Prop :=
  w.headSet ∈ held ∧ w.claimSet ∈ held ∧ w.voteSet ∈ held ∧ w.certSet ∈ held ∧ w.commitSet ∈ held

def ClaimAnswers.Reads (held : List ValidatorSet) (w : ClaimAnswers) : Prop := w.askSet ∈ held ∧ w.certSet ∈ held

structure SettleAnswers.Reads (held : List ValidatorSet) (w : SettleAnswers) : Prop where
  first : ∀ i, (w.first i).Reads held
  second : ∀ i, (w.second i).Reads held
  single : ∀ i j, (w.single i j).Reads held
  claims : ∀ i, (w.claims i).Reads held

/-- a certificate that one of the client's sets verifies, of an entry that carries this very transaction -/
def Settles (c : Crypto) (held : List ValidatorSet) (tx : LedgerTransaction) (cert : QuorumCertificate) : Prop :=
  ∃ set ∈ held, verifyCertificate c cert set = .ok () ∧
    ∃ t ∈ cert.entry.transactions, transactionHash c t = transactionHash c tx

section

variable {c : Crypto} {held : List ValidatorSet}

/-- an attempt settles only the batch it was asked to settle -/
theorem attempt_settled {n n' : LedgerNetwork} {txs : List LedgerTransaction} {w : AttemptAnswers}
    {cert : QuorumCertificate} (h : attempt c n txs w = (n', .ok (.settled cert))) :
    cert.entry.transactions = txs ∧ verifyCertificate c cert w.certSet = .ok () := by
  unfold attempt at h
  split at h
  · simp at h
  · dsimp only at h
    split at h
    · simp at h
    · rename_i adopted hclaim
      split at h
      · simp at h
      · simp at h
      · simp at h
      · rename_i formed hformed
        obtain ⟨hcert, _, hv⟩ := gather_formed hformed
        split_ifs at h
        · simp at h
        · cases adopted with
          | some a => simp at h
          | none =>
            simp only [Prod.mk.injEq, Except.ok.injEq, Attempted.settled.injEq] at h
            rw [← h.2]
            exact ⟨by rw [hcert]; rfl, hv⟩

theorem roundLoop_settled {txs : List LedgerTransaction} {ws : ℕ → AttemptAnswers} (hws : ∀ i, (ws i).Reads held)
    {cert : QuorumCertificate} (left : ℕ) {n : LedgerNetwork} {last : String}
    (h : (roundLoop c txs ws left n last).2 = .ok cert) :
    cert.entry.transactions = txs ∧ ∃ set ∈ held, verifyCertificate c cert set = .ok () := by
  induction left generalizing n last with
  | zero => simp [roundLoop] at h
  | succ left ih =>
    unfold roundLoop at h
    split at h
    · rename_i hatt
      cases h
      obtain ⟨htx, hv⟩ := attempt_settled hatt
      exact ⟨htx, _, (hws _).2.2.2.1, hv⟩
    · exact ih h
    · cases h

theorem round_settled {txs : List LedgerTransaction} {ws : ℕ → AttemptAnswers} (hws : ∀ i, (ws i).Reads held)
    {cert : QuorumCertificate} {n : LedgerNetwork} (h : (round c n txs ws).2 = .ok cert) {tx : LedgerTransaction}
    (htx : tx ∈ txs) : Settles c held tx cert := by
  obtain ⟨hentry, set, hset, hv⟩ := roundLoop_settled hws _ h
  exact ⟨set, hset, hv, tx, by rw [hentry]; exact htx, rfl⟩

theorem settledCertificate_settles {tx : LedgerTransaction} {w : ClaimAnswers} (hw : w.Reads held)
    {cert : QuorumCertificate} (h : settledCertificate c tx w = some cert) : Settles c held tx cert := by
  unfold settledCertificate at h
  dsimp only at h
  split_ifs at h
  split at h
  · cases h
  · split at h
    · cases h
    · split_ifs at h with hok
      cases h
      exact ⟨w.certSet, hw.2, hok⟩

theorem resolve_settles {tx : LedgerTransaction} {w : ClaimAnswers} (hw : w.Reads held) {why : String}
    {cert : QuorumCertificate} (h : resolve c tx w why = .ok cert) : Settles c held tx cert := by
  unfold resolve at h
  split at h
  · rename_i hs
    cases h
    exact settledCertificate_settles hw hs
  · cases h

theorem settleEach_length (single : ℕ → ℕ → AttemptAnswers) (claims : ℕ → ClaimAnswers) (txs : List LedgerTransaction)
    (i : ℕ) (n : LedgerNetwork) : (settleEach c single claims i n txs).2.length = txs.length := by
  induction txs generalizing i n with
  | nil => rfl
  | cons tx txs ih => simp [settleEach, ih]

/-- one answer for each transaction of the batch -/
theorem settle_length (n : LedgerNetwork) (txs : List LedgerTransaction) (w : SettleAnswers) :
    (settle c n txs w).2.length = txs.length := by
  unfold settle
  obtain ⟨n', outcome⟩ := settleRound c n txs w
  cases outcome with
  | ok cert => simp
  | error e =>
    cases e with
    | rejected why =>
      dsimp only
      split_ifs
      · exact settleEach_length _ _ _ _ _
      · simp
    | committed why => simp

theorem settleRound_settled {n : LedgerNetwork} {txs : List LedgerTransaction} {w : SettleAnswers}
    (hw : w.Reads held) {cert : QuorumCertificate} (h : (settleRound c n txs w).2 = .ok cert) {tx : LedgerTransaction}
    (htx : tx ∈ txs) : Settles c held tx cert := by
  unfold settleRound at h
  split at h
  · exact round_settled hw.second h htx
  · rename_i hfirst _
    refine round_settled (n := n) hw.first ?_ htx
    rw [hfirst]
    exact h

theorem settleEach_settles {single : ℕ → ℕ → AttemptAnswers} {claims : ℕ → ClaimAnswers}
    (hsingle : ∀ i j, (single i j).Reads held) (hclaims : ∀ i, (claims i).Reads held) (txs : List LedgerTransaction)
    (i : ℕ) (n : LedgerNetwork) :
    ∀ x ∈ txs.zip (settleEach c single claims i n txs).2, ∀ cert, x.2 = .ok cert → Settles c held x.1 cert := by
  induction txs generalizing i n with
  | nil => simp [settleEach]
  | cons tx txs ih =>
    intro x hx cert hok
    simp only [settleEach, List.zip_cons_cons, List.mem_cons] at hx
    rcases hx with rfl | hx
    · dsimp only at hok
      split at hok
      · rename_i cert' hround
        cases hok
        exact round_settled (hsingle i) hround (by simp)
      · exact resolve_settles (hclaims i) hok
    · exact ih _ _ x hx cert hok

theorem resolveAll_settles {claims : ℕ → ClaimAnswers} (hclaims : ∀ i, (claims i).Reads held)
    (txs : List LedgerTransaction) (why : String) :
    ∀ x ∈ txs.zip (txs.mapIdx fun i tx => resolve c tx (claims i) why), ∀ cert, x.2 = .ok cert →
      Settles c held x.1 cert := by
  intro x hx cert hok
  obtain ⟨i, hi⟩ := List.mem_iff_getElem?.1 hx
  rw [List.getElem?_zip_eq_some, List.getElem?_mapIdx, Option.map_eq_some_iff] at hi
  obtain ⟨htx, tx, htx', hreply⟩ := hi
  rw [htx] at htx'
  cases htx'
  exact resolve_settles (hclaims i) (hreply.trans hok)

/-- **Every certificate a batch hands back settles the transaction it is handed back for.** -/
theorem settle_settles {n : LedgerNetwork} {txs : List LedgerTransaction} {w : SettleAnswers} (hw : w.Reads held) :
    ∀ x ∈ txs.zip (settle c n txs w).2, ∀ cert, x.2 = .ok cert → Settles c held x.1 cert := by
  intro x hx cert hok
  unfold settle at hx
  cases hr : settleRound c n txs w with
  | mk n' outcome =>
    rw [hr] at hx
    cases outcome with
    | ok formed =>
      simp only at hx
      obtain ⟨i, hi⟩ := List.mem_iff_getElem?.1 hx
      rw [List.getElem?_zip_eq_some, List.getElem?_map, Option.map_eq_some_iff] at hi
      obtain ⟨htx, _, _, hreply⟩ := hi
      rw [hok] at hreply
      cases hreply
      exact settleRound_settled (n := n) hw (by rw [hr]) (List.mem_of_getElem? htx)
    | error e =>
      cases e with
      | rejected why =>
        simp only at hx
        split_ifs at hx
        · exact settleEach_settles hw.single hw.claims txs 0 n' x hx cert hok
        · exact resolveAll_settles hw.claims txs why x hx cert hok
      | committed why => exact resolveAll_settles hw.claims txs why x hx cert hok

end

end Hocmesh.Network
