/-
A client's ballot counter over any run of calls (`hocmesh-ledger/src/network.rs`): `outbid` with a ballot some seat
reported, `next_ballot` for the attempt to come.

The ballots a client has met are those it was told of and those it took. `Tracked` is the invariant on both sides of the
counter. Below the limit it is at least every number met, and it is never a number nobody met. The counter is a `u64` and
`fetch_add` wraps, so the ballot taken at `u64::MAX` is number 0 and outranks nothing that was met.
-/
import Hocmesh.Base.Along
import Hocmesh.Network.Seats
import Hocmesh.Protocol.Sample

namespace Hocmesh.Network

open Hocmesh.Base Hocmesh.Protocol Hocmesh.Protocol.Sample Hocmesh.Ledger

inductive BallotCall where
  | outbid (seen : Ballot)
  | nextBallot
deriving DecidableEq

/-- a ballot a peer can report -/
def BallotCall.InRange : BallotCall → Prop
  | .outbid seen => seen.number < 2 ^ 64
  | .nextBallot => True

instance : DecidablePred BallotCall.InRange := fun call => by cases call <;> unfold BallotCall.InRange <;> infer_instance

/-- a client and the ballots it has met, the latest first -/
structure Bidder where
  client : LedgerNetwork
  met : List Ballot

namespace Bidder

/-- `LedgerNetwork::new` leaves the counter at its default -/
def start (set : ValidatorSet) (setSequence : ℕ) (proposer : String) : Bidder := ⟨⟨set, setSequence, proposer, 0⟩, []⟩

def step (b : Bidder) : BallotCall → Bidder
  | .outbid seen => ⟨b.client.outbid seen, seen :: b.met⟩
  | .nextBallot => ⟨b.client.nextBallot.1, b.client.nextBallot.2 :: b.met⟩

/-- a ballot taken now outranks every ballot met -/
def TakesAbove (b : Bidder) (call : BallotCall) : Prop :=
  call = .nextBallot → ∀ m ∈ b.met, b.client.nextBallot.2.outranks m

/-- the counter has room for a ballot taken now -/
def HasRoom (b : Bidder) (call : BallotCall) : Prop := call = .nextBallot → b.client.ballot < 2 ^ 64 - 1

instance (b : Bidder) (call : BallotCall) : Decidable (b.TakesAbove call) := by unfold TakesAbove; infer_instance
instance (b : Bidder) (call : BallotCall) : Decidable (b.HasRoom call) := by unfold HasRoom; infer_instance

/-! ## The counter and the ballots met -/

/-- the counter stands at zero or at a number that was met -/
def Attained (b : Bidder) : Prop :=
  b.client.ballot < 2 ^ 64 ∧ (b.client.ballot = 0 ∨ ∃ m ∈ b.met, m.number = b.client.ballot)

/-- no ballot met is above the counter -/
def Covers (b : Bidder) : Prop := ∀ m ∈ b.met, m.number ≤ b.client.ballot

theorem attained_start (set : ValidatorSet) (n : ℕ) (proposer : String) : (start set n proposer).Attained :=
  ⟨by change 0 < 2 ^ 64; norm_num, Or.inl rfl⟩

theorem covers_start (set : ValidatorSet) (n : ℕ) (proposer : String) : (start set n proposer).Covers :=
  fun _ h => absurd h List.not_mem_nil

theorem attained_step {b : Bidder} {call : BallotCall} (hin : BallotCall.InRange call) (h : b.Attained) :
    (b.step call).Attained := by
  obtain ⟨hlt, hat⟩ := h
  cases call with
  | nextBallot =>
    have htaken : (b.step .nextBallot).client.ballot = b.client.nextBallot.2.number := rfl
    refine ⟨?_, Or.inr ⟨b.client.nextBallot.2, List.mem_cons_self, htaken.symm⟩⟩
    exact Nat.mod_lt _ (by norm_num)
  | outbid seen =>
    change max b.client.ballot seen.number < 2 ^ 64 ∧
      (max b.client.ballot seen.number = 0 ∨ ∃ m ∈ seen :: b.met, m.number = max b.client.ballot seen.number)
    refine ⟨max_lt hlt hin, ?_⟩
    rcases le_total b.client.ballot seen.number with hle | hle
    · rw [max_eq_right hle]
      exact Or.inr ⟨seen, List.mem_cons_self, rfl⟩
    · rw [max_eq_left hle]
      refine hat.imp_right fun ⟨m, hm, hnum⟩ => ?_
      exact ⟨m, List.mem_cons_of_mem _ hm, hnum⟩

theorem covers_step {b : Bidder} {call : BallotCall} (hroom : b.HasRoom call) (h : b.Covers) :
    (b.step call).Covers := by
  intro m hm
  cases call with
  | nextBallot =>
    have hnext : b.client.ballot + 1 < 2 ^ 64 := Nat.add_lt_of_lt_sub (hroom rfl)
    change m.number ≤ (b.client.ballot + 1) % 2 ^ 64
    rcases List.mem_cons.1 hm with rfl | hm
    · exact le_rfl
    · rw [Nat.mod_eq_of_lt hnext]
      exact (h m hm).trans (Nat.le_succ _)
  | outbid seen =>
    change m.number ≤ max b.client.ballot seen.number
    rcases List.mem_cons.1 hm with rfl | hm
    · exact le_max_right _ _
    · exact (h m hm).trans (le_max_left _ _)

/-! ## When a ballot taken is above what was met -/

theorem takesAbove_of_room {b : Bidder} {call : BallotCall} (hcov : b.Covers) (hroom : b.HasRoom call) :
    b.TakesAbove call := by
  intro hcall m hm
  have hnext : b.client.ballot + 1 < 2 ^ 64 := Nat.add_lt_of_lt_sub (hroom hcall)
  refine Or.inl ?_
  calc m.number ≤ b.client.ballot := hcov m hm
    _ < b.client.ballot + 1 := Nat.lt_succ_self _
    _ = (b.client.ballot + 1) % 2 ^ 64 := (Nat.mod_eq_of_lt hnext).symm

/-- at `u64::MAX` the ballot taken is number 0, and the counter got there by a ballot that was met -/
theorem room_of_takesAbove {b : Bidder} {call : BallotCall} (hat : b.Attained) (habove : b.TakesAbove call) :
    b.HasRoom call := by
  intro hcall
  by_contra hfull
  have hmax : b.client.ballot = 2 ^ 64 - 1 := le_antisymm (Nat.le_pred_of_lt hat.1) (not_lt.1 hfull)
  obtain ⟨m, hm, hnum⟩ : ∃ m ∈ b.met, m.number = b.client.ballot :=
    hat.2.resolve_left fun h => by rw [h] at hmax; norm_num at hmax
  have hzero : b.client.nextBallot.2.number = 0 := by
    change (b.client.ballot + 1) % 2 ^ 64 = 0
    rw [hmax]
    norm_num
  rcases habove hcall m hm with hlt | ⟨heq, -⟩
  · rw [hzero] at hlt
    exact Nat.not_lt_zero _ hlt
  · rw [hzero, hnum, hmax] at heq
    norm_num at heq

theorem along_takesAbove : ∀ {calls : List BallotCall} {b : Bidder}, b.Covers → Along step HasRoom b calls →
    Along step TakesAbove b calls :=
  fun {calls b} => Along.strengthen Covers (fun _ _ h hroom => covers_step hroom h)
    (fun _ _ h hroom => takesAbove_of_room h hroom) calls b

theorem along_hasRoom {calls : List BallotCall} : ∀ {b : Bidder}, b.Attained → (∀ call ∈ calls, BallotCall.InRange call) →
    Along step TakesAbove b calls → Along step HasRoom b calls := by
  induction calls with
  | nil => intro b _ _ _; trivial
  | cons call calls ih =>
    intro b hat hin h
    refine ⟨room_of_takesAbove hat h.1, ?_⟩
    exact ih (attained_step (hin call List.mem_cons_self) hat) (fun c hc => hin c (List.mem_cons_of_mem _ hc)) h.2

end Bidder

open Bidder in
/-- **Always a higher ballot.** Over any run of calls on one client, every ballot it takes outranks every ballot it was told
of and every ballot it took before, exactly when the counter is below `u64::MAX` whenever a ballot is taken. -/
theorem takes_above_iff (set : ValidatorSet) (setSequence : ℕ) (proposer : String) (calls : List BallotCall)
    (hcalls : ∀ call ∈ calls, BallotCall.InRange call) :
    Along step TakesAbove (start set setSequence proposer) calls ↔
      Along step HasRoom (start set setSequence proposer) calls :=
  ⟨along_hasRoom (attained_start _ _ _) hcalls, along_takesAbove (covers_start _ _ _)⟩

/-- a seat reports a ballot two below the limit: one ballot is left to take, and it is taken -/
theorem one_ballot_left :
    Along Bidder.step Bidder.TakesAbove (Bidder.start (committee 1) 0 "client")
      [.outbid ⟨2 ^ 64 - 2, "rival"⟩, .nextBallot] :=
  (takes_above_iff (committee 1) 0 "client" [.outbid ⟨2 ^ 64 - 2, "rival"⟩, .nextBallot] (by decide)).2 (by decide)

/-- a seat reports number `u64::MAX`: the next ballot is number 0, below it -/
theorem cannot_outbid_limit :
    ¬ ∀ (set : ValidatorSet) (setSequence : ℕ) (proposer : String) (calls : List BallotCall),
      (∀ call ∈ calls, BallotCall.InRange call) →
        Along Bidder.step Bidder.TakesAbove (Bidder.start set setSequence proposer) calls := by
  intro h
  have := h (committee 1) 0 "client" [.outbid ⟨2 ^ 64 - 1, "rival"⟩, .nextBallot] (by decide)
  exact absurd this (by decide)

end Hocmesh.Network
