/-
Who may call the coordinator (`verify_auth` of `hocmesh-protocol`, `authenticate_known_node` and `consume_nonce` of
`hocmesh-coordinator/src/api.rs`).

A signed request passes two gates, each with its own reading of the clock: `verify_auth` refuses a timestamp more than
five minutes away, `consume_nonce` refuses a nonce it still remembers and forgets one ten minutes after it was used.
Requests are handled concurrently, so other requests come between the two. A run is a list of such events, in the order
in which they reach the database.

The windows meet exactly: a proof that is first used when its timestamp is five minutes ahead and again when it is five
minutes behind is ten minutes old, and its nonce is still there. One second between the two readings is enough to lose
it, so single use (`single_use`) needs the nonce to be remembered until the last use has been looked up.
-/
import Hocmesh.Protocol.Sample

namespace Hocmesh.Coordinator

open Hocmesh.Base Hocmesh.Protocol

/-! ## The two gates -/

def authMaxClockSkewSecs : ℤ := 300

/-- `i64::abs` of an optimised build: `i64::MIN` is its own absolute value -/
def absI64 (x : ℤ) : ℤ := wrap64 |x|

/-- `(now_unix() - proof.timestamp).abs() > AUTH_MAX_CLOCK_SKEW_SECS`, negated -/
def withinSkew (now timestamp : ℤ) : Prop := absI64 (wrap64 (now - timestamp)) ≤ authMaxClockSkewSecs

instance (now timestamp : ℤ) : Decidable (withinSkew now timestamp) := by unfold withinSkew; infer_instance

/-- live API verification additionally enforces a short clock-skew window -/
def verifyAuth (c : Crypto) (now : ℤ) (publicKeyB64 : String) (proof : AuthProof) (action bodyHash : String) :
    Check Unit := do
  bailIf (¬ withinSkew now proof.timestamp) "authentication timestamp is outside the allowed clock skew"
  bailIf (proof.nonceB64.utf8ByteSize < 16) "authentication nonce is missing or too short"
  verifyAuthSignature c publicKeyB64 proof action bodyHash

structure NonceRow where
  nodeId : String
  nonceB64 : String
  expiresAt : ℤ
deriving DecidableEq

def nonceExpiry (now : ℤ) : ℤ := wrap64 (now + authMaxClockSkewSecs * 2)

/-- forget what has expired, then write the nonce down unless it is already there -/
def consumeNonce (nonces : List NonceRow) (now : ℤ) (proof : AuthProof) : List NonceRow × Check Unit :=
  let kept := nonces.filter fun row => ¬ row.expiresAt < now
  if ∃ row ∈ kept, row.nodeId = proof.nodeId ∧ row.nonceB64 = proof.nonceB64 then
    (kept, .error "replayed authentication nonce")
  else (kept ++ [⟨proof.nodeId, proof.nonceB64, nonceExpiry now⟩], .ok ())

/-! ## A run of requests -/

/-- a signed request, with the key its node is known by -/
structure Request where
  publicKeyB64 : String
  auth : AuthProof
  action : String
  bodyHash : String
deriving DecidableEq

inductive Event where
  /-- a request reaches `verify_auth` -/
  | verify (r : Request) (now : ℤ)
  /-- the `i`-th of the requests between the two gates reaches `consume_nonce` -/
  | consume (i : ℕ) (now : ℤ)
deriving DecidableEq

def Event.now : Event → ℤ
  | .verify _ now => now
  | .consume _ now => now

/-- a request that passed `verify_auth` and what `consume_nonce` said to it -/
structure Consumed where
  request : Request
  verifiedAt : ℤ
  consumedAt : ℤ
  accepted : Bool
deriving DecidableEq

structure Gate where
  nonces : List NonceRow
  between : List (Request × ℤ)
  log : List Consumed
deriving DecidableEq

def Gate.step (c : Crypto) (g : Gate) : Event → Gate
  | .verify r now =>
    if verifyAuth c now r.publicKeyB64 r.auth r.action r.bodyHash = .ok () then { g with between := g.between ++ [(r, now)] }
    else g
  | .consume i now =>
    match g.between[i]? with
    | none => g
    | some (r, verifiedAt) =>
      let (nonces, outcome) := consumeNonce g.nonces now r.auth
      { nonces := nonces, between := g.between.eraseIdx i
        log := g.log ++ [⟨r, verifiedAt, now, decide (outcome = .ok ())⟩] }

def Gate.run (c : Crypto) (events : List Event) : Gate := events.foldl (Gate.step c) ⟨[], [], []⟩

/-- what a signed request says: node, action, nonce, timestamp and body -/
def Request.proof (r : Request) : String × String × String × ℤ × String :=
  (r.auth.nodeId, r.action, r.auth.nonceB64, r.auth.timestamp, r.bodyHash)

/-- no proof is accepted twice -/
def SingleUse (log : List Consumed) : Prop :=
  ∀ (i j : ℕ) (x y : Consumed), i < j → log[i]? = some x → log[j]? = some y → x.accepted → y.accepted →
    x.request.proof ≠ y.request.proof

/-- what is accepted is at most the tolerance away from the clock `verify_auth` read, over the integers -/
def Fresh (log : List Consumed) : Prop :=
  ∀ x ∈ log, x.accepted → |x.verifiedAt - x.request.auth.timestamp| ≤ authMaxClockSkewSecs

/-- between two uses of one proof, the later one included, no `consume_nonce` reads a clock past the expiry the first one
would write -/
def Remembered (log : List Consumed) : Prop :=
  ∀ (i k j : ℕ) (x y z : Consumed), i < k → k ≤ j → log[i]? = some x → log[k]? = some y → log[j]? = some z →
    x.request.proof = z.request.proof → y.consumedAt ≤ nonceExpiry x.consumedAt

/-- a distance that `i64` arithmetic takes for a short one -/
def Misread (now timestamp : ℤ) : Prop :=
  |now - timestamp| = 9223372036854775808 ∨ 18446744073709551316 ≤ |now - timestamp|

instance (now timestamp : ℤ) : Decidable (Misread now timestamp) := by unfold Misread; infer_instance

/-- an event whose clock and timestamp are values of type `i64` -/
def Event.Fits : Event → Prop
  | .verify r now => FitsI64 now ∧ FitsI64 r.auth.timestamp
  | .consume _ now => FitsI64 now

instance (e : Event) : Decidable e.Fits := by cases e <;> (unfold Event.Fits; infer_instance)

/-! ## Freshness -/

/-- the skew check, exactly -/
theorem withinSkew_iff {now timestamp : ℤ} (hn : FitsI64 now) (ht : FitsI64 timestamp) :
    withinSkew now timestamp ↔ |now - timestamp| ≤ authMaxClockSkewSecs ∨ Misread now timestamp := by
  unfold FitsI64 i64Min i64Max at hn ht
  unfold withinSkew Misread absI64 authMaxClockSkewSecs wrap64
  simp only [Int.bmod_def, abs_eq_max_neg]
  omega

theorem withinSkew_of_verify {c : Crypto} {now : ℤ} {publicKeyB64 action bodyHash : String} {proof : AuthProof}
    (h : verifyAuth c now publicKeyB64 proof action bodyHash = .ok ()) : withinSkew now proof.timestamp := by
  simp only [verifyAuth, bind_ok, bailIf_ok, exists_const, not_not] at h
  exact h.1

/-! ## What the nonce table knows -/

/-- the row an accepted use leaves -/
def Consumed.row (x : Consumed) : NonceRow :=
  ⟨x.request.auth.nodeId, x.request.auth.nonceB64, nonceExpiry x.consumedAt⟩

/-- some use after the `i`-th has read a clock past the `i`-th one's expiry -/
def Forgotten (log : List Consumed) (i : ℕ) (x : Consumed) (j : ℕ) : Prop :=
  ∃ k y, i < k ∧ k ≤ j ∧ log[k]? = some y ∧ nonceExpiry x.consumedAt < y.consumedAt

structure Gate.Sound (g : Gate) : Prop where
  /-- an accepted nonce is in the table until a clock past its expiry is read -/
  kept : ∀ i x, g.log[i]? = some x → x.accepted → x.row ∈ g.nonces ∨ Forgotten g.log i x g.log.length
  /-- it is accepted again only after that -/
  lost : ∀ (i j : ℕ) (x y : Consumed), i < j → g.log[i]? = some x → g.log[j]? = some y → x.accepted → y.accepted →
    x.request.proof = y.request.proof → Forgotten g.log i x j

/-- between the gates, and past them, every request came through `verify_auth` -/
structure Gate.Verified (events : List Event) (g : Gate) : Prop where
  between : ∀ x ∈ g.between, .verify x.1 x.2 ∈ events ∧ withinSkew x.2 x.1.auth.timestamp
  log : ∀ x ∈ g.log, .verify x.request x.verifiedAt ∈ events ∧ withinSkew x.verifiedAt x.request.auth.timestamp

theorem Forgotten.append {log : List Consumed} {i j : ℕ} {x : Consumed} (h : Forgotten log i x j) (y : Consumed) {j' : ℕ}
    (hj : j ≤ j') : Forgotten (log ++ [y]) i x j' := by
  obtain ⟨k, z, hik, hkj, hz, hlt⟩ := h
  have hk : k < log.length := (List.getElem?_eq_some_iff.1 hz).1
  exact ⟨k, z, hik, hkj.trans hj, by rw [List.getElem?_append_left hk]; exact hz, hlt⟩

theorem forgotten_snoc {log : List Consumed} {i j : ℕ} {x y : Consumed} (hi : i < log.length) (hj : log.length ≤ j)
    (hlt : nonceExpiry x.consumedAt < y.consumedAt) : Forgotten (log ++ [y]) i x j :=
  ⟨log.length, y, hi, hj, by simp, hlt⟩

/-- the new entry of a log, or one that was there -/
theorem getElem?_snoc {log : List Consumed} {y x : Consumed} {i : ℕ} (h : (log ++ [y])[i]? = some x) :
    log[i]? = some x ∨ i = log.length ∧ x = y := by
  by_cases hi : i < log.length
  · left
    rwa [List.getElem?_append_left hi] at h
  · right
    have hlen := (List.getElem?_eq_some_iff.1 h).1
    rw [List.length_append, List.length_singleton] at hlen
    obtain rfl : i = log.length := by omega
    simpa [eq_comm] using h

section

variable {c : Crypto} {g : Gate} {events : List Event} {nonces : List NonceRow} {proof : AuthProof} {now : ℤ}

/-- a row that does not survive a use had expired at its clock -/
theorem consumeNonce_kept (proof : AuthProof) (now : ℤ) {row : NonceRow} (h : row ∈ nonces) :
    row ∈ (consumeNonce nonces now proof).1 ∨ row.expiresAt < now := by
  by_cases hexp : row.expiresAt < now
  · exact Or.inr hexp
  · left
    have hin : row ∈ nonces.filter fun row => ¬ row.expiresAt < now := List.mem_filter.2 ⟨h, by simpa using hexp⟩
    simp only [consumeNonce]
    split_ifs
    · exact hin
    · exact List.mem_append_left _ hin

/-- an accepted use writes its row, and no live row had its node and nonce -/
theorem consumeNonce_accepts (h : (consumeNonce nonces now proof).2 = .ok ()) :
    (⟨proof.nodeId, proof.nonceB64, nonceExpiry now⟩ : NonceRow) ∈ (consumeNonce nonces now proof).1 ∧
      ∀ row ∈ nonces, row.nodeId = proof.nodeId → row.nonceB64 = proof.nonceB64 → row.expiresAt < now := by
  simp only [consumeNonce] at h ⊢
  split_ifs at h ⊢ with hthere
  · refine ⟨by simp, ?_⟩
    intro row hrow hnode hnonce
    by_contra hlive
    exact hthere ⟨row, List.mem_filter.2 ⟨hrow, by simpa using hlive⟩, hnode, hnonce⟩

/-- one request at the nonce table -/
theorem Gate.Sound.consume (h : g.Sound) (r : Request) (verifiedAt now : ℤ) (between : List (Request × ℤ)) :
    (Gate.mk (consumeNonce g.nonces now r.auth).1 between
      (g.log ++ [⟨r, verifiedAt, now, decide ((consumeNonce g.nonces now r.auth).2 = .ok ())⟩])).Sound where
  kept := by
    intro i x hx hacc
    rcases getElem?_snoc hx with hold | ⟨_, rfl⟩
    · rcases h.kept i x hold hacc with hrow | hgone
      · rcases consumeNonce_kept r.auth now hrow with hstill | hexp
        · exact Or.inl hstill
        · exact Or.inr (forgotten_snoc (List.getElem?_eq_some_iff.1 hold).1 (by simp) hexp)
      · exact Or.inr (hgone.append _ (by simp))
    · exact Or.inl (consumeNonce_accepts (by simpa using hacc)).1
  lost := by
    intro i j x y hij hx hy haccx haccy hsame
    rcases getElem?_snoc hy with hyold | ⟨rfl, rfl⟩
    · have hj := (List.getElem?_eq_some_iff.1 hyold).1
      rw [List.getElem?_append_left (hij.trans hj)] at hx
      exact (h.lost i j x y hij hx hyold haccx haccy hsame).append _ le_rfl
    · rw [List.getElem?_append_left hij] at hx
      rcases h.kept i x hx haccx with hrow | hgone
      · -- the first row is still there, so it expires at this very clock
        simp only [Request.proof, Prod.mk.injEq] at hsame
        have hexp := (consumeNonce_accepts (by simpa using haccy)).2 x.row hrow hsame.1 hsame.2.2.1
        exact forgotten_snoc hij le_rfl hexp
      · exact hgone.append _ le_rfl

theorem Gate.Sound.step (h : g.Sound) (e : Event) : (g.step c e).Sound := by
  cases e with
  | verify r now =>
    simp only [Gate.step]
    split_ifs
    · exact ⟨h.kept, h.lost⟩
    · exact h
  | consume i now =>
    simp only [Gate.step]
    cases g.between[i]? with
    | none => exact h
    | some x => exact h.consume x.1 x.2 now _

theorem Gate.Verified.step (h : g.Verified events) (e : Event) : (g.step c e).Verified (events ++ [e]) := by
  have hold : ∀ x ∈ events, x ∈ events ++ [e] := fun x hx => List.mem_append_left _ hx
  have hbetween : ∀ x ∈ g.between, .verify x.1 x.2 ∈ events ++ [e] ∧ withinSkew x.2 x.1.auth.timestamp :=
    fun x hx => ⟨hold _ (h.between x hx).1, (h.between x hx).2⟩
  have hlog : ∀ x ∈ g.log, .verify x.request x.verifiedAt ∈ events ++ [e] ∧
      withinSkew x.verifiedAt x.request.auth.timestamp := fun x hx => ⟨hold _ (h.log x hx).1, (h.log x hx).2⟩
  cases e with
  | verify r now =>
    simp only [Gate.step]
    split_ifs with hok
    · refine ⟨?_, hlog⟩
      intro x hx
      rcases List.mem_append.1 hx with hin | hnew
      · exact hbetween x hin
      · rw [List.mem_singleton.1 hnew]
        exact ⟨by simp, withinSkew_of_verify hok⟩
    · exact ⟨hbetween, hlog⟩
  | consume i now =>
    simp only [Gate.step]
    cases hi : g.between[i]? with
    | none => exact ⟨hbetween, hlog⟩
    | some x =>
      refine ⟨fun y hy => hbetween y (List.mem_of_mem_eraseIdx hy), ?_⟩
      intro y hy
      rcases List.mem_append.1 hy with hin | hnew
      · exact hlog y hin
      · rw [List.mem_singleton.1 hnew]
        exact hbetween x (List.mem_of_getElem? hi)

theorem Gate.run_sound (c : Crypto) (events : List Event) : (run c events).Sound ∧ (run c events).Verified events := by
  induction events using List.reverseRecOn with
  | nil => exact ⟨⟨by simp [run], by simp [run]⟩, by simp [run], by simp [run]⟩
  | append_singleton events e ih =>
    rw [run, List.foldl_append]
    exact ⟨ih.1.step e, ih.2.step e⟩

end

/-- **Single use.** Whatever the requests, their order and the clock: as long as a nonce is remembered until the last use
of its proof has been looked up and no skew is misread, no proof is accepted twice and none outside the tolerance. -/
theorem single_use {c : Crypto} {events : List Event} (hfits : ∀ e ∈ events, e.Fits)
    (hrem : Remembered (Gate.run c events).log)
    (hread : ∀ x ∈ (Gate.run c events).log, ¬ Misread x.verifiedAt x.request.auth.timestamp) :
    SingleUse (Gate.run c events).log ∧ Fresh (Gate.run c events).log := by
  obtain ⟨hsound, hverified⟩ := Gate.run_sound c events
  constructor
  · intro i j x y hij hx hy haccx haccy hsame
    obtain ⟨k, z, hik, hkj, hz, hlt⟩ := hsound.lost i j x y hij hx hy haccx haccy hsame
    exact absurd (hrem i k j x z y hik hkj hx hz hy hsame) (not_le.2 hlt)
  · intro x hx _
    obtain ⟨hin, hskew⟩ := hverified.log x hx
    obtain ⟨hnow, hstamp⟩ := hfits _ hin
    exact ((withinSkew_iff hnow hstamp).1 hskew).resolve_right (hread x hx)

/-- what one node signs once -/
def sampleRequest (timestamp : ℤ) : Request :=
  ⟨Sample.publicKeyB64 1, Sample.authProof 1 timestamp "nonce-0123456789" "poll" "empty", "poll", "empty"⟩

/-- a request, and its replay a second later -/
def replayed : List Event :=
  [.verify (sampleRequest 1000) 1000, .consume 0 1000, .verify (sampleRequest 1000) 1001, .consume 0 1001]

theorem replayed_log : (Gate.run Sample.crypto replayed).log =
    [⟨sampleRequest 1000, 1000, 1000, true⟩, ⟨sampleRequest 1000, 1001, 1001, false⟩] := by
  decide +kernel

theorem replay_refused :
    SingleUse (Gate.run Sample.crypto replayed).log ∧ Fresh (Gate.run Sample.crypto replayed).log := by
  have hexp : ∀ x ∈ (Gate.run Sample.crypto replayed).log, ∀ y ∈ (Gate.run Sample.crypto replayed).log,
      y.consumedAt ≤ nonceExpiry x.consumedAt := by
    rw [replayed_log]
    decide
  refine single_use (by decide) ?_ ?_
  · intro i k j x y z _ _ hx hy _ _
    exact hexp x (List.mem_of_getElem? hx) y (List.mem_of_getElem? hy)
  · rw [replayed_log]
    decide

/-- a request used five minutes early, and again five minutes late with the clock moving on between the two gates; and a
request 2^63 seconds old -/
def forgotten : List Event :=
  [.verify (sampleRequest 1000) 700, .consume 0 700, .verify (sampleRequest 1000) 1300, .consume 0 1301,
    .verify (sampleRequest (2000 - 9223372036854775808)) 2000, .consume 0 2000]

/-- in order, on a clock that never goes back, one request is accepted twice and one 2^63 seconds after its timestamp -/
theorem accepted_twice_and_stale : (forgotten.map Event.now).Pairwise (· ≤ ·) ∧ (∀ e ∈ forgotten, e.Fits) ∧
    ¬ SingleUse (Gate.run Sample.crypto forgotten).log ∧ ¬ Fresh (Gate.run Sample.crypto forgotten).log := by
  have hlog : (Gate.run Sample.crypto forgotten).log =
      [⟨sampleRequest 1000, 700, 700, true⟩, ⟨sampleRequest 1000, 1300, 1301, true⟩,
        ⟨sampleRequest (2000 - 9223372036854775808), 2000, 2000, true⟩] := by decide +kernel
  refine ⟨by decide, by decide, ?_, ?_⟩
  · rw [hlog]
    intro h
    exact h 0 1 _ _ (by decide) rfl rfl rfl rfl rfl
  · rw [hlog]
    intro h
    have := h ⟨sampleRequest (2000 - 9223372036854775808), 2000, 2000, true⟩ (by simp) rfl
    revert this
    decide

end Hocmesh.Coordinator
