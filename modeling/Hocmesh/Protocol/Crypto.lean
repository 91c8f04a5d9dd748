/-
What `hocmesh-protocol` computes out of the crates it links, and the ids and signed bodies built on them.

`Crypto` holds the four linked primitives: SHA-256, the JSON serializer, base64 decoding and Ed25519 verification.
Nothing is assumed about them here. Everything else is the protocol's own code over them: hex, job and assignment ids,
node ids, the canonical message a node signs, the body hashes, and `verifyAuthSignature`.

The two facts the ledger needs of ids hold whatever the primitives are: a node id that signed something starts with
`hocmesh_` (`nodeId_of_verified`), so it is no reserved account; and the assignment ids of one job are told apart by
their index (`inferenceAssignmentId_inj`).
-/
import Hocmesh.Ledger.Types

namespace Hocmesh.Protocol

open Hocmesh.Base Hocmesh.Ledger

/-- the linked primitives: `sha2`, `serde_json`, `base64` and `ed25519_dalek` -/
structure Crypto where
  /-- the 32-byte digest of a byte string -/
  sha256 : List UInt8 → List UInt8
  /-- `serde_json::to_vec` -/
  json : Payload → List UInt8
  /-- `STANDARD_NO_PAD.decode` -/
  decode : String → Option (List UInt8)
  /-- `VerifyingKey::from_bytes(..).is_ok()` -/
  validKey : List UInt8 → Bool
  /-- `VerifyingKey::verify(key, message, signature).is_ok()` -/
  verify : List UInt8 → List UInt8 → List UInt8 → Bool

/-! ## Hashes and ids -/

def bytesOf (s : String) : List UInt8 := s.toUTF8.data.toList

def hexDigit (n : ℕ) : Char := if n < 10 then Char.ofNat (48 + n) else Char.ofNat (87 + n)

def hexLower (bytes : List UInt8) : String :=
  String.ofList (bytes.flatMap fun b => [hexDigit (b.toNat / 16), hexDigit (b.toNat % 16)])

/-- the first `n` characters, as `&s[..n]` on an ASCII string -/
def firstChars (n : ℕ) (s : String) : String := String.ofList (s.toList.take n)

section

variable (c : Crypto)

def hashBytes (bytes : List UInt8) : String := hexLower (c.sha256 bytes)

def hashJson (value : Payload) : String := hashBytes c (c.json value)

def nodeIdFromPublicKey (publicKey : List UInt8) : String := "hocmesh_" ++ hexLower ((c.sha256 publicKey).take 16)

def jobIdFromAuth (proof : AuthProof) : String := "job_" ++ firstChars 32 (hashBytes c (bytesOf proof.nonceB64))

def inferenceJobIdFromAuth (proof : AuthProof) : String :=
  "ai_" ++ firstChars 32 (hashBytes c (bytesOf proof.nonceB64))

/-- the twenty hex characters of a job id that its assignment ids carry -/
def jobDigest (jobId : String) : String := firstChars 20 (hashBytes c (bytesOf jobId))

def assignmentId (jobId : String) (shardIndex : ℕ) : String :=
  "asg_" ++ jobDigest c jobId ++ "_" ++ toString shardIndex

/-- the deterministic id of one batch of an inference job -/
def inferenceAssignmentId (jobId : String) (index : ℕ) : String :=
  "aiasg_" ++ jobDigest c jobId ++ "_" ++ toString index

/-! ## Signed bodies -/

def submitBodyHash (work : WorkSpec) (shards : ℕ) : String := hashJson c (.submit work shards)

def resultBodyHash (id jobId : String) (shardIndex : ℕ) (work : WorkSpec) (rewardMcu : ℤ) (systemFunded : Bool)
    (r : WorkResult) : String :=
  hashJson c (.result id jobId shardIndex work rewardMcu systemFunded r)

def refundBodyHash (id jobId : String) (shardIndex : ℕ) (work : WorkSpec) (refundMcu : ℤ) (systemFunded : Bool) :
    String :=
  hashJson c (.refund "refund" id jobId shardIndex work refundMcu systemFunded)

def inferenceBillingHash (billing : InferenceBilling) : String := hashJson c (.billing billing)

def inferenceSubmitBodyHash (billingHash settingsDigest : String) : String :=
  hashJson c (.inferenceSubmit "inference_submit" billingHash settingsDigest)

def inferenceRewardBodyHash (assignmentId jobId : String) (batchStart batchEnd : ℕ) (rewardMcu : ℤ)
    (outputsDigest : String) : String :=
  hashJson c (.inferenceBatch "inference_reward" assignmentId jobId batchStart batchEnd rewardMcu outputsDigest)

def inferenceReceiptBodyHash (assignmentId jobId : String) (batchStart batchEnd : ℕ) (priceMcu : ℤ)
    (outputsDigest : String) : String :=
  hashJson c (.inferenceBatch "inference_receipt" assignmentId jobId batchStart batchEnd priceMcu outputsDigest)

def inferenceVerdictBodyHash (accepted : Bool) (assignmentId jobId : String) (batchStart batchEnd : ℕ)
    (priceMcu : ℤ) (outputsDigest : String) : String :=
  hashJson c (.inferenceBatch (if accepted then "inference_accept" else "inference_dispute") assignmentId jobId
    batchStart batchEnd priceMcu outputsDigest)

def inferenceRefundBodyHash (assignmentId jobId : String) (batchStart batchEnd : ℕ) (refundMcu : ℤ) : String :=
  hashJson c (.inferenceRefund "inference_refund" assignmentId jobId batchStart batchEnd refundMcu)

/-! ## Signatures -/

def protocolVersion : ℕ := 6

def canonicalAuthMessage (action nodeId : String) (timestamp : ℤ) (nonceB64 bodyHash : String) : String :=
  "hocmesh-v" ++ toString protocolVersion ++ "|" ++ action ++ "|" ++ nodeId ++ "|" ++ toString timestamp ++ "|" ++
    nonceB64 ++ "|" ++ bodyHash

/-- identity and signature only: what a historical audit can still check -/
def verifyAuthSignature (publicKeyB64 : String) (proof : AuthProof) (action bodyHash : String) : Check Unit := do
  let pk ← orBail (c.decode publicKeyB64) "invalid public key encoding"
  bailIf (pk.length ≠ 32) "public key must be 32 bytes"
  bailIf (nodeIdFromPublicKey c pk ≠ proof.nodeId) "node id does not match public key"
  let sig ← orBail (c.decode proof.signatureB64) "invalid signature encoding"
  bailIf (sig.length ≠ 64) "invalid Ed25519 signature"
  bailIf (c.validKey pk = false) "invalid Ed25519 public key"
  bailIf (c.verify pk (bytesOf (canonicalAuthMessage action proof.nodeId proof.timestamp proof.nonceB64 bodyHash)) sig
    = false) "signature verification failed"

/-- a node id: what `nodeIdFromPublicKey` can produce -/
def IsNodeId (a : String) : Prop := ∃ x, a = "hocmesh_" ++ x

theorem nodeId_of_verified {publicKeyB64 action bodyHash : String} {proof : AuthProof}
    (h : verifyAuthSignature c publicKeyB64 proof action bodyHash = .ok ()) : IsNodeId proof.nodeId := by
  simp only [verifyAuthSignature, bind_ok, bailIf_ok, not_not] at h
  obtain ⟨pk, _, _, _, _, hid, _⟩ := h
  exact ⟨_, hid.symm⟩

/-! ## Ids told apart -/

/-- what stands before the first separator, and what stands after it -/
theorem append_sep_inj {sep : Char} {a b x y : List Char} (ha : ∀ ch ∈ a, ch ≠ sep) (hb : ∀ ch ∈ b, ch ≠ sep)
    (h : a ++ sep :: x = b ++ sep :: y) : a = b ∧ x = y := by
  have key : ∀ (l rest : List Char), (∀ ch ∈ l, ch ≠ sep) → (l ++ sep :: rest).takeWhile (· ≠ sep) = l := by
    intro l rest hl
    rw [List.takeWhile_append_of_pos (by simpa using hl)]
    simp
  have hab : a = b := by rw [← key a x ha, h, key b y hb]
  subst hab
  exact ⟨rfl, by simpa using h⟩

/-- every character of a hex string is a hex digit -/
theorem hexLower_digit {bytes : List UInt8} {ch : Char} (h : ch ∈ (hexLower bytes).toList) : ∃ n < 16, ch = hexDigit n := by
  simp only [hexLower, String.toList_ofList] at h
  obtain ⟨b, _, hb⟩ := List.mem_flatMap.1 h
  have hlt := b.toNat_lt
  simp only [List.mem_cons, List.not_mem_nil, or_false] at hb
  rcases hb with rfl | rfl
  · exact ⟨_, by omega, rfl⟩
  · exact ⟨_, by omega, rfl⟩

theorem hexDigit_ne_underscore {n : ℕ} (h : n < 16) : hexDigit n ≠ '_' := by
  interval_cases n <;> decide

theorem hexDigit_ne_bar {n : ℕ} (h : n < 16) : hexDigit n ≠ '|' := by
  interval_cases n <;> decide

theorem jobDigest_no_underscore (jobId : String) : ∀ ch ∈ (jobDigest c jobId).toList, ch ≠ '_' := by
  intro ch hch
  simp only [jobDigest, firstChars, hashBytes, String.toList_ofList] at hch
  obtain ⟨n, hn, rfl⟩ := hexLower_digit (List.mem_of_mem_take hch)
  exact hexDigit_ne_underscore hn

theorem hashJson_no_bar (value : Payload) : ∀ ch ∈ (hashJson c value).toList, ch ≠ '|' := by
  intro ch hch
  obtain ⟨n, hn, rfl⟩ := hexLower_digit hch
  exact hexDigit_ne_bar hn

theorem bytesOf_inj {s t : String} (h : bytesOf s = bytesOf t) : s = t := by
  have hdata : s.toUTF8.data = t.toUTF8.data := Array.toList_inj.1 h
  exact String.toByteArray_inj.1 (ByteArray.ext hdata)

theorem inferenceAssignmentId_inj {j j' : String} {i i' : ℕ}
    (h : inferenceAssignmentId c j i = inferenceAssignmentId c j' i') : jobDigest c j = jobDigest c j' ∧ i = i' := by
  have hl := congrArg String.toList h
  simp only [inferenceAssignmentId, String.toList_append, List.append_assoc, List.append_cancel_left_eq] at hl
  obtain ⟨hd, hrest⟩ := append_sep_inj (jobDigest_no_underscore c j) (jobDigest_no_underscore c j') hl
  have hi : Nat.toDigits 10 i = Nat.toDigits 10 i' := by simpa using hrest
  refine ⟨String.toList_inj.1 hd, ?_⟩
  rw [← Nat.ofDigitChars_toDigits (b := 10) (n := i) (by decide) (by decide), hi,
    Nat.ofDigitChars_toDigits (by decide) (by decide)]

end

end Hocmesh.Protocol
