/-
A concrete `Crypto` to evaluate the model with.

The serializer and base64 are written out as the linked crates behave. SHA-256 and Ed25519 are replaced by stand-ins
with the same interface: a 32-byte digest that mixes every input byte, and a 64-byte signature that verifies exactly
under the key and message it was made for. General theorems quantify over every `Crypto` and never mention this one.
-/
import Hocmesh.Protocol.Crypto

namespace Hocmesh.Protocol.Sample

open Hocmesh.Base Hocmesh.Ledger

/-! ## JSON as `serde_json` writes it -/

/-- what a JSON document is here: its bytes -/
abbrev Bytes := List UInt8

def escapeByte (b : UInt8) : Bytes :=
  let n := b.toNat
  if 35 ≤ n ∧ n ≠ 92 then [b]
  else if n = 34 then [92, 34]
  else if n = 92 then [92, 92]
  else if 32 ≤ n then [b]
  else if n = 10 then [92, 110]
  else if n = 13 then [92, 114]
  else if n = 9 then [92, 116]
  else if n = 8 then [92, 98]
  else if n = 12 then [92, 102]
  else bytesOf "\\u00" ++ bytesOf (hexLower [b])

def quoted (text : Bytes) : Bytes := 34 :: text.flatMap escapeByte ++ [34]

def str (s : String) : Bytes := quoted (bytesOf s)

def nat (n : ℕ) : Bytes := bytesOf (toString n)

def int (n : ℤ) : Bytes := bytesOf (toString n)

def bool (b : Bool) : Bytes := bytesOf (if b then "true" else "false")

def opt {α : Type} (f : α → Bytes) : Option α → Bytes
  | some a => f a
  | none => bytesOf "null"

def commaSeparated : List Bytes → Bytes
  | [] => []
  | [x] => x
  | x :: rest => x ++ 44 :: commaSeparated rest

def arr (items : List Bytes) : Bytes := 91 :: commaSeparated items ++ [93]

def obj (fields : List (String × Bytes)) : Bytes :=
  123 :: commaSeparated (fields.map fun f => str f.1 ++ 58 :: f.2) ++ [125]

/-- an internally tagged enum variant -/
def tagged (kind : String) (fields : List (String × Bytes)) : Bytes := obj (("kind", str kind) :: fields)

def authJson (a : AuthProof) : Bytes :=
  obj [("node_id", str a.nodeId), ("timestamp", int a.timestamp), ("nonce_b64", str a.nonceB64),
    ("signature_b64", str a.signatureB64)]

def workJson : WorkSpec → Bytes
  | .primeCount start end_ => tagged "prime_count" [("start", nat start), ("end", nat end_)]
  | .matrixMultiply seedA seedB dim rowStart rowEnd =>
    tagged "matrix_multiply" [("seed_a", nat seedA), ("seed_b", nat seedB), ("dim", nat dim),
      ("row_start", nat rowStart), ("row_end", nat rowEnd)]
  | .collatzPeak start end_ => tagged "collatz_peak" [("start", nat start), ("end", nat end_)]

def resultJson : WorkResult → Bytes
  | .primeCount count bucketCounts durationMs =>
    tagged "prime_count" [("count", nat count), ("bucket_counts", arr (bucketCounts.map nat)),
      ("duration_ms", nat durationMs)]
  | .matrixMultiply rows durationMs =>
    tagged "matrix_multiply" [("rows", arr (rows.map nat)), ("duration_ms", nat durationMs)]
  | .collatzPeak peakSteps peakSeed bucketPeaks bucketSeeds durationMs =>
    tagged "collatz_peak" [("peak_steps", nat peakSteps), ("peak_seed", nat peakSeed),
      ("bucket_peaks", arr (bucketPeaks.map nat)), ("bucket_seeds", arr (bucketSeeds.map nat)),
      ("duration_ms", nat durationMs)]

def billingJson (b : InferenceBilling) : Bytes :=
  obj [("manifest_digest", str b.manifestDigest), ("parameter_count", nat b.parameterCount),
    ("total_size_bytes", nat b.totalSizeBytes), ("prompts_digest", str b.promptsDigest),
    ("prompt_bytes", arr (b.promptBytes.map nat)), ("max_tokens", nat b.maxTokens), ("max_cost_mcu", int b.maxCostMcu)]

def batchJson (b : PricedBatch) : Bytes :=
  obj [("batch_start", nat b.batchStart), ("batch_end", nat b.batchEnd), ("node_id", str b.nodeId)]

def signatureJson (s : ValidatorSignature) : Bytes :=
  obj [("validator_id", str s.validatorId), ("signature_b64", str s.signatureB64)]

def memberJson (m : ValidatorMember) : Bytes :=
  obj [("validator_id", str m.validatorId), ("url", str m.url), ("public_key_b64", str m.publicKeyB64)]

def setJson (s : ValidatorSet) : Bytes :=
  obj [("threshold", nat s.threshold), ("community_issuance_limit_mcu", int s.communityIssuanceLimitMcu),
    ("members", arr (s.members.map memberJson))]

def kindName : TransactionKind → String
  | .jobReserve => "job_reserve"
  | .communityReserve => "community_reserve"
  | .providerReward => "provider_reward"
  | .jobRefund => "job_refund"
  | .inferenceReserve => "inference_reserve"
  | .inferenceReceipt => "inference_receipt"
  | .inferenceReward => "inference_reward"
  | .inferenceDispute => "inference_dispute"
  | .inferenceExpiry => "inference_expiry"
  | .inferenceRefund => "inference_refund"
  | .membershipChange => "membership_change"

/-- the fields every claim on a batch starts with -/
def batchClaim (jobId assignmentId : String) (batchStart batchEnd : ℕ) : List (String × Bytes) :=
  [("job_id", str jobId), ("assignment_id", str assignmentId), ("batch_start", nat batchStart),
    ("batch_end", nat batchEnd)]

def evidenceJson : TransactionEvidence → Bytes
  | .jobReserve e => tagged "job_reserve" [("job_id", str e.jobId),
      ("requester_public_key_b64", str e.requesterPublicKeyB64), ("requester_auth", authJson e.requesterAuth),
      ("work", workJson e.work), ("shards", nat e.shards)]
  | .communityReserve e => tagged "community_reserve" [("job_id", str e.jobId), ("work", workJson e.work),
      ("shards", nat e.shards), ("sponsors", arr (e.sponsors.map signatureJson))]
  | .providerReward e => tagged "provider_reward" [("job_id", str e.jobId), ("assignment_id", str e.assignmentId),
      ("shard_index", nat e.shardIndex), ("reward_mcu", int e.rewardMcu),
      ("provider_public_key_b64", str e.providerPublicKeyB64), ("provider_auth", authJson e.providerAuth),
      ("work", workJson e.work), ("result", resultJson e.result), ("system_funded", bool e.systemFunded),
      ("provisional_audit_nonce", nat e.provisionalAuditNonce)]
  | .jobRefund e => tagged "job_refund" [("job_id", str e.jobId), ("assignment_id", str e.assignmentId),
      ("shard_index", nat e.shardIndex), ("refund_mcu", int e.refundMcu), ("work", workJson e.work),
      ("system_funded", bool e.systemFunded), ("requester_public_key_b64", opt str e.requesterPublicKeyB64),
      ("requester_auth", opt authJson e.requesterAuth)]
  | .inferenceReserve e => tagged "inference_reserve" [("job_id", str e.jobId),
      ("requester_public_key_b64", str e.requesterPublicKeyB64), ("requester_auth", authJson e.requesterAuth),
      ("billing", billingJson e.billing), ("settings_digest", str e.settingsDigest),
      ("batches", arr (e.batches.map batchJson))]
  | .inferenceReceipt e => tagged "inference_receipt" (batchClaim e.jobId e.assignmentId e.batchStart e.batchEnd ++
      [("price_mcu", int e.priceMcu), ("outputs_digest", str e.outputsDigest),
        ("requester_public_key_b64", str e.requesterPublicKeyB64), ("requester_auth", authJson e.requesterAuth)])
  | .inferenceReward e => tagged "inference_reward" (batchClaim e.jobId e.assignmentId e.batchStart e.batchEnd ++
      [("reward_mcu", int e.rewardMcu), ("outputs_digest", str e.outputsDigest),
        ("provider_public_key_b64", str e.providerPublicKeyB64), ("provider_auth", authJson e.providerAuth),
        ("requester_public_key_b64", str e.requesterPublicKeyB64),
        ("requester_acceptance", authJson e.requesterAcceptance)])
  | .inferenceDispute e => tagged "inference_dispute" (batchClaim e.jobId e.assignmentId e.batchStart e.batchEnd ++
      [("price_mcu", int e.priceMcu), ("outputs_digest", str e.outputsDigest), ("reason", str e.reason),
        ("requester_public_key_b64", str e.requesterPublicKeyB64), ("requester_auth", authJson e.requesterAuth)])
  | .inferenceExpiry e => tagged "inference_expiry" (batchClaim e.jobId e.assignmentId e.batchStart e.batchEnd ++
      [("price_mcu", int e.priceMcu), ("outputs_digest", str e.outputsDigest),
        ("requester_public_key_b64", str e.requesterPublicKeyB64), ("requester_receipt", authJson e.requesterReceipt)])
  | .inferenceRefund e => tagged "inference_refund" (batchClaim e.jobId e.assignmentId e.batchStart e.batchEnd ++
      [("refund_mcu", int e.refundMcu), ("requester_public_key_b64", str e.requesterPublicKeyB64),
        ("requester_auth", authJson e.requesterAuth)])
  | .membershipChange e => tagged "membership_change" [
      ("action", str (match e.action with | .join => "join" | .leave => "leave")), ("member", memberJson e.member),
      ("threshold", nat e.threshold), ("vouches", arr (e.vouches.map signatureJson)),
      ("resulting_set_hash", str e.resultingSetHash)]

def postingJson (p : Posting) : Bytes := obj [("account_id", str p.accountId), ("delta_mcu", int p.deltaMcu)]

def transactionJson (tx : LedgerTransaction) : Bytes :=
  obj [("transaction_id", str tx.transactionId), ("kind", str (kindName tx.kind)),
    ("postings", arr (tx.postings.map postingJson)), ("evidence", evidenceJson tx.evidence),
    ("created_at", int tx.createdAt)]

def recordJson (r : ReservationRecord) : Bytes :=
  arr [workJson r.work, nat r.shards, bool r.systemFunded, opt str r.requester, int r.reservedAt]

def inferenceRecordJson (r : InferenceRecord) : Bytes :=
  arr [billingJson r.billing, arr (r.batches.map batchJson), str r.requester, int r.reservedAt]

def payloadJson : Payload → Bytes
  | .validatorSet s => setJson s
  | .transaction tx => transactionJson tx
  | .transactions txs => arr (txs.map transactionJson)
  | .entry sequence previousHash txHash => arr [nat sequence, str previousHash, str txHash]
  | .submit work shards => arr [workJson work, nat shards]
  | .result id jobId shardIndex work rewardMcu systemFunded r =>
    arr [str id, str jobId, nat shardIndex, workJson work, int rewardMcu, bool systemFunded, resultJson r]
  | .refund tag id jobId shardIndex work refundMcu systemFunded =>
    arr [str tag, str id, str jobId, nat shardIndex, workJson work, int refundMcu, bool systemFunded]
  | .communityReserve jobId work shards costMcu => arr [str jobId, workJson work, nat shards, int costMcu]
  | .billing b => billingJson b
  | .inferenceSubmit tag billingHash settingsDigest => arr [str tag, str billingHash, str settingsDigest]
  | .inferenceBatch tag assignmentId jobId batchStart batchEnd amountMcu outputsDigest =>
    arr [str tag, str assignmentId, str jobId, nat batchStart, nat batchEnd, int amountMcu, str outputsDigest]
  | .inferenceRefund tag assignmentId jobId batchStart batchEnd refundMcu =>
    arr [str tag, str assignmentId, str jobId, nat batchStart, nat batchEnd, int refundMcu]
  | .state tag balances claims reservations inference activity =>
    arr [str tag, arr (balances.map fun r => arr [str r.1, int r.2]), arr (claims.map str),
      arr (reservations.map fun r => arr [str r.1, quoted (recordJson r.2)]),
      arr (inference.map fun r => arr [str r.1, quoted (inferenceRecordJson r.2)]),
      arr (activity.map fun r => arr [str r.1, arr [int r.2.1, int r.2.2]])]

/-! ## Base64 without padding -/

def digitChar (n : ℕ) : Char :=
  Char.ofNat (if n < 26 then 65 + n else if n < 52 then 71 + n else if n < 62 then n - 4 else if n = 62 then 43 else 47)

def byteDigit (b : UInt8) : Option ℕ :=
  let n := b.toNat
  if 65 ≤ n ∧ n ≤ 90 then some (n - 65)
  else if 97 ≤ n ∧ n ≤ 122 then some (n - 71)
  else if 48 ≤ n ∧ n ≤ 57 then some (n + 4)
  else if n = 43 then some 62
  else if n = 47 then some 63
  else none

def encodeBytes : List UInt8 → List Char
  | a :: b :: c :: rest =>
    let n := a.toNat * 65536 + b.toNat * 256 + c.toNat
    digitChar (n / 262144) :: digitChar (n / 4096 % 64) :: digitChar (n / 64 % 64) :: digitChar (n % 64) ::
      encodeBytes rest
  | [a, b] =>
    let n := a.toNat * 1024 + b.toNat * 4
    [digitChar (n / 4096), digitChar (n / 64 % 64), digitChar (n % 64)]
  | [a] => [digitChar (a.toNat / 4), digitChar (a.toNat * 16 % 64)]
  | [] => []

def encode (bytes : List UInt8) : String := String.ofList (encodeBytes bytes)

/-- groups of four characters; a last group of one, or with non-zero spare bits, is refused -/
def decodeDigits : List ℕ → Option (List UInt8)
  | a :: b :: c :: d :: rest =>
    let n := a * 262144 + b * 4096 + c * 64 + d
    (decodeDigits rest).map fun tail =>
      UInt8.ofNat (n / 65536) :: UInt8.ofNat (n / 256 % 256) :: UInt8.ofNat (n % 256) :: tail
  | [a, b, c] =>
    let n := a * 4096 + b * 64 + c
    if n % 4 = 0 then some [UInt8.ofNat (n / 1024), UInt8.ofNat (n / 4 % 256)] else none
  | [a, b] =>
    let n := a * 64 + b
    if n % 16 = 0 then some [UInt8.ofNat (n / 16)] else none
  | [_] => none
  | [] => some []

def decode (s : String) : Option (List UInt8) :=
  ((bytesOf s).mapM byteDigit).bind decodeDigits

/-! ## Stand-ins for SHA-256 and Ed25519 -/

def toBytes : (n : ℕ) → ℕ → List UInt8
  | 0, _ => []
  | k + 1, n => UInt8.ofNat (n % 256) :: toBytes k (n / 256)

def digest (bytes : List UInt8) : List UInt8 :=
  let acc := bytes.foldl (fun acc b => (acc * 257 + b.toNat + 1) % (2 ^ 256 - 189)) 7
  toBytes 32 (acc * 0x9E3779B97F4A7C15F39CC0605CEDC8341082276BF3A27251F86C6A11D0C18E95 % 2 ^ 256)

def signBytes (key message : List UInt8) : List UInt8 := digest (key ++ message) ++ digest (message ++ key)

def crypto : Crypto where
  sha256 := digest
  json := payloadJson
  decode := decode
  validKey := fun key => key.length = 32
  verify := fun key message signature => signature = signBytes key message

/-- the key pair number `n`: its public key, its node id, and what it signs -/
def publicKey (n : ℕ) : List UInt8 := List.replicate 32 (UInt8.ofNat n)

def publicKeyB64 (n : ℕ) : String := encode (publicKey n)

def nodeId (n : ℕ) : String := nodeIdFromPublicKey crypto (publicKey n)

def sign (n : ℕ) (message : String) : String := encode (signBytes (publicKey n) (bytesOf message))

/-- a request of node `n`, signed at a moment of its choosing -/
def authProof (n : ℕ) (timestamp : ℤ) (nonce action bodyHash : String) : AuthProof :=
  { nodeId := nodeId n, timestamp := timestamp, nonceB64 := nonce
    signatureB64 := sign n (canonicalAuthMessage action (nodeId n) timestamp nonce bodyHash) }

/-- validator number `n` as a member of a set -/
def member (n : ℕ) : ValidatorMember :=
  { validatorId := nodeId n, url := "http://validator-" ++ toString n, publicKeyB64 := publicKeyB64 n }

/-- validators `0 .. n - 1` with the smallest threshold above two thirds -/
def committee (n : ℕ) : ValidatorSet :=
  { threshold := 2 * n / 3 + 1, communityIssuanceLimitMcu := 1000000
    members := (List.range n).map member, limit_fits := by decide }

/-- the given validators' signatures over one message -/
def signatures (signers : List ℕ) (message : String) : List ValidatorSignature :=
  signers.map fun n => ⟨nodeId n, sign n message⟩

end Hocmesh.Protocol.Sample
