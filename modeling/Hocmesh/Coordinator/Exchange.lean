/-
An inference answer against its price (`hocmesh-coordinator/src/api.rs`): `report_inference`, `delivered_batch`,
`receipt_inference`, `settle_inference` and `inference_status`, with a quorum.

A provider's answer is kept until its requester signs a receipt for it; the receipt moves the batch's price out of the
job's escrow, and only then is the text handed over. Every handler reads the row in one statement and writes it in
another, with the ledger in between, and the writes do not ask again what was read: a request is an act that passes its
checks and leaves a `Flight`, and an act that lands it. Acts come in any order. A flight that never lands is a handler
that stopped.

`exchange_fair`: no text leaves the coordinator before the chain holds a receipt for its batch, signed by the requester,
that moves the price of the batch, and the escrow of that batch is not refunded; no verdict is proposed on a batch that was
not taken, at another price or to another account.

Two reports of one batch can both have passed their check of `leased` before either is written. Then the text that is
read out later is not the text that the receipt was signed over.

`mode` is quorum. `consume_nonce` and the sweep of unjudged batches are left out: neither hands anything over.
-/
import Hocmesh.Base.Along
import Hocmesh.Ai.Submit
import Hocmesh.Coordinator.Auth
import Hocmesh.Coordinator.Outcomes

namespace Hocmesh.Coordinator.Exchange

open Hocmesh.Base Hocmesh.Protocol Hocmesh.Compute Hocmesh.Ledger Hocmesh.Ai
open Hocmesh.Coordinator.Failover (AiStatus AiJob)

/-! ## Tables -/

structure PromptOutput where
  promptIndex : ℕ
  text : String
  outputSha256 : String
  durationMs : ℕ
deriving DecidableEq

structure ReportInferenceRequest where
  auth : AuthProof
  assignmentId : String
  jobId : String
  batchStart : ℕ
  batchEnd : ℕ
  rewardMcu : ℤ
  outputs : List PromptOutput
deriving DecidableEq

/-- the columns `report_json`, `outputs_json` and `outputs_digest`, which one update writes -/
structure Delivery where
  report : ReportInferenceRequest
  outputsDigest : String

/-- a row of `ai_assignments` -/
structure Row where
  assignmentId : String
  jobId : String
  assignedNodeId : String
  assignment : InferenceAssignment
  status : AiStatus
  delivered : Option Delivery
  receipted : Bool
  settled : Option Verdict

/-- what a request goes on to do once it has passed its checks -/
inductive Flight where
  | report (r : ReportInferenceRequest)
  /-- a receipt before the ledger, and the answer it is for -/
  | receipt (tx : LedgerTransaction) (assignmentId jobId : String) (outputs : List PromptOutput)
  /-- a verdict before the ledger -/
  | settle (tx : LedgerTransaction) (assignmentId : String) (accepted : Bool)
deriving DecidableEq

/-- the text in a response, and the job it is of -/
structure Answer where
  jobId : String
  outputs : List PromptOutput

structure Counter where
  /-- the public keys of `nodes` -/
  keys : List (String × String)
  jobs : List AiJob
  rows : List Row
  /-- every certified transaction, oldest first -/
  chain : List LedgerTransaction
  flights : List Flight
  /-- every report that was written to a row -/
  reports : List ReportInferenceRequest
  /-- every response with text in it -/
  answers : List Answer

def Counter.opened : Counter := ⟨[], [], [], [], [], [], []⟩

def Counter.key (x : Counter) (nodeId : String) : Option String :=
  (x.keys.find? fun k => k.1 = nodeId).map (·.2)

def Counter.requester (x : Counter) (jobId : String) : Option String :=
  (x.jobs.find? fun j => j.jobId = jobId).map (·.requester)

def Counter.update (x : Counter) (assignmentId : String) (g : Row → Row) : Counter :=
  { x with rows := x.rows.map fun a => if a.assignmentId = assignmentId then g a else a }

def Counter.launch (x : Counter) (f : Flight) : Counter := { x with flights := x.flights ++ [f] }

def Counter.say (x : Counter) (answer : Answer) : Counter := { x with answers := x.answers ++ [answer] }

/-- everything a settlement needs about one delivered batch -/
structure DeliveredBatch where
  jobId : String
  requester : String
  report : ReportInferenceRequest
  outputsDigest : String
  providerPk : String
  requesterPk : String
  receipted : Bool
  settled : Option Verdict

def Counter.deliveredBatch (x : Counter) (assignmentId : String) : Check DeliveredBatch := do
  let row ← orBail (x.rows.find? fun a => a.assignmentId = assignmentId) "AI assignment not found"
  let delivery ← orBail row.delivered "this batch has not been delivered yet"
  let requester ← orBail (x.requester row.jobId) "Query returned no rows"
  let requesterPk ← orBail (x.key requester) "Query returned no rows"
  let providerPk ← orBail (x.key delivery.report.auth.nodeId) "Query returned no rows"
  pure ⟨row.jobId, requester, delivery.report, delivery.outputsDigest, providerPk, requesterPk, row.receipted, row.settled⟩

/-! ## Handlers -/

section

/- `digest` is `hash_json` of a list of outputs -/
variable (c : Crypto) (digest : List PromptOutput → String)

/-- `authenticate_known_node`, up to the nonce -/
def Counter.authenticate (x : Counter) (now : ℤ) (auth : AuthProof) (action bodyHash : String) : Check Unit := do
  let pk ← orBail (x.key auth.nodeId) "node is not registered"
  verifyAuth c now pk auth action bodyHash

def PromptOutput.validate (o : PromptOutput) : Check Unit :=
  bailIf (hashBytes c (bytesOf o.text) ≠ o.outputSha256) "output digest mismatch"

def reportInferenceBodyHash (r : ReportInferenceRequest) : String :=
  inferenceRewardBodyHash c r.assignmentId r.jobId r.batchStart r.batchEnd r.rewardMcu (digest r.outputs)

/-- `report_inference` up to its update -/
def Counter.reportInference (x : Counter) (now : ℤ) (r : ReportInferenceRequest) : Check Flight := do
  bailIf (r.outputs = []) "outputs are empty"
  each (PromptOutput.validate c) r.outputs
  x.authenticate c now r.auth "report_inference" (reportInferenceBodyHash c digest r)
  let row ← orBail (x.rows.find? fun a => a.assignmentId = r.assignmentId ∧ a.assignedNodeId = r.auth.nodeId)
    "AI assignment not found"
  bailIf (row.status ≠ .leased) "AI assignment is not leased to this node"
  let expected : Finset ℕ := (row.assignment.prompts.map (·.1)).toFinset
  let actual : Finset ℕ := (r.outputs.map (·.promptIndex)).toFinset
  bailIf (actual ≠ expected ∨ actual.card ≠ r.outputs.length) "output indexes do not match the assignment"
  let claim ← orBail (assignmentClaim row.assignment) "this assignment carries no priceable batch"
  bailIf (r.jobId ≠ row.jobId ∨ (r.batchStart, r.batchEnd, r.rewardMcu) ≠ claim)
    "the signed claim does not match the assignment it names"
  let requester ← orBail (x.requester row.jobId) "Query returned no rows"
  bailIf (requester = r.auth.nodeId) "requester cannot receive a reward from its own paid job"
  pure (.report r)

/-- the receipt a requester's signature makes of a delivered batch -/
def receiptEvidence (b : DeliveredBatch) (assignmentId : String) (auth : AuthProof) : InferenceReceiptEvidence where
  jobId := b.jobId
  assignmentId := assignmentId
  batchStart := b.report.batchStart
  batchEnd := b.report.batchEnd
  priceMcu := b.report.rewardMcu
  outputsDigest := b.outputsDigest
  requesterPublicKeyB64 := b.requesterPk
  requesterAuth := auth

def receiptTransaction (e : InferenceReceiptEvidence) (now : ℤ) : LedgerTransaction where
  transactionId := "receipt_" ++ e.assignmentId
  kind := .inferenceReceipt
  postings := [⟨escrowAccount e.jobId, -e.priceMcu⟩, ⟨inferenceHoldingAccount e.assignmentId, e.priceMcu⟩]
  evidence := .inferenceReceipt e
  createdAt := now

/-- `receipt_inference`: the answer where the batch is receipted already, else the receipt it proposes first -/
def Counter.receiptInference (x : Counter) (now : ℤ) (auth : AuthProof) (assignmentId : String) :
    Check (Answer ⊕ Flight) := do
  let b ← x.deliveredBatch assignmentId
  bailIf (b.requester ≠ auth.nodeId) "only the requester that funded a batch can take delivery of it"
  x.authenticate c now auth "receipt_inference"
    (inferenceReceiptBodyHash c assignmentId b.jobId b.report.batchStart b.report.batchEnd b.report.rewardMcu
      b.outputsDigest)
  if b.receipted then pure (.inl ⟨b.jobId, b.report.outputs⟩)
  else pure (.inr (.receipt (receiptTransaction (receiptEvidence b assignmentId auth) now) assignmentId b.jobId
    b.report.outputs))

/-- the verdict a requester signs for a delivered batch, as the ledger will hold it -/
def settleEvidence (b : DeliveredBatch) (assignmentId : String) (auth : AuthProof) (accepted : Bool) (reason : String) :
    TransactionEvidence :=
  if accepted then
    .inferenceReward
      { jobId := b.jobId, assignmentId, batchStart := b.report.batchStart, batchEnd := b.report.batchEnd
        rewardMcu := b.report.rewardMcu, outputsDigest := b.outputsDigest, providerPublicKeyB64 := b.providerPk
        providerAuth := b.report.auth, requesterPublicKeyB64 := b.requesterPk, requesterAcceptance := auth }
  else
    .inferenceDispute
      { jobId := b.jobId, assignmentId, batchStart := b.report.batchStart, batchEnd := b.report.batchEnd
        priceMcu := b.report.rewardMcu, outputsDigest := b.outputsDigest, reason
        requesterPublicKeyB64 := b.requesterPk, requesterAuth := auth }

def settleTransaction (b : DeliveredBatch) (assignmentId : String) (auth : AuthProof) (accepted : Bool)
    (reason : String) (now : ℤ) : LedgerTransaction where
  transactionId := "settle_" ++ assignmentId
  kind := if accepted then .inferenceReward else .inferenceDispute
  postings :=
    [⟨inferenceHoldingAccount assignmentId, -b.report.rewardMcu⟩,
      ⟨if accepted then b.report.auth.nodeId else communityIssuanceAccount, b.report.rewardMcu⟩]
  evidence := settleEvidence b assignmentId auth accepted reason
  createdAt := now

def verdictText : Verdict → String
  | .paid => "paid"
  | .disputed => "disputed"
  | .expired => "expired"

/-- `settle_inference` up to its proposal -/
def Counter.settleInference (x : Counter) (now : ℤ) (auth : AuthProof) (assignmentId : String) (accepted : Bool)
    (reason : String) : Check Flight := do
  let b ← x.deliveredBatch assignmentId
  bailIf (b.requester ≠ auth.nodeId) "only the requester that funded a batch can settle it"
  bailIf (b.receipted = false) "take delivery of this batch before settling it"
  each (fun v => .error ("this batch was already settled as " ++ verdictText v)) b.settled.toList
  x.authenticate c now auth (if accepted then "accept_inference" else "dispute_inference")
    (inferenceVerdictBodyHash c accepted assignmentId b.jobId b.report.batchStart b.report.batchEnd b.report.rewardMcu
      b.outputsDigest)
  pure (.settle (settleTransaction b assignmentId auth accepted reason now) assignmentId accepted)

/-- the outputs `inference_status` reads out, by prompt -/
def Counter.inferenceStatus (x : Counter) (jobId : String) : Check (List PromptOutput) := do
  let _ ← orBail (x.requester jobId) "AI job not found"
  let rows := x.rows.filter fun a => a.jobId = jobId ∧ a.receipted = true
  pure ((rows.flatMap fun a => (a.delivered.map (·.report.outputs)).getD []).mergeSort
    fun o o' => o.promptIndex ≤ o'.promptIndex)

/-! ## Acts -/

inductive Act where
  | register (nodeId publicKeyB64 : String)
  /-- a job and its batches, each with the node it is assigned to -/
  | submit (job : AiJob) (batches : List (String × InferenceAssignment))
  | finalize (jobId : String)
  | lease (assignmentId : String)
  | expire (assignmentIds : List String)
  /-- `fail_inference`, as it is written -/
  | reroute (assignmentId nodeId deviceId : String)
  /-- `refund_inference`, as it is written -/
  | refund (assignmentId : String)
  | report (now : ℤ) (r : ReportInferenceRequest)
  | receipt (now : ℤ) (auth : AuthProof) (assignmentId : String)
  | settle (now : ℤ) (auth : AuthProof) (assignmentId : String) (accepted : Bool) (reason : String)
  | status (jobId : String)
  /-- the quorum certifies a transaction, whoever proposed it -/
  | certify (tx : LedgerTransaction)
  /-- a request goes on: its proposal is on the chain, and its write is made -/
  | land (f : Flight)

/-- the writes of a request, and its response -/
def Counter.write (x : Counter) : Flight → Counter
  | .report r =>
    { x.update r.assignmentId fun a => { a with status := .completed, delivered := some ⟨r, digest r.outputs⟩ } with
      reports := x.reports ++ [r] }
  | .receipt tx id jobId outputs =>
    if tx ∈ x.chain then (x.update id fun a => { a with receipted := true }).say ⟨jobId, outputs⟩ else x
  | .settle tx id accepted =>
    if tx ∈ x.chain then
      x.update id fun a => { a with settled := a.settled.or (some (if accepted then .paid else .disputed)) }
    else x

def batchRow (job : AiJob) (b : String × InferenceAssignment) : Row :=
  ⟨b.2.assignmentId, job.jobId, b.1, b.2, .blocked, none, false, none⟩

def Counter.step (x : Counter) : Act → Counter
  | .register nodeId pk => if (x.key nodeId).isSome then x else { x with keys := x.keys ++ [(nodeId, pk)] }
  | .submit job batches =>
    let rows := batches.map (batchRow job)
    if (x.requester job.jobId).isSome ∨ ¬ ((x.rows ++ rows).map (·.assignmentId)).Nodup then x
    else { x with jobs := x.jobs ++ [job], rows := x.rows ++ rows }
  | .finalize jobId =>
    { x with rows := x.rows.map fun a =>
        if a.jobId = jobId ∧ a.status = .blocked then { a with status := .pending } else a }
  | .lease id => x.update id fun a => if a.status = .pending then { a with status := .leased } else a
  | .expire ids =>
    { x with rows := x.rows.map fun a =>
        if a.assignmentId ∈ ids ∧ a.status = .leased then { a with status := .pending } else a }
  | .reroute id nodeId deviceId =>
    x.update id fun a =>
      { a with assignedNodeId := nodeId, assignment := { a.assignment with deviceId := deviceId }, status := .pending }
  | .refund id => x.update id fun a => { a with status := .refunded }
  | .report now r =>
    match x.reportInference c digest now r with
    | .error _ => x
    | .ok f => x.launch f
  | .receipt now auth id =>
    match x.receiptInference c now auth id with
    | .error _ => x
    | .ok (.inl answer) => x.say answer
    | .ok (.inr f) => x.launch f
  | .settle now auth id accepted reason =>
    match x.settleInference c now auth id accepted reason with
    | .error _ => x
    | .ok f => x.launch f
  | .status jobId =>
    match x.inferenceStatus jobId with
    | .error _ => x
    | .ok outputs => x.say ⟨jobId, outputs⟩
  | .certify tx => if ∃ t ∈ x.chain, claimKey t = claimKey tx then x else { x with chain := x.chain ++ [tx] }
  | .land f => if f ∈ x.flights then { x with flights := x.flights.erase f }.write digest f else x

def Counter.run (acts : List Act) : Counter := acts.foldl (Counter.step c digest) .opened

end

/-! ## What the handlers read -/

/-- the claim of a report is the one the row's assignment implies -/
structure Row.Fits (a : Row) (r : ReportInferenceRequest) : Prop where
  id : a.assignmentId = r.assignmentId
  job : a.jobId = r.jobId
  claim : assignmentClaim a.assignment = some (r.batchStart, r.batchEnd, r.rewardMcu)

section

variable {c : Crypto} {digest : List PromptOutput → String} {x x' : Counter}

theorem row_of_find {id : String} {a : Row} {p : Row → Bool} (h : x.rows.find? p = some a)
    (hp : ∀ a, p a = true → a.assignmentId = id) : a ∈ x.rows ∧ a.assignmentId = id :=
  ⟨List.mem_of_find?_eq_some h, hp a (List.find?_some h)⟩

/-- a report that passes fits the batch it names -/
theorem reportInference_ok {now : ℤ} {r : ReportInferenceRequest} {f : Flight}
    (h : x.reportInference c digest now r = .ok f) : f = .report r ∧ ∃ a ∈ x.rows, a.Fits r := by
  simp only [Counter.reportInference, bind_ok, exists_ok_unit_and, bailIf_ok, exists_const, orBail_ok, pure_ok, not_or,
    not_not] at h
  obtain ⟨_, _, _, a, ha, _, _, claim, hclaim, ⟨hjob, hsame⟩, _, _, _, rfl⟩ := h
  obtain ⟨hin, hid⟩ : a ∈ x.rows ∧ a.assignmentId = r.assignmentId := row_of_find ha (by simp +contextual)
  exact ⟨rfl, a, hin, hid, hjob.symm, hsame ▸ hclaim⟩

theorem deliveredBatch_ok {id : String} {b : DeliveredBatch} (h : x.deliveredBatch id = .ok b) :
    ∃ a ∈ x.rows, a.assignmentId = id ∧ (∃ d, a.delivered = some d ∧ b.report = d.report ∧
      b.outputsDigest = d.outputsDigest) ∧ b.jobId = a.jobId ∧ b.receipted = a.receipted ∧
      x.requester b.jobId = some b.requester ∧ x.key b.requester = some b.requesterPk := by
  simp only [Counter.deliveredBatch, bind_ok, orBail_ok, pure_ok] at h
  obtain ⟨a, ha, d, hd, requester, hrequester, pk, hpk, _, _, rfl⟩ := h
  obtain ⟨hin, hid⟩ : a ∈ x.rows ∧ a.assignmentId = id := row_of_find ha (by simp +contextual)
  exact ⟨a, hin, hid, ⟨d, hd, rfl, rfl⟩, rfl, rfl, hrequester, hpk⟩

/-! ## Receipts -/

variable (c digest) in
/-- a transaction is the receipt of a report: its requester's signature over that text, against the price of the batch -/
structure Counter.Receipts (x : Counter) (tx : LedgerTransaction) (e : InferenceReceiptEvidence)
    (r : ReportInferenceRequest) : Prop where
  evidence : tx.evidence = .inferenceReceipt e
  moves : Moves tx (escrowAccount e.jobId) (inferenceHoldingAccount e.assignmentId) e.priceMcu
  reported : r ∈ x.reports
  planned : ∃ a ∈ x.rows, a.Fits r
  id : e.assignmentId = r.assignmentId
  job : e.jobId = r.jobId
  bounds : e.batchStart = r.batchStart ∧ e.batchEnd = r.batchEnd
  price : e.priceMcu = r.rewardMcu
  text : e.outputsDigest = digest r.outputs
  requester : x.requester e.jobId = some e.requesterAuth.nodeId
  signed : verifyReceiptAuth c e = .ok ()

/-- job, assignment, batch, price and text that a verdict is about -/
def judged : TransactionEvidence → Option (String × String × ℕ × ℕ × ℤ × String)
  | .inferenceReward v => some (v.jobId, v.assignmentId, v.batchStart, v.batchEnd, v.rewardMcu, v.outputsDigest)
  | .inferenceDispute v => some (v.jobId, v.assignmentId, v.batchStart, v.batchEnd, v.priceMcu, v.outputsDigest)
  | _ => none

/-- no other report of its batch was written -/
def Counter.Sole (x : Counter) (r : ReportInferenceRequest) : Prop :=
  ∀ sent ∈ x.reports, sent.assignmentId = r.assignmentId → sent = r

/-- a row as far as an exchange reads it -/
structure Row.Same (a a' : Row) : Prop where
  id : a'.assignmentId = a.assignmentId
  job : a'.jobId = a.jobId
  claim : assignmentClaim a'.assignment = assignmentClaim a.assignment
  delivered : a'.delivered = a.delivered
  receipted : a'.receipted = a.receipted

theorem Row.Same.refl (a : Row) : a.Same a := ⟨rfl, rfl, rfl, rfl, rfl⟩

theorem Row.Fits.of_same {a a' : Row} {r : ReportInferenceRequest} (h : a.Fits r) (hid : a'.assignmentId = a.assignmentId)
    (hjob : a'.jobId = a.jobId) (hclaim : assignmentClaim a'.assignment = assignmentClaim a.assignment) : a'.Fits r :=
  ⟨hid.trans h.id, hjob.trans h.job, hclaim.trans h.claim⟩

/-- nothing that an exchange has established is taken back -/
structure Counter.Grows (x x' : Counter) : Prop where
  chain : ∀ tx ∈ x.chain, tx ∈ x'.chain
  reports : ∀ r ∈ x.reports, r ∈ x'.reports
  rows : ∀ a ∈ x.rows, ∀ r, a.Fits r → ∃ a' ∈ x'.rows, a'.Fits r
  requester : ∀ jobId nodeId, x.requester jobId = some nodeId → x'.requester jobId = some nodeId

theorem Counter.Receipts.mono {tx : LedgerTransaction} {e : InferenceReceiptEvidence} {r : ReportInferenceRequest}
    (h : x.Receipts c digest tx e r) (hg : x.Grows x') : x'.Receipts c digest tx e r :=
  { h with
    reported := hg.reports r h.reported
    planned := by
      obtain ⟨a, ha, hfits⟩ := h.planned
      exact hg.rows a ha r hfits
    requester := hg.requester _ _ h.requester }

theorem Counter.Sole.of_grows {r : ReportInferenceRequest} (h : x'.Sole r) (hg : x.Grows x') : x.Sole r :=
  fun sent hsent => h sent (hg.reports sent hsent)

variable (c digest) in
/-- the chain holds a receipt for a batch of the job whose provider sent this output -/
def Counter.PaidFor (x : Counter) (jobId : String) (o : PromptOutput) : Prop :=
  ∃ tx ∈ x.chain, ∃ e r, x.Receipts c digest tx e r ∧ e.jobId = jobId ∧
    ∃ sent ∈ x.reports, sent.assignmentId = e.assignmentId ∧ sent.batchStart = e.batchStart ∧ sent.batchEnd = e.batchEnd ∧
      o ∈ sent.outputs

variable (c) in
/-- the requester of a receipted batch signed this verdict on it, at the price of the receipt and, unless the batch was
reported twice, over the text of the receipt -/
structure Counter.Judges (x : Counter) (tx : LedgerTransaction) (accepted : Bool) (e : InferenceReceiptEvidence)
    (r : ReportInferenceRequest) (pk : String) (auth : AuthProof) (text payee : String) : Prop where
  evidence : judged tx.evidence = some (e.jobId, e.assignmentId, e.batchStart, e.batchEnd, e.priceMcu, text)
  receipted : x.Sole r → text = e.outputsDigest
  requester : x.requester e.jobId = some auth.nodeId
  signed : verifyAuthSignature c pk auth (if accepted then "accept_inference" else "dispute_inference")
    (inferenceVerdictBodyHash c accepted e.assignmentId e.jobId e.batchStart e.batchEnd e.priceMcu text) = .ok ()
  moves : Moves tx (inferenceHoldingAccount e.assignmentId) payee e.priceMcu
  pays : accepted = true → ∃ sent ∈ x.reports, sent.assignmentId = e.assignmentId ∧ sent.auth.nodeId = payee
  returns : accepted = false → payee = communityIssuanceAccount

variable (c digest) in
/-- a verdict is on a batch whose receipt is on the chain -/
def Counter.Judged (x : Counter) (tx : LedgerTransaction) (assignmentId : String) (accepted : Bool) : Prop :=
  ∃ receipt ∈ x.chain, ∃ e r, x.Receipts c digest receipt e r ∧ e.assignmentId = assignmentId ∧
    ∃ pk auth text payee, x.Judges c tx accepted e r pk auth text payee

theorem Counter.Judged.mono {tx : LedgerTransaction} {id : String} {accepted : Bool}
    (h : x.Judged c digest tx id accepted) (hg : x.Grows x') : x'.Judged c digest tx id accepted := by
  obtain ⟨receipt, hin, e, r, hr, hid, pk, auth, text, payee, hj⟩ := h
  refine ⟨receipt, hg.chain _ hin, e, r, hr.mono hg, hid, pk, auth, text, payee, ?_⟩
  refine { hj with
    receipted := fun hs => hj.receipted (hs.of_grows hg)
    requester := hg.requester _ _ hj.requester
    pays := fun ha => ?_ }
  obtain ⟨sent, hsent, hrest⟩ := hj.pays ha
  exact ⟨sent, hg.reports _ hsent, hrest⟩

theorem Counter.PaidFor.mono {jobId : String} {o : PromptOutput} (h : x.PaidFor c digest jobId o) (hg : x.Grows x') :
    x'.PaidFor c digest jobId o := by
  obtain ⟨tx, htx, e, r, hr, hjob, sent, hsent, hrest⟩ := h
  exact ⟨tx, hg.chain tx htx, e, r, hr.mono hg, hjob, sent, hg.reports sent hsent, hrest⟩

variable (c digest) in
/-- what a request has established before it goes on -/
def Counter.FlightOk (x : Counter) : Flight → Prop
  | .report r => ∃ a ∈ x.rows, a.Fits r
  | .receipt tx id jobId outputs => ∃ e r, x.Receipts c digest tx e r ∧ e.assignmentId = id ∧ e.jobId = jobId ∧
      r.outputs = outputs
  | .settle tx id accepted => x.Judged c digest tx id accepted

theorem Counter.FlightOk.mono {f : Flight} (h : x.FlightOk c digest f) (hg : x.Grows x') : x'.FlightOk c digest f := by
  cases f with
  | report r =>
    obtain ⟨a, ha, hfits⟩ := h
    exact hg.rows a ha r hfits
  | receipt tx id jobId outputs =>
    obtain ⟨e, r, hr, hrest⟩ := h
    exact ⟨e, r, hr.mono hg, hrest⟩
  | settle tx id accepted => exact Counter.Judged.mono h hg

variable (c digest) in
/-- what a row says about a delivery is so, and `receipted` is written after the receipt is certified -/
structure Counter.RowOk (x : Counter) (a : Row) : Prop where
  delivered : ∀ d, a.delivered = some d → d.report ∈ x.reports ∧ a.Fits d.report ∧
    d.outputsDigest = digest d.report.outputs
  receipted : a.receipted = true → ∃ tx ∈ x.chain, ∃ e r, x.Receipts c digest tx e r ∧
    e.assignmentId = a.assignmentId ∧ e.jobId = a.jobId

theorem Counter.RowOk.mono {a a' : Row} (h : x.RowOk c digest a) (hsame : a.Same a') (hg : x.Grows x') :
    x'.RowOk c digest a' where
  delivered d hd := by
    obtain ⟨hreport, hfits, hdigest⟩ := h.delivered d (hsame.delivered ▸ hd)
    exact ⟨hg.reports _ hreport, hfits.of_same hsame.id hsame.job hsame.claim, hdigest⟩
  receipted ha := by
    obtain ⟨tx, htx, e, r, hr, hid, hjob⟩ := h.receipted (hsame.receipted ▸ ha)
    exact ⟨tx, hg.chain tx htx, e, r, hr.mono hg, hid.trans hsame.id.symm, hjob.trans hsame.job.symm⟩

/-! ## The invariant -/

variable (c digest) in
structure Counter.Inv (x : Counter) : Prop where
  ids : (x.rows.map (·.assignmentId)).Nodup
  flights : ∀ f ∈ x.flights, x.FlightOk c digest f
  rows : ∀ a ∈ x.rows, x.RowOk c digest a
  answers : ∀ answer ∈ x.answers, ∀ o ∈ answer.outputs, x.PaidFor c digest answer.jobId o
  apart : x.chain.Pairwise fun tx tx' => claimKey tx ≠ claimKey tx'

/-- what one act has to show -/
theorem Counter.Inv.of_grows (h : x.Inv c digest) (hg : x.Grows x') (hids : (x'.rows.map (·.assignmentId)).Nodup)
    (hflights : ∀ f ∈ x'.flights, f ∈ x.flights ∨ x'.FlightOk c digest f)
    (hrows : ∀ a' ∈ x'.rows, (∃ a ∈ x.rows, a.Same a') ∨ x'.RowOk c digest a')
    (hanswers : ∀ answer ∈ x'.answers, answer ∈ x.answers ∨ ∀ o ∈ answer.outputs, x'.PaidFor c digest answer.jobId o)
    (hapart : x'.chain.Pairwise fun tx tx' => claimKey tx ≠ claimKey tx') : x'.Inv c digest where
  ids := hids
  flights f hf := by
    rcases hflights f hf with hold | hnew
    · exact (h.flights f hold).mono hg
    · exact hnew
  rows a' ha' := by
    rcases hrows a' ha' with ⟨a, ha, hsame⟩ | hnew
    · exact (h.rows a ha).mono hsame hg
    · exact hnew
  answers answer ha o ho := by
    rcases hanswers answer ha with hold | hnew
    · exact (h.answers answer hold o ho).mono hg
    · exact hnew o ho
  apart := hapart

/-- two rows with one id are one row -/
theorem Counter.Inv.same_row (h : x.Inv c digest) {a a' : Row} (ha : a ∈ x.rows) (ha' : a' ∈ x.rows)
    (hid : a.assignmentId = a'.assignmentId) : a = a' := List.inj_on_of_nodup_map h.ids ha ha' hid

/-- an act that only rewrites what an exchange does not read -/
theorem Counter.Inv.rewrite (h : x.Inv c digest) {g : Row → Row} (hg : ∀ a ∈ x.rows, a.Same (g a)) :
    ({ x with rows := x.rows.map g } : Counter).Inv c digest := by
  have hids : ((x.rows.map g).map (·.assignmentId)) = x.rows.map (·.assignmentId) := by
    rw [List.map_map]
    exact List.map_congr_left fun a ha => (hg a ha).id
  refine h.of_grows ⟨fun _ => id, fun _ => id, ?_, fun _ _ => id⟩ (hids ▸ h.ids) (fun f => Or.inl) ?_ (fun _ => Or.inl)
    h.apart
  · intro a ha r hfits
    exact ⟨g a, List.mem_map_of_mem ha, hfits.of_same (hg a ha).id (hg a ha).job (hg a ha).claim⟩
  · intro a' ha'
    obtain ⟨a, ha, rfl⟩ := List.mem_map.1 ha'
    exact Or.inl ⟨a, ha, hg a ha⟩

/-! ## Requests -/

theorem Counter.receiptInference_ok (h : x.Inv c digest) {now : ℤ} {auth : AuthProof} {id : String}
    {r : Answer ⊕ Flight} (hr : x.receiptInference c now auth id = .ok r) :
    ∃ a ∈ x.rows, a.assignmentId = id ∧ ∃ d, a.delivered = some d ∧
      ((a.receipted = true ∧ r = .inl ⟨a.jobId, d.report.outputs⟩) ∨
        (a.receipted = false ∧ ∃ e, x.Receipts c digest (receiptTransaction e now) e d.report ∧ e.assignmentId = id ∧
          e.jobId = a.jobId ∧ r = .inr (.receipt (receiptTransaction e now) id a.jobId d.report.outputs))) := by
  simp only [Counter.receiptInference, Counter.authenticate, bind_ok, bailIf_ok, orBail_ok, not_not] at hr
  obtain ⟨b, hb, _, hnode, _, ⟨pk, hpk, hauth⟩, hr⟩ := hr
  obtain ⟨a, ha, hid, ⟨d, hd, hreport, hdigest⟩, hjob, hreceipted, hrequester, hkey⟩ := deliveredBatch_ok hb
  obtain ⟨hsent, hfits, htext⟩ := (h.rows a ha).delivered d hd
  refine ⟨a, ha, hid, d, hd, ?_⟩
  rw [hreceipted, hjob, hreport] at hr
  cases hc : a.receipted with
  | true =>
    rw [hc, if_pos rfl, pure_ok] at hr
    exact Or.inl ⟨rfl, hr.symm⟩
  | false =>
    rw [hc, if_neg Bool.false_ne_true, pure_ok] at hr
    have hsame : pk = b.requesterPk := Option.some.inj (hpk.symm.trans (hnode ▸ hkey))
    refine Or.inr ⟨rfl, receiptEvidence b id auth, ⟨rfl, ?_, hsent, ⟨a, ha, hfits⟩, ?_, ?_, ?_, ?_, ?_, ?_, ?_⟩, rfl, hjob,
      hr.symm⟩
    · simp [Moves, receiptTransaction]
    · exact hid.symm.trans hfits.id
    · exact hjob.trans hfits.job
    · exact ⟨congrArg (·.batchStart) hreport, congrArg (·.batchEnd) hreport⟩
    · exact congrArg (·.rewardMcu) hreport
    · exact hdigest.trans htext
    · exact hnode ▸ hrequester
    · rw [hsame, verifyAuth] at hauth
      simp only [bind_ok, bailIf_ok, exists_const] at hauth
      exact hauth.2.2

/-- a receipted row has the receipt of the batch that its report is of -/
theorem Counter.Inv.receipt_of (h : x.Inv c digest) {a : Row} (ha : a ∈ x.rows) {d : Delivery} (hd : a.delivered = some d)
    (hr : a.receipted = true) : ∃ tx ∈ x.chain, ∃ e r, x.Receipts c digest tx e r ∧ e.assignmentId = a.assignmentId ∧
      e.jobId = a.jobId ∧ d.report.batchStart = e.batchStart ∧ d.report.batchEnd = e.batchEnd ∧
      d.report.rewardMcu = e.priceMcu := by
  obtain ⟨tx, htx, e, r, hrec, hid, hjob⟩ := (h.rows a ha).receipted hr
  -- the receipt's own report was planned for the row of that id, which is this one
  obtain ⟨a', ha', hfits'⟩ := hrec.planned
  have hrow : a' = a := h.same_row ha' ha (hfits'.id.trans (hrec.id.symm.trans hid))
  have hfits : a.Fits d.report := ((h.rows a ha).delivered d hd).2.1
  have hclaim : (r.batchStart, r.batchEnd, r.rewardMcu) = (d.report.batchStart, d.report.batchEnd, d.report.rewardMcu) :=
    Option.some.inj (hfits'.claim.symm.trans (hrow ▸ hfits.claim))
  obtain ⟨hstart, hrest⟩ := Prod.mk.inj hclaim
  obtain ⟨hend, hprice⟩ := Prod.mk.inj hrest
  exact ⟨tx, htx, e, r, hrec, hid, hjob, hstart.symm.trans hrec.bounds.1.symm, hend.symm.trans hrec.bounds.2.symm,
    hprice.symm.trans hrec.price.symm⟩

theorem Counter.Inv.paid_row (h : x.Inv c digest) {a : Row} (ha : a ∈ x.rows) {d : Delivery} (hd : a.delivered = some d)
    (hr : a.receipted = true) : ∀ o ∈ d.report.outputs, x.PaidFor c digest a.jobId o := by
  intro o ho
  obtain ⟨hsent, hfits, -⟩ := (h.rows a ha).delivered d hd
  obtain ⟨tx, htx, e, r, hrec, hid, hjob, hstart, hend, -⟩ := h.receipt_of ha hd hr
  exact ⟨tx, htx, e, r, hrec, hjob, d.report, hsent, hfits.id.symm.trans hid.symm, hstart, hend, ho⟩

theorem Counter.settleInference_ok (h : x.Inv c digest) {now : ℤ} {auth : AuthProof} {id reason : String}
    {accepted : Bool} {f : Flight} (hf : x.settleInference c now auth id accepted reason = .ok f) :
    ∃ tx, f = .settle tx id accepted ∧ x.Judged c digest tx id accepted := by
  simp only [Counter.settleInference, Counter.authenticate, bind_ok, bailIf_ok, orBail_ok, not_not, pure_ok,
    Bool.not_eq_false] at hf
  obtain ⟨b, hb, _, hnode, _, hreceipted, _, _, _, ⟨pk, hpk, hauth⟩, rfl⟩ := hf
  obtain ⟨a, ha, hid, ⟨d, hd, hreport, hdigest⟩, hjob, hrow, hrequester, -⟩ := deliveredBatch_ok hb
  obtain ⟨hsent, hfits, htext⟩ := (h.rows a ha).delivered d hd
  obtain ⟨tx, htx, e, r, hrec, hat, hof, hstart, hend, hprice⟩ := h.receipt_of ha hd (hrow ▸ hreceipted)
  have hb_job : b.jobId = e.jobId := hjob.trans hof.symm
  have he_id : id = e.assignmentId := (hat.trans hid).symm
  rw [← hreport] at hstart hend hprice
  refine ⟨_, rfl, tx, htx, e, r, hrec, hat.trans hid, pk, auth, b.outputsDigest,
    if accepted then b.report.auth.nodeId else communityIssuanceAccount, ?_⟩
  refine ⟨?_, ?_, ?_, ?_, ?_, ?_, ?_⟩
  · cases accepted <;> simp [settleTransaction, settleEvidence, judged, hb_job, he_id, hstart, hend, hprice]
  · intro hsole
    have hsame : d.report = r := hsole d.report hsent (hfits.id.symm.trans (hat.symm.trans hrec.id))
    rw [hdigest, htext, hsame, hrec.text]
  · rw [← hb_job, hrequester, hnode]
  · rw [verifyAuth] at hauth
    simp only [bind_ok, bailIf_ok, exists_const] at hauth
    rw [← hb_job, ← he_id, ← hstart, ← hend, ← hprice]
    exact hauth.2.2
  · rw [← he_id, ← hprice]
    simp [Moves, settleTransaction]
  · rintro rfl
    refine ⟨d.report, hsent, hfits.id.symm.trans hat.symm, ?_⟩
    rw [if_pos rfl, hreport]
  · rintro rfl
    exact if_neg Bool.false_ne_true

theorem Counter.inferenceStatus_ok {jobId : String} {outputs : List PromptOutput}
    (h : x.inferenceStatus jobId = .ok outputs) {o : PromptOutput} (ho : o ∈ outputs) :
    ∃ a ∈ x.rows, a.jobId = jobId ∧ a.receipted = true ∧ ∃ d, a.delivered = some d ∧ o ∈ d.report.outputs := by
  simp only [Counter.inferenceStatus, bind_ok, orBail_ok, pure_ok] at h
  obtain ⟨_, _, rfl⟩ := h
  rw [List.mem_mergeSort, List.mem_flatMap] at ho
  obtain ⟨a, ha, ho⟩ := ho
  obtain ⟨hin, hkeep⟩ := List.mem_filter.1 ha
  obtain ⟨hjob, hr⟩ : a.jobId = jobId ∧ a.receipted = true := by simpa using hkeep
  cases hd : a.delivered with
  | none => simp [hd] at ho
  | some d => exact ⟨a, hin, hjob, hr, d, hd, by simpa [hd] using ho⟩

/-! ## One act -/

theorem Counter.Grows.of_rows (hchain : x'.chain = x.chain) (hreports : x'.reports = x.reports)
    (hrows : x'.rows = x.rows) (hjobs : x'.jobs = x.jobs) : x.Grows x' where
  chain := by rw [hchain]; exact fun _ => id
  reports := by rw [hreports]; exact fun _ => id
  rows a ha r hfits := ⟨a, hrows ▸ ha, hfits⟩
  requester := by unfold Counter.requester; rw [hjobs]; exact fun _ _ => id

theorem Counter.Inv.launch (h : x.Inv c digest) {f : Flight} (hf : x.FlightOk c digest f) :
    (x.launch f).Inv c digest := by
  have hg : x.Grows (x.launch f) := .of_rows rfl rfl rfl rfl
  refine h.of_grows hg h.ids ?_ (fun a ha => Or.inl ⟨a, ha, .refl a⟩) (fun _ => Or.inl) h.apart
  intro g hin
  rcases List.mem_append.1 hin with hold | hnew
  · exact Or.inl hold
  · exact Or.inr (List.mem_singleton.1 hnew ▸ hf.mono hg)

theorem Counter.Inv.say (h : x.Inv c digest) {answer : Answer}
    (ha : ∀ o ∈ answer.outputs, x.PaidFor c digest answer.jobId o) : (x.say answer).Inv c digest := by
  have hg : x.Grows (x.say answer) := .of_rows rfl rfl rfl rfl
  refine h.of_grows hg h.ids (fun _ => Or.inl) (fun a ha => Or.inl ⟨a, ha, .refl a⟩) ?_ h.apart
  intro given hin
  rcases List.mem_append.1 hin with hold | hnew
  · exact Or.inl hold
  · rw [List.mem_singleton.1 hnew]
    exact Or.inr fun o ho => (ha o ho).mono hg

/-- requests may stop anywhere -/
theorem Counter.Inv.fewer (h : x.Inv c digest) {flights : List Flight} (hsub : ∀ f ∈ flights, f ∈ x.flights) :
    ({ x with flights } : Counter).Inv c digest :=
  h.of_grows (.of_rows rfl rfl rfl rfl) h.ids (fun f hf => Or.inl (hsub f hf)) (fun a ha => Or.inl ⟨a, ha, .refl a⟩)
    (fun _ => Or.inl) h.apart

theorem Counter.Inv.register (h : x.Inv c digest) (nodeId pk : String) :
    (x.step c digest (.register nodeId pk)).Inv c digest := by
  simp only [Counter.step]
  split
  · exact h
  · exact h.of_grows (.of_rows rfl rfl rfl rfl) h.ids (fun _ => Or.inl) (fun a ha => Or.inl ⟨a, ha, .refl a⟩)
      (fun _ => Or.inl) h.apart

theorem Counter.Inv.submit (h : x.Inv c digest) (job : AiJob) (batches : List (String × InferenceAssignment)) :
    (x.step c digest (.submit job batches)).Inv c digest := by
  simp only [Counter.step]
  split
  · exact h
  case isFalse hno =>
    obtain ⟨-, hids⟩ := not_or.1 hno
    refine h.of_grows ⟨fun _ => id, fun _ => id, ?_, ?_⟩ (not_not.1 hids) (fun _ => Or.inl) ?_ (fun _ => Or.inl) h.apart
    · exact fun a ha r hfits => ⟨a, List.mem_append_left _ ha, hfits⟩
    · intro jobId nodeId hreq
      obtain ⟨j, hj, hn⟩ := Option.map_eq_some_iff.1 hreq
      simp only [Counter.requester, List.find?_append, hj, Option.some_or, Option.map_some, hn]
    · intro a ha
      rcases List.mem_append.1 ha with hold | hnew
      · exact Or.inl ⟨a, hold, .refl a⟩
      · obtain ⟨b, -, rfl⟩ := List.mem_map.1 hnew
        exact Or.inr ⟨by simp [batchRow], by simp [batchRow]⟩

theorem Counter.Inv.certify (h : x.Inv c digest) (tx : LedgerTransaction) :
    (x.step c digest (.certify tx)).Inv c digest := by
  simp only [Counter.step]
  split
  · exact h
  case isFalse hno =>
    refine h.of_grows ⟨fun t ht => List.mem_append_left _ ht, fun _ => id, fun a ha r hfits => ⟨a, ha, hfits⟩,
      fun _ _ => id⟩ h.ids (fun _ => Or.inl) (fun a ha => Or.inl ⟨a, ha, .refl a⟩) (fun _ => Or.inl) ?_
    rw [List.pairwise_append]
    refine ⟨h.apart, List.pairwise_singleton _ _, ?_⟩
    intro t ht t' ht' heq
    exact hno ⟨t, ht, List.mem_singleton.1 ht' ▸ heq⟩

theorem mem_update {id : String} {g : Row → Row} {a' : Row} (h : a' ∈ (x.update id g).rows) :
    ∃ a ∈ x.rows, (a.assignmentId = id ∧ a' = g a) ∨ a' = a := by
  obtain ⟨a, ha, rfl⟩ := List.mem_map.1 h
  by_cases hid : a.assignmentId = id
  · exact ⟨a, ha, Or.inl ⟨hid, if_pos hid⟩⟩
  · exact ⟨a, ha, Or.inr (if_neg hid)⟩

theorem grows_update {id : String} {g : Row → Row} {reports : List ReportInferenceRequest}
    {answers : List Answer} (hid : ∀ a, (g a).assignmentId = a.assignmentId) (hjob : ∀ a, (g a).jobId = a.jobId)
    (hclaim : ∀ a, (g a).assignment = a.assignment) (hreports : ∀ r ∈ x.reports, r ∈ reports) :
    x.Grows { x.update id g with reports, answers } where
  chain _ htx := htx
  reports := hreports
  rows a ha r hfits := by
    refine ⟨if a.assignmentId = id then g a else a, List.mem_map_of_mem ha, ?_⟩
    split
    · exact hfits.of_same (hid a) (hjob a) (congrArg _ (hclaim a))
    · exact hfits
  requester _ _ hn := hn

theorem ids_update {id : String} {g : Row → Row} (hid : ∀ a, (g a).assignmentId = a.assignmentId) :
    (x.update id g).rows.map (·.assignmentId) = x.rows.map (·.assignmentId) := by
  rw [Counter.update, List.map_map]
  refine List.map_congr_left fun a _ => ?_
  dsimp only [Function.comp_apply]
  split
  · exact hid a
  · rfl

/-- a write is what its request has established -/
theorem Counter.Inv.write (h : x.Inv c digest) {f : Flight} (hf : x.FlightOk c digest f) :
    (x.write digest f).Inv c digest := by
  cases f with
  | report r =>
    obtain ⟨a₀, ha₀, hfits⟩ := hf
    have hg : x.Grows (x.write digest (.report r)) :=
      grows_update (fun _ => rfl) (fun _ => rfl) (fun _ => rfl) fun _ => List.mem_append_left _
    have hids : (x.write digest (.report r)).rows.map (·.assignmentId) = x.rows.map (·.assignmentId) :=
      ids_update fun _ => rfl
    refine h.of_grows hg (hids ▸ h.ids) (fun _ => Or.inl) ?_ (fun _ => Or.inl) h.apart
    intro a' ha'
    obtain ⟨a, ha, ⟨hid, rfl⟩ | rfl⟩ := mem_update ha'
    · have hrow : a₀ = a := h.same_row ha₀ ha (hfits.id.trans hid.symm)
      subst hrow
      have hok : x.RowOk c digest a₀ := h.rows a₀ ha₀
      refine Or.inr ⟨?_, ?_⟩
      · rintro d ⟨⟩
        exact ⟨List.mem_append_right _ (List.mem_singleton_self r), hfits.of_same rfl rfl rfl, rfl⟩
      · intro hr
        obtain ⟨tx, htx, e, r', hrec, hat⟩ := hok.receipted hr
        exact ⟨tx, htx, e, r', hrec.mono hg, hat⟩
    · exact Or.inl ⟨a', ha, .refl a'⟩
  | receipt tx id jobId outputs =>
    obtain ⟨e, r, hrec, hid, hjob, hout⟩ := hf
    simp only [Counter.write]
    split
    case isFalse => exact h
    case isTrue htx =>
      have hg : x.Grows ((x.update id fun a => { a with receipted := true }).say ⟨jobId, outputs⟩) :=
        grows_update (fun _ => rfl) (fun _ => rfl) (fun _ => rfl) fun _ hr => hr
      have hids : (x.update id fun a => { a with receipted := true }).rows.map (·.assignmentId) =
          x.rows.map (·.assignmentId) := ids_update fun _ => rfl
      refine h.of_grows hg (hids ▸ h.ids) (fun _ => Or.inl) ?_ ?_ h.apart
      · intro a' ha'
        obtain ⟨a, ha, ⟨hat, rfl⟩ | rfl⟩ := mem_update ha'
        · obtain ⟨a₁, ha₁, hfits⟩ := hrec.planned
          have hrow : a₁ = a := h.same_row ha₁ ha (hfits.id.trans (hrec.id.symm.trans (hid.trans hat.symm)))
          refine Or.inr ⟨?_, fun _ => ⟨tx, htx, e, r, hrec.mono hg, hid.trans hat.symm, ?_⟩⟩
          · intro d hd
            obtain ⟨hsent, hfits, htext⟩ := (h.rows a ha).delivered d hd
            exact ⟨hsent, hfits.of_same rfl rfl rfl, htext⟩
          · exact hrec.job.trans (hfits.job.symm.trans (congrArg (·.jobId) hrow))
        · exact Or.inl ⟨a', ha, .refl a'⟩
      · intro answer hin
        rcases List.mem_append.1 hin with hold | hnew
        · exact Or.inl hold
        · rw [List.mem_singleton.1 hnew]
          refine Or.inr fun o ho => ⟨tx, htx, e, r, hrec.mono hg, hjob, r, hrec.reported, hrec.id.symm,
            hrec.bounds.1.symm, hrec.bounds.2.symm, hout ▸ ho⟩
  | settle tx id accepted =>
    simp only [Counter.write]
    split
    · exact h.rewrite fun a _ => by split <;> exact ⟨rfl, rfl, rfl, rfl, rfl⟩
    · exact h

theorem Counter.Inv.step (h : x.Inv c digest) (act : Act) : (x.step c digest act).Inv c digest := by
  cases act with
  | register nodeId pk => exact h.register nodeId pk
  | submit job batches => exact h.submit job batches
  | finalize jobId => exact h.rewrite fun a _ => by split <;> exact ⟨rfl, rfl, rfl, rfl, rfl⟩
  | lease id => exact h.rewrite fun a _ => by dsimp only; split_ifs <;> exact ⟨rfl, rfl, rfl, rfl, rfl⟩
  | expire ids => exact h.rewrite fun a _ => by split <;> exact ⟨rfl, rfl, rfl, rfl, rfl⟩
  | reroute id nodeId deviceId => exact h.rewrite fun a _ => by split <;> exact ⟨rfl, rfl, rfl, rfl, rfl⟩
  | refund id => exact h.rewrite fun a _ => by split <;> exact ⟨rfl, rfl, rfl, rfl, rfl⟩
  | report now r =>
    simp only [Counter.step]
    split
    · exact h
    case h_2 f hf =>
      obtain ⟨rfl, hfits⟩ := reportInference_ok hf
      exact h.launch hfits
  | receipt now auth id =>
    simp only [Counter.step]
    split
    · exact h
    case h_2 answer hr =>
      obtain ⟨a, ha, -, d, hd, ⟨hrec, heq⟩ | ⟨-, e, -, -, -, heq⟩⟩ := Counter.receiptInference_ok h hr
      · rw [Sum.inl.inj heq]
        exact h.say (h.paid_row ha hd hrec)
      · cases heq
    case h_3 f hr =>
      obtain ⟨a, ha, -, d, hd, ⟨-, heq⟩ | ⟨-, e, hrec, hid, hjob, heq⟩⟩ := Counter.receiptInference_ok h hr
      · cases heq
      · rw [Sum.inr.inj heq]
        exact h.launch ⟨e, d.report, hrec, hid, hjob, rfl⟩
  | settle now auth id accepted reason =>
    simp only [Counter.step]
    split
    · exact h
    case h_2 f hf =>
      obtain ⟨tx, rfl, hj⟩ := Counter.settleInference_ok h hf
      exact h.launch hj
  | status jobId =>
    simp only [Counter.step]
    split
    · exact h
    case h_2 outputs hs =>
      refine h.say fun o ho => ?_
      obtain ⟨a, ha, hjob, hr, d, hd, hin⟩ := Counter.inferenceStatus_ok hs ho
      exact hjob ▸ h.paid_row ha hd hr o hin
  | certify tx => exact h.certify tx
  | land f =>
    simp only [Counter.step]
    split
    · case isTrue hf =>
      exact (h.fewer fun g hg => List.mem_of_mem_erase hg).write ((h.flights f hf).mono (.of_rows rfl rfl rfl rfl))
    · exact h

theorem Counter.Inv.opened : Counter.opened.Inv c digest where
  ids := List.nodup_nil
  flights _ := by simp [Counter.opened]
  rows _ := by simp [Counter.opened]
  answers _ := by simp [Counter.opened]
  apart := List.Pairwise.nil

theorem Counter.Inv.foldl (h : x.Inv c digest) (acts : List Act) :
    (acts.foldl (Counter.step c digest) x).Inv c digest := by
  induction acts generalizing x with
  | nil => exact h
  | cons act acts ih => exact ih (h.step act)

theorem Counter.Inv.run (acts : List Act) : (Counter.run c digest acts).Inv c digest := Counter.Inv.opened.foldl acts

/-- one claim, one entry -/
theorem Counter.Inv.only (h : x.Inv c digest) {tx tx' : LedgerTransaction} (htx : tx ∈ x.chain) (htx' : tx' ∈ x.chain)
    (hkey : claimKey tx' = claimKey tx) : tx' = tx := by
  have hnodup : (x.chain.map claimKey).Nodup := List.pairwise_map.2 h.apart
  exact List.inj_on_of_nodup_map hnodup htx' htx hkey

/-! ## Every run -/

variable (c digest) in
/-- what has left is paid for, and what is to be paid out was taken -/
structure Counter.Fair (x : Counter) : Prop where
  /-- for every piece of text in a response, the chain holds a receipt for its batch and no other entry on the batch's
  escrow; unless the batch was reported twice, the text is what the receipt was signed over -/
  answers : ∀ answer ∈ x.answers, ∀ o ∈ answer.outputs, ∃ tx ∈ x.chain, ∃ e r, x.Receipts c digest tx e r ∧
    e.jobId = answer.jobId ∧
    (∃ sent ∈ x.reports, sent.assignmentId = e.assignmentId ∧ sent.batchStart = e.batchStart ∧
      sent.batchEnd = e.batchEnd ∧ o ∈ sent.outputs) ∧
    (x.Sole r → o ∈ r.outputs) ∧
    ∀ tx' ∈ x.chain, claimKey tx' = inferenceClaimKey e.jobId e.batchStart e.batchEnd → tx' = tx
  verdicts : ∀ tx id accepted, .settle tx id accepted ∈ x.flights → x.Judged c digest tx id accepted

theorem Counter.Inv.fair (h : x.Inv c digest) : x.Fair c digest where
  answers answer ha o ho := by
    obtain ⟨tx, htx, e, r, hr, hjob, sent, hsent, hid, hstart, hend, hin⟩ := h.answers answer ha o ho
    refine ⟨tx, htx, e, r, hr, hjob, ⟨sent, hsent, hid, hstart, hend, hin⟩, ?_, ?_⟩
    · intro hsole
      rw [← hsole sent hsent (hid.trans hr.id)]
      exact hin
    · intro tx' htx' hkey
      refine h.only htx htx' (hkey.trans ?_)
      rw [claimKey, hr.evidence]
  verdicts _ _ _ hf := h.flights _ hf

variable (c digest) in
/-- **The exchange is fair.** However requests interleave and wherever they stop: no text is in any response before the
chain holds a receipt for its batch, signed by the requester of the job, that moves the price of the batch out of the
job's escrow, and that escrow is not refunded; and no verdict is proposed but on such a batch, signed by the same
requester, at the price of the receipt and out of the account the receipt moved it to, to the node that reported the
batch or to the commons. -/
theorem exchange_fair (acts : List Act) : (Counter.run c digest acts).Fair c digest := (Counter.Inv.run acts).fair

end

/-! ## Two reports of one batch -/

namespace Sample

/-- stand-ins that are quick to evaluate: two keys, and every signature holds -/
def openCrypto : Crypto where
  sha256 := id
  json := fun _ => []
  decode := fun s =>
    some (if s = "signed" then List.replicate 64 0 else List.replicate 32 (if s = "requester" then 3 else 5))
  validKey := fun _ => true
  verify := fun _ _ _ => true

def requesterId : String := nodeIdFromPublicKey openCrypto (List.replicate 32 3)

def providerId : String := nodeIdFromPublicKey openCrypto (List.replicate 32 5)

def texts (outputs : List PromptOutput) : String := outputs.foldl (fun text o => text ++ o.text) ""

def output (text : String) : PromptOutput := ⟨0, text, hashBytes openCrypto (bytesOf text), 1⟩

def task : InferenceAssignment := ⟨"a", "j", Ai.Sample.millionModel, [], [(0, "hi")], 1, 0, 0, "gpu", 60⟩

def price : ℤ := ((assignmentClaim task).map (·.2.2)).getD 0

def answered (text : String) : ReportInferenceRequest :=
  ⟨⟨providerId, 0, "nonce-of-provider", "signed"⟩, "a", "j", 0, 1, price, [output text]⟩

def taken : AuthProof := ⟨requesterId, 0, "nonce-of-requester", "signed"⟩

def takenTransaction : LedgerTransaction := receiptTransaction ⟨"j", "a", 0, 1, price, "yes", "requester", taken⟩ 0

/-- both reports pass before either is written; the receipt is for the first -/
def twiceReported : List Act :=
  [.register requesterId "requester", .register providerId "provider", .submit ⟨"j", requesterId⟩ [(providerId, task)],
    .finalize "j", .lease "a", .report 0 (answered "yes"), .report 0 (answered "no"), .land (.report (answered "yes")),
    .receipt 0 taken "a", .certify takenTransaction, .land (.receipt takenTransaction "a" "j" [output "yes"]),
    .land (.report (answered "no")), .status "j"]

end Sample

example : (Counter.run Sample.openCrypto Sample.texts Sample.twiceReported).answers.map
    (fun a => a.outputs.map (·.text)) = [["yes"], ["no"]] := by decide +kernel

end Hocmesh.Coordinator.Exchange
