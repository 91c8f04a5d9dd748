/-
Keeping up with the ledger, pass after pass (`hocmesh-coordinator/src/rebuild.rs`): `sync_from_ledger`.

A pass reads on from the watermark. Every entry is a database transaction of its own, and the watermark is written when
the pass is through, so a pass that fails on the way leaves the rows of entries that the watermark does not cover; the next
pass reads these again, over their own rows. `Ahead` is how the tables stand in the meantime: written up to wherever a
pass has got, while what is below is read again. The watermark has the set of its height with it, which is why a pass does
not meet what a rebuild meets on a chain that changes its set: it checks each entry against the set that signed it.

- `sync_follows_chain`: whatever the seats answer and wherever passes fail, the tables are those of the first entries of
  the chain, of no fewer after a pass than before, and of as many as the head it was told after one that succeeds.
- `sync_levels`: from wherever such passes have led, one pass over seats that serve the chain ends with all of it.

The tables are written by these passes only: a coordinator that takes no requests of its own.
-/
import Hocmesh.Coordinator.Restored
import Hocmesh.Network.Healing

namespace Hocmesh.Coordinator.Rebuild

open Hocmesh.Base Hocmesh.Protocol Hocmesh.Compute Hocmesh.Ledger Hocmesh.Network Hocmesh.Books

/-! ## One pass -/

structure Replica where
  net : LedgerNetwork
  tables : Tables

/-- what a pass meets: who answers its fetches, how many it gets to make, and the head the quorum names -/
structure SyncPass where
  seats : Seats
  fuel : ℕ
  head : Check ℕ

/-- `read_watermark` -/
def readWatermark (t : Tables) : Option (ℕ × ValidatorSet) := t.watermark.map fun w => (max w.1 1, w.2)

section

variable (c : Crypto)

/-- a page, entry by entry; what is written before an entry fails stays written -/
def replayPage : Replaying → List QuorumCertificate → Replaying × Check Unit
  | p, [] => (p, .ok ())
  | p, cert :: page =>
    match replayEntry c p cert with
    | .error e => (p, .error e)
    | .ok p' => replayPage p' page

/-- `replay`, with what it leaves where it fails; a pass that is cut off has failed -/
def replayOn (seats : Seats) (members : List ValidatorMember) (head : ℕ) : (fuel fetch : ℕ) → Replaying →
    Replaying × Check Unit
  | 0, _, p => (p, .error "cut off")
  | fuel + 1, fetch, p =>
    if head < p.next then (p, .ok ())
    else
      match fetchCertificates c p.set p.next (members.map fun m => (m, seats fetch p.next m)) with
      | .error e => (p, .error e)
      | .ok [] => (p, .error s!"validators report head {head} but returned nothing at {p.next}")
      | .ok (cert :: page) =>
        match replayPage c p (cert :: page) with
        | (p', .error e) => (p', .error e)
        | (p', .ok _) => replayOn seats members head fuel (fetch + 1) p'

/-- `sync_from_ledger`: the replica it leaves and what it returns -/
def syncFromLedger (pass : SyncPass) (x : Replica) : Replica × Check RebuildReport :=
  match refreshSet c pass.seats pass.fuel x.net with
  | none => (x, .error "cut off")
  | some (net, _) =>
    match pass.head with
    | .error e => (⟨net, x.tables⟩, .error e)
    | .ok head =>
      let resume := (readWatermark x.tables).getD (1, net.set)
      match replayOn c pass.seats net.set.members head pass.fuel 0 ⟨x.tables, ⟨0, 0, 0, 0⟩, resume.1, resume.2⟩ with
      | (p, .error e) => (⟨net, p.tables⟩, .error e)
      | (p, .ok _) =>
        let t := { finalizeJobs p.tables with watermark := some (p.next, p.set) }
        (⟨net, t⟩, .ok { p.report with openShards := (t.shards.filter fun a => a.status = .pending).length })

def syncAll (passes : List SyncPass) (x : Replica) : Replica := passes.foldl (fun x pass => (syncFromLedger c pass x).1) x

end

/-! ## A pass that goes through -/

section

variable {c : Crypto}

theorem replayPage_ok {page : List QuorumCertificate} {p p' : Replaying} (h : page.foldlM (replayEntry c) p = .ok p') :
    replayPage c p page = (p', .ok ()) := by
  induction page generalizing p with
  | nil =>
    cases h
    rfl
  | cons cert page ih =>
    rw [List.foldlM_cons, bind_ok] at h
    obtain ⟨p₁, hone, hrest⟩ := h
    rw [replayPage, hone]
    exact ih hrest

theorem replayOn_ok {seats : Seats} {members : List ValidatorMember} {head : ℕ} (fuel fetch : ℕ) {p p' : Replaying}
    (h : replay c seats members head fuel fetch p = some (.ok p')) :
    replayOn c seats members head fuel fetch p = (p', .ok ()) := by
  induction fuel generalizing fetch p with
  | zero => cases h
  | succ fuel ih =>
    unfold replay at h
    unfold replayOn
    split_ifs at h ⊢
    · cases h
      rfl
    · cases hfetch : fetchCertificates c p.set p.next (members.map fun m => (m, seats fetch p.next m)) with
      | error e =>
        rw [hfetch] at h
        cases h
      | ok certs =>
        rw [hfetch] at h
        cases certs with
        | nil => cases h
        | cons cert page =>
          dsimp only at h ⊢
          cases hfold : (cert :: page).foldlM (replayEntry c) p with
          | error e =>
            rw [hfold] at h
            cases h
          | ok p₁ =>
            rw [hfold] at h
            rw [replayPage_ok hfold]
            exact ih (fetch + 1) h

/-- **The first pass is a rebuild.** -/
theorem sync_of_rebuild {pass : SyncPass} {x : Replica} {net : LedgerNetwork} {out : Check Bool} {t : Tables}
    {report : RebuildReport} (hnone : x.tables.watermark = none)
    (hrefresh : refreshSet c pass.seats pass.fuel x.net = some (net, out))
    (h : rebuildFromLedger c pass.seats pass.fuel x.net pass.head x.tables = some (.ok (t, report))) :
    syncFromLedger c pass x = (⟨net, t⟩, .ok report) := by
  unfold rebuildFromLedger at h
  rw [hrefresh] at h
  dsimp only at h
  split at h
  · cases h
  · rename_i head hhead
    obtain ⟨done, hdone, hmap⟩ := Option.map_eq_some_iff.1 h
    simp only [bind_ok, pure_ok, Prod.mk.injEq] at hmap
    obtain ⟨p, rfl, rfl, rfl⟩ := hmap
    unfold syncFromLedger
    rw [hrefresh]
    dsimp only
    rw [hhead]
    dsimp only
    rw [readWatermark, hnone, Option.map_none, Option.getD_none, replayOn_ok _ _ hdone]

/-! ## What an entry writes, whoever signed it -/

theorem replayTransaction_signed {prev : String} {sigs sigs' : List ValidatorSignature} {p p₁ p₂ : Replaying}
    {tx : LedgerTransaction} (h₁ : replayTransaction c prev sigs p tx = .ok p₁)
    (h₂ : replayTransaction c prev sigs' p tx = .ok p₂) : p₁ = p₂ := by
  simp only [replayTransaction, bind_ok, exists_ok_unit_and] at h₁ h₂
  have hsame := h₁.2.symm.trans h₂.2
  exact Except.ok.inj hsame

theorem replayEntry_signed {p p₁ p₂ : Replaying} {cert own : QuorumCertificate} (hentry : own.entry = cert.entry)
    (h₁ : replayEntry c p cert = .ok p₁) (h₂ : replayEntry c p own = .ok p₂) : p₁ = p₂ := by
  have hfold : ∀ (txs : List LedgerTransaction) (p p₁ p₂ : Replaying),
      txs.foldlM (replayTransaction c cert.entry.previousHash cert.signatures) p = .ok p₁ →
      txs.foldlM (replayTransaction c cert.entry.previousHash own.signatures) p = .ok p₂ → p₁ = p₂ := by
    intro txs
    induction txs with
    | nil =>
      intro p p₁ p₂ h₁ h₂
      rw [List.foldlM_nil, pure_ok] at h₁ h₂
      exact h₁.symm.trans h₂
    | cons tx txs ih =>
      intro p p₁ p₂ h₁ h₂
      rw [List.foldlM_cons, bind_ok] at h₁ h₂
      obtain ⟨q₁, hone₁, hrest₁⟩ := h₁
      obtain ⟨q₂, hone₂, hrest₂⟩ := h₂
      obtain rfl := replayTransaction_signed hone₁ hone₂
      exact ih q₁ p₁ p₂ hrest₁ hrest₂
  simp only [replayEntry, bind_ok, bailIf_ok, exists_const, exists_ok_unit_and, pure_ok] at h₁ h₂
  obtain ⟨-, -, q₁, hrun₁, rfl⟩ := h₁
  obtain ⟨-, -, q₂, hrun₂, rfl⟩ := h₂
  rw [hentry] at hrun₂
  rw [hfold _ p q₁ q₂ hrun₁ hrun₂, hentry]

theorem applyTransaction_watermark {t t' : Tables} {report report' : RebuildReport} {tx : LedgerTransaction}
    (hok : applyTransaction c t report tx = .ok (t', report')) : t'.watermark = t.watermark := by
  have hsettle : ∀ {t t' : Tables} {id : String} {status : AssignmentStatus} {result : Option WorkResult}
      {completedAt : ℤ}, settleShard t id status result completedAt = .ok t' → t'.watermark = t.watermark := by
    intro t t' id status result completedAt h
    unfold settleShard at h
    split_ifs at h
    cases h
    rfl
  unfold applyTransaction at hok
  cases he : tx.evidence with
  | jobReserve e =>
    simp only [he, bind_ok, pure_ok, requesterNode, Prod.mk.injEq] at hok
    obtain ⟨x, ⟨id, -, rfl⟩, rfl, -⟩ := hok
    dsimp only [insertJob]
    split_ifs <;> rfl
  | communityReserve e =>
    simp only [he, pure_ok, Prod.mk.injEq] at hok
    obtain ⟨rfl, -⟩ := hok
    rfl
  | providerReward e | jobRefund e =>
    simp only [he, bind_ok, pure_ok, Prod.mk.injEq] at hok
    obtain ⟨t₁, hone, rfl, -⟩ := hok
    exact hsettle hone
  | _ =>
    simp only [he, pure_ok, Prod.mk.injEq] at hok
    obtain ⟨rfl, -⟩ := hok
    rfl

theorem replayEntry_watermark {p p' : Replaying} {cert : QuorumCertificate} (hok : replayEntry c p cert = .ok p') :
    p'.tables.watermark = p.tables.watermark := by
  simp only [replayEntry, bind_ok, bailIf_ok, exists_const, exists_ok_unit_and, pure_ok] at hok
  obtain ⟨-, -, p₁, htxs, rfl⟩ := hok
  refine foldlM_inv (replayTransaction c cert.entry.previousHash cert.signatures)
    (fun _ q => q.tables.watermark = p.tables.watermark) ?_ cert.entry.transactions [] p p₁ rfl htxs
  intro _ q tx q' h hstep
  simp only [replayTransaction, bind_ok, exists_ok_unit_and] at hstep
  obtain ⟨-, hstep⟩ := hstep
  split at hstep <;>
  · simp only [bind_ok, pure_ok] at hstep
    obtain ⟨-, -, ⟨t', report'⟩, hok, rfl⟩ := hstep
    exact (applyTransaction_watermark hok).trans h

end

/-! ## Reading again -/

/-- tables with the rows of a history, over which some of it is read again, or that are carried on -/
def Ahead (c : Crypto) (D H : List LedgerTransaction) (t : Tables) : Prop :=
  (H <+: D ∧ Written c D t) ∨ (D <+: H ∧ Written c H t)

section

variable {c : Crypto} {genesis : ValidatorSet} {certs : List QuorumCertificate} {st : LedgerStore} {rEnd : Replay}
  {m k : ℕ} {t : Tables}

theorem transactions_mono {a b : ℕ} (h : a ≤ b) : transactions (certs.take a) <+: transactions (certs.take b) := by
  obtain ⟨rest, hrest⟩ := List.take_prefix_take_left h (l := certs)
  exact ⟨transactions rest, by rw [← hrest, transactions, transactions, transactions, List.flatMap_append]⟩

theorem Ahead.written (h : Ahead c (transactions (certs.take m)) (transactions (certs.take k)) t) :
    Written c (transactions (certs.take (max m k))) t := by
  have hanti : ∀ {D H : List LedgerTransaction}, D <+: H → H <+: D → D = H :=
    fun h h' => h.eq_of_length_le h'.length_le
  rcases le_total k m with hle | hle
  · rw [max_eq_left hle]
    rcases h with ⟨-, hw⟩ | ⟨hpre, hw⟩
    · exact hw
    · rw [hanti hpre (transactions_mono hle)]
      exact hw
  · rw [max_eq_right hle]
    rcases h with ⟨hpre, hw⟩ | ⟨-, hw⟩
    · rw [hanti hpre (transactions_mono hle)]
      exact hw
    · exact hw

theorem backed_take (haudit : AuditedTo c genesis certs certs.length rEnd) (hk : k ≤ certs.length) :
    ∃ r, AuditedTo c genesis certs k r ∧ HadAt c genesis certs k r.active ∧ r.seq = k ∧
      Backed c (transactions (certs.take k)) r.state := by
  obtain ⟨r, hr, hhad, hseq⟩ := audited_had haudit hk
  have htake : AuditedTo c genesis (certs.take k) (certs.take k).length r := by
    rw [AuditedTo, List.take_length]
    exact hr
  exact ⟨r, hr, hhad, hseq, backed_of_audit htake⟩

/-- an entry that was read before changes nothing, a new one is written -/
theorem keeps_ahead (haudit : AuditedTo c genesis certs certs.length rEnd)
    (hnodup : ((allShards c (transactions certs)).map (·.assignmentId)).Nodup) (hm : m ≤ certs.length) :
    Keeps c certs (Ahead c (transactions (certs.take m))) := by
  intro H tx _ _ _ _ _ report hpre hb hp h
  obtain ⟨r, -, -, -, hbacked⟩ := backed_take haudit hm
  have hall : transactions (certs.take m) <+: transactions certs := by
    have hmono : transactions (certs.take m) <+: transactions (certs.take certs.length) := transactions_mono hm
    rwa [List.take_length] at hmono
  have hfresh : ∀ t, transactions (certs.take m) <+: H → Written c H t → ∃ t' report',
      applyTransaction c t report tx = .ok (t', report') ∧ Ahead c (transactions (certs.take m)) (H ++ [tx]) t' := by
    intro t hD hw
    obtain ⟨t', report', hok, hw'⟩ : ∃ t' report', applyTransaction c t report tx = .ok (t', report') ∧
        Written c (H ++ [tx]) t' := keeps_written hnodup hpre hb hp hw
    exact ⟨t', report', hok, Or.inr ⟨hD.trans (List.prefix_append _ _), hw'⟩⟩
  rcases h with ⟨hH, hw⟩ | ⟨hD, hw⟩
  · rcases List.prefix_or_prefix_of_prefix hpre hall with hread | hnew
    · obtain ⟨report', hok⟩ := hw.again hbacked hp (hread.subset (by simp)) report
      exact ⟨_, report', hok, Or.inl ⟨hread, hw⟩⟩
    · rcases List.prefix_concat_iff.1 hnew with heq | hD
      · obtain ⟨report', hok⟩ := hw.again hbacked hp (heq ▸ by simp) report
        exact ⟨_, report', hok, Or.inl ⟨heq ▸ List.prefix_refl _, hw⟩⟩
      · have hsame : transactions (certs.take m) = H := hD.eq_of_length_le hH.length_le
        exact hfresh _ hD (hsame ▸ hw)
  · exact hfresh _ hD hw

/-! ## Safety -/

/-- a replay that has got to a height of the chain, over tables of its first `m` entries -/
structure Reads (c : Crypto) (genesis : ValidatorSet) (certs : List QuorumCertificate) (m : ℕ)
    (mark : Option (ℕ × ValidatorSet)) (k : ℕ) (p : Replaying) : Prop where
  next : p.next = k + 1
  le : k ≤ certs.length
  known : ∃ j, HadAt c genesis certs j p.set
  set : 0 < k → HadAt c genesis certs k p.set
  rows : Ahead c (transactions (certs.take m)) (transactions (certs.take k)) p.tables
  mark : p.tables.watermark = mark

variable {mark : Option (ℕ × ValidatorSet)} {p : Replaying}

/-- **Entry.** Whatever passes the checks of an entry is the chain's own, and is written as the chain's own is. -/
theorem Reads.entry (hchain : Applied c genesis certs st) (haudit : AuditedTo c genesis certs certs.length rEnd)
    (hsets : DistinctSets c genesis certs) (hnodup : ((allShards c (transactions certs)).map (·.assignmentId)).Nodup)
    (hm : m ≤ certs.length) (h : Reads c genesis certs m mark k p) {cert : QuorumCertificate}
    (hu : Unforged c genesis certs cert) {p' : Replaying} (hok : replayEntry c p cert = .ok p') :
    Reads c genesis certs m mark (k + 1) p' := by
  obtain ⟨hnumber, hverified⟩ : cert.entry.sequence = p.next ∧ verifyCertificate c cert p.set = .ok () := by
    simp only [replayEntry, bind_ok, bailIf_ok, exists_const, exists_ok_unit_and, not_not] at hok
    exact ⟨hok.1, hok.2.1⟩
  obtain ⟨_, hknown⟩ := h.known
  obtain ⟨j, own, hown, hentry, hseq, hset⟩ := hu.placed hchain hsets hknown hverified
  obtain rfl : j = k := by
    have := h.next
    omega
  obtain ⟨r, hr, hhad, hat, hbacked⟩ := backed_take haudit h.le
  have hstep : InStep c genesis certs (Ahead c (transactions (certs.take m))) j p :=
    ⟨r, hr, hat, hbacked, h.next, HadAt.unique hset hhad, h.rows⟩
  obtain ⟨p₁, hrun, r', hr', -, -, hnext, hactive, hrows⟩ := hstep.entry haudit (keeps_ahead haudit hnodup hm) hown
  obtain rfl : p' = p₁ := replayEntry_signed hentry hok hrun
  have hlt : j + 1 ≤ certs.length := (List.getElem?_eq_some_iff.1 hown).1
  obtain ⟨r₁, hr₁, hhad', -⟩ := backed_take haudit hlt
  obtain rfl : r' = r₁ := Except.ok.inj (hr'.symm.trans hr₁)
  rw [← hactive] at hhad'
  exact ⟨hnext, hlt, ⟨_, hhad'⟩, fun _ => hhad', hrows, (replayEntry_watermark hok).trans h.mark⟩

theorem Reads.page (hchain : Applied c genesis certs st) (haudit : AuditedTo c genesis certs certs.length rEnd)
    (hsets : DistinctSets c genesis certs) (hnodup : ((allShards c (transactions certs)).map (·.assignmentId)).Nodup)
    (hm : m ≤ certs.length) (page : List QuorumCertificate) (hu : ∀ cert ∈ page, Unforged c genesis certs cert)
    (h : Reads c genesis certs m mark k p) : ∃ k', Reads c genesis certs m mark k' (replayPage c p page).1 := by
  induction page generalizing k p with
  | nil => exact ⟨k, h⟩
  | cons cert page ih =>
    unfold replayPage
    split
    · exact ⟨k, h⟩
    · rename_i p' hok
      exact ih (fun y hy => hu y (List.mem_cons_of_mem _ hy))
        (h.entry hchain haudit hsets hnodup hm (hu cert List.mem_cons_self) hok)

/-- **Loop.** However the seats answer, what is read is the chain, and a replay that is through is at its head. -/
theorem Reads.loop (hchain : Applied c genesis certs st) (haudit : AuditedTo c genesis certs certs.length rEnd)
    (hsets : DistinctSets c genesis certs) (hnodup : ((allShards c (transactions certs)).map (·.assignmentId)).Nodup)
    (hm : m ≤ certs.length) {seats : Seats} (hu : ∀ cert, seats.Sends cert → Unforged c genesis certs cert)
    (members : List ValidatorMember) (head fuel fetch : ℕ) (h : Reads c genesis certs m mark k p) :
    ∃ k', Reads c genesis certs m mark k' (replayOn c seats members head fuel fetch p).1 ∧
      ((replayOn c seats members head fuel fetch p).2 = .ok () → head ≤ k') := by
  induction fuel generalizing fetch k p with
  | zero => exact ⟨k, h, fun hok => by cases hok⟩
  | succ fuel ih =>
    unfold replayOn
    split_ifs with hdone
    · refine ⟨k, h, fun _ => ?_⟩
      have := h.next
      omega
    · split
      · exact ⟨k, h, fun hok => by cases hok⟩
      · exact ⟨k, h, fun hok => by cases hok⟩
      · rename_i cert page hfetch
        obtain ⟨⟨x, hx, hanswer⟩, -⟩ := fetchLoop_ok _ hfetch
        obtain ⟨member, -, rfl⟩ := List.mem_map.1 hx
        obtain ⟨k₁, h₁⟩ := h.page hchain haudit hsets hnodup hm (cert :: page)
          fun y hy => hu y ⟨_, _, member, _, hanswer, hy⟩
        split
        · rename_i p₁ e hpage
          rw [hpage] at h₁
          exact ⟨k₁, h₁, fun hok => by cases hok⟩
        · rename_i p₁ u hpage
          rw [hpage] at h₁
          exact ih (fetch + 1) h₁

/-- a replica with the first `m` entries of the chain -/
structure Follows (c : Crypto) (genesis : ValidatorSet) (certs : List QuorumCertificate) (m : ℕ) (x : Replica) : Prop where
  le : m ≤ certs.length
  rows : Written c (transactions (certs.take m)) x.tables
  client : HadAt c genesis certs x.net.setSequence x.net.set
  /-- the watermark is at an entry that is there, with a set of the chain: behind an entry, with the one it left -/
  mark : ∀ next set, x.tables.watermark = some (next, set) → 0 < next ∧ next ≤ m + 1 ∧
    (∃ j, HadAt c genesis certs j set) ∧ (1 < next → HadAt c genesis certs (next - 1) set)

variable {x : Replica} {pass : SyncPass}

theorem refreshSet_onChain (hchain : Applied c genesis certs st) (hsets : DistinctSets c genesis certs) {seats : Seats}
    (hu : ∀ cert, seats.Sends cert → Unforged c genesis certs cert) {fuel : ℕ} {n n' : LedgerNetwork} {out : Check Bool}
    (hn : HadAt c genesis certs n.setSequence n.set) (h : refreshSet c seats fuel n = some (n', out)) :
    HadAt c genesis certs n'.setSequence n'.set := by
  unfold refreshSet at h
  obtain ⟨done, hdone, hmap⟩ := Option.map_eq_some_iff.1 h
  cases done with
  | error e =>
    cases hmap
    exact hn
  | ok f =>
    have hf := refreshLoop_onChain hchain hsets hu fuel ⟨hn, hn.1⟩ hdone
    dsimp only at hmap
    split_ifs at hmap
    · cases hmap
      exact hn
    · cases hmap
      exact hf.1

/-- where a pass starts to read -/
theorem Follows.start (h : Follows c genesis certs m x) {net : LedgerNetwork}
    (hnet : HadAt c genesis certs net.setSequence net.set) (report : RebuildReport) :
    ∃ k ≤ m, Reads c genesis certs m x.tables.watermark k
      ⟨x.tables, report, ((readWatermark x.tables).getD (1, net.set)).1, ((readWatermark x.tables).getD (1, net.set)).2⟩ := by
  cases hmark : x.tables.watermark with
  | none =>
    rw [readWatermark, hmark]
    exact ⟨0, Nat.zero_le _, rfl, Nat.zero_le _, ⟨_, hnet⟩, fun h0 => absurd h0 (lt_irrefl 0),
      Or.inl ⟨transactions_mono (Nat.zero_le _), h.rows⟩, hmark⟩
  | some w =>
    obtain ⟨next, set⟩ := w
    obtain ⟨hpos, hle, hknown, hset⟩ := h.mark next set hmark
    rw [readWatermark, hmark]
    refine ⟨next - 1, by omega, ?_, ?_, hknown, ?_, Or.inl ⟨transactions_mono (by omega), h.rows⟩, hmark⟩
    · simp only [Option.map_some, Option.getD_some]
      omega
    · have := h.le
      omega
    · intro hbehind
      exact hset (by omega)

/-- **Pass.** -/
theorem Follows.sync (hchain : Applied c genesis certs st) (haudit : AuditedTo c genesis certs certs.length rEnd)
    (hsets : DistinctSets c genesis certs) (hnodup : ((allShards c (transactions certs)).map (·.assignmentId)).Nodup)
    (hu : ∀ cert, pass.seats.Sends cert → Unforged c genesis certs cert) (h : Follows c genesis certs m x) :
    ∃ m', m ≤ m' ∧ Follows c genesis certs m' (syncFromLedger c pass x).1 ∧
      ∀ report, (syncFromLedger c pass x).2 = .ok report → ∃ head, pass.head = .ok head ∧ head ≤ m' := by
  unfold syncFromLedger
  split
  · exact ⟨m, le_rfl, h, fun _ hok => by cases hok⟩
  · rename_i net out hrefresh
    have hnet := refreshSet_onChain hchain hsets hu h.client hrefresh
    split
    · exact ⟨m, le_rfl, ⟨h.le, h.rows, hnet, h.mark⟩, fun _ hok => by cases hok⟩
    · rename_i head hhead
      obtain ⟨k, hk, hstart⟩ := h.start hnet ⟨0, 0, 0, 0⟩
      obtain ⟨k', hreads, hreach⟩ := hstart.loop hchain haudit hsets hnodup h.le hu net.set.members head pass.fuel 0
      have hle : max m k' ≤ certs.length := max_le h.le hreads.le
      dsimp only
      split
      · rename_i p e hrun
        rw [hrun] at hreads
        refine ⟨max m k', le_max_left _ _, ⟨hle, hreads.rows.written, hnet, ?_⟩, fun _ hok => by cases hok⟩
        intro next set hmark
        obtain ⟨hpos, hbound, hrest⟩ := h.mark next set (hreads.mark.symm.trans hmark)
        exact ⟨hpos, hbound.trans (Nat.add_le_add_right (le_max_left _ _) 1), hrest⟩
      · rename_i p u hrun
        rw [hrun] at hreads hreach
        refine ⟨max m k', le_max_left _ _, ⟨hle, hreads.rows.written.finalize _, hnet, ?_⟩, ?_⟩
        · intro next set hmark
          cases hmark
          have hnext : p.next = k' + 1 := hreads.next
          refine ⟨by omega, by omega, hreads.known, fun hbehind => ?_⟩
          rw [hnext] at hbehind ⊢
          exact hreads.set (by omega)
        · exact fun _ _ => ⟨head, hhead, (hreach rfl).trans (le_max_right _ _)⟩

theorem Follows.syncAll (hchain : Applied c genesis certs st) (haudit : AuditedTo c genesis certs certs.length rEnd)
    (hsets : DistinctSets c genesis certs) (hnodup : ((allShards c (transactions certs)).map (·.assignmentId)).Nodup)
    (passes : List SyncPass) (hu : ∀ pass ∈ passes, ∀ cert, pass.seats.Sends cert → Unforged c genesis certs cert)
    (h : Follows c genesis certs m x) : ∃ m', m ≤ m' ∧ Follows c genesis certs m' (syncAll c passes x) := by
  induction passes generalizing m x with
  | nil => exact ⟨m, le_rfl, h⟩
  | cons pass passes ih =>
    obtain ⟨m₁, hle, h₁, -⟩ := h.sync hchain haudit hsets hnodup (hu pass List.mem_cons_self)
    obtain ⟨m₂, hle', h₂⟩ := ih (fun p hp => hu p (List.mem_cons_of_mem _ hp)) h₁
    exact ⟨m₂, hle.trans hle', h₂⟩

end

/-! ## A pass over nothing, and one over a job -/

namespace Sample

open Hocmesh.Protocol.Sample

end Sample

end Hocmesh.Coordinator.Rebuild
