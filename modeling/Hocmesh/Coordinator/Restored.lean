/-
What a rebuild puts back, against the chain the validators serve.

An audit and a rebuild read the same chain with the same checks, so a rebuild goes through in step with an audit
(`replay_runs`) and writes the shards the chain certifies. What they differ in is where they start: an audit starts with
the genesis set, a rebuild with the set that following the chain has left (`refresh_reaches`). So a chain is restored
exactly when that set is the genesis set and no two of its shards share an id (`restores_iff`).
-/
import Hocmesh.Coordinator.Certified

namespace Hocmesh.Coordinator.Rebuild

open Hocmesh.Base Hocmesh.Protocol Hocmesh.Compute Hocmesh.Ledger Hocmesh.Network Hocmesh.Books

/-! ## One entry, and a page of them -/

section

variable {c : Crypto} {genesis : ValidatorSet} {certs : List QuorumCertificate} {rEnd : Replay}
  {P : List LedgerTransaction → Tables → Prop}

/-- an audit of the first certificates of a chain -/
def AuditedTo (c : Crypto) (genesis : ValidatorSet) (certs : List QuorumCertificate) (k : ℕ) (r : Replay) : Prop :=
  (certs.take k).foldlM (replayCertificate c) ⟨0, "GENESIS", LedgerState.empty, genesis⟩ = .ok r

/-- what one transaction keeps of a rebuild's tables, in step with an audit of the chain -/
def Keeps (c : Crypto) (certs : List QuorumCertificate) (P : List LedgerTransaction → Tables → Prop) : Prop :=
  ∀ ⦃H tx prev sigs r r' t report⦄, H ++ [tx] <+: transactions certs → Backed c H r.state → Passed c prev sigs r r' tx →
    P H t → ∃ t' report', applyTransaction c t report tx = .ok (t', report') ∧ P (H ++ [tx]) t'

theorem replayTransaction_of {prev : String} {sigs : List ValidatorSignature} {p : Replaying} {tx : LedgerTransaction}
    {set : ValidatorSet} {t : Tables} {report : RebuildReport}
    (hevidence : verifyHistoricalEvidence c tx prev sigs = .ok ()) (hset : setAfterTx c p.set tx = .ok set)
    (hok : applyTransaction c p.tables p.report tx = .ok (t, report)) :
    replayTransaction c prev sigs p tx = .ok { p with tables := t, report := report, set := set } := by
  unfold setAfterTx at hset
  simp only [replayTransaction, bind_ok, exists_ok_unit_and]
  refine ⟨hevidence, ?_⟩
  cases he : tx.evidence with
  | membershipChange e =>
    simp only [he] at hset
    simp only [bind_ok, hset, Except.ok.injEq, exists_eq_left', hok, pure_ok]
  | _ =>
    simp only [he, pure_ok] at hset
    simp only [bind_ok, hset, pure_ok, exists_eq_left', Except.ok.injEq, hok]

theorem entry_runs (hkeeps : Keeps c certs P) {prev : String} {sigs : List ValidatorSignature}
    (txs : List LedgerTransaction) {H : List LedgerTransaction} {r r' : Replay} {p : Replaying}
    (hpre : H ++ txs <+: transactions certs)
    (hrun : txs.foldlM (Ledger.replayTransaction c prev sigs) r = .ok r') (hb : Backed c H r.state)
    (hset : p.set = r.active) (hp : P H p.tables) :
    ∃ p', txs.foldlM (replayTransaction c prev sigs) p = .ok p' ∧ p'.set = r'.active ∧ P (H ++ txs) p'.tables ∧
      Backed c (H ++ txs) r'.state ∧ r'.seq = r.seq := by
  induction txs generalizing H r p with
  | nil =>
    cases hrun
    rw [List.append_nil]
    exact ⟨p, rfl, hset, hp, hb, rfl⟩
  | cons tx txs ih =>
    rw [List.foldlM_cons, bind_ok] at hrun
    obtain ⟨r₁, hone, hrest⟩ := hrun
    have hpassed := passed_of_replay hone
    rw [List.append_cons] at hpre
    obtain ⟨t', report', hok, hP⟩ := hkeeps ((List.prefix_append _ _).trans hpre) hb hpassed hp
    obtain ⟨p', hfold, hset', hP', hb', hseq⟩ := ih (p := { p with tables := t', report := report', set := r₁.active })
      hpre hrest (hb.step hpassed) rfl hP
    refine ⟨p', ?_, hset', List.append_cons H tx txs ▸ hP', List.append_cons H tx txs ▸ hb', hseq.trans hpassed.seq⟩
    rw [List.foldlM_cons, bind_ok]
    exact ⟨_, replayTransaction_of hpassed.evidence (hset ▸ hpassed.active) hok, hfold⟩

/-- a rebuild that has read as far as an audit, with what is kept of its tables -/
def InStep (c : Crypto) (genesis : ValidatorSet) (certs : List QuorumCertificate)
    (P : List LedgerTransaction → Tables → Prop) (k : ℕ) (p : Replaying) : Prop :=
  ∃ r, AuditedTo c genesis certs k r ∧ r.seq = k ∧ Backed c (transactions (certs.take k)) r.state ∧ p.next = k + 1 ∧
    p.set = r.active ∧ P (transactions (certs.take k)) p.tables

theorem transactions_take {k : ℕ} {cert : QuorumCertificate} (hcert : certs[k]? = some cert) :
    transactions (certs.take (k + 1)) = transactions (certs.take k) ++ cert.entry.transactions := by
  rw [transactions, transactions, List.take_add_one, hcert, List.flatMap_append]
  simp

/-- what an audit of the whole chain says of its next certificate -/
theorem audited_next (haudit : AuditedTo c genesis certs certs.length rEnd) {k : ℕ} {r : Replay}
    (hr : AuditedTo c genesis certs k r) {cert : QuorumCertificate} (hcert : certs[k]? = some cert) :
    ∃ r', replayCertificate c r cert = .ok r' ∧ AuditedTo c genesis certs (k + 1) r' := by
  obtain ⟨hlt, hget⟩ := List.getElem?_eq_some_iff.1 hcert
  have hsplit : certs = certs.take k ++ cert :: certs.drop (k + 1) := by
    rw [← hget, ← List.drop_eq_getElem_cons hlt, List.take_append_drop]
  unfold AuditedTo at haudit hr
  rw [List.take_length, hsplit, foldlM_append_ok] at haudit
  obtain ⟨r₁, hr₁, hrest⟩ := haudit
  obtain rfl : r = r₁ := Except.ok.inj (hr.symm.trans hr₁)
  rw [List.foldlM_cons, bind_ok] at hrest
  obtain ⟨r', hone, -⟩ := hrest
  refine ⟨r', hone, ?_⟩
  rw [AuditedTo, List.take_add_one, hcert, foldlM_append_ok]
  exact ⟨r, hr, by simpa using hone⟩

/-- **Entry step.** -/
theorem InStep.entry (haudit : AuditedTo c genesis certs certs.length rEnd) (hkeeps : Keeps c certs P) {k : ℕ}
    {p : Replaying} (h : InStep c genesis certs P k p) {cert : QuorumCertificate} (hcert : certs[k]? = some cert) :
    ∃ p', replayEntry c p cert = .ok p' ∧ InStep c genesis certs P (k + 1) p' := by
  obtain ⟨r, hr, hseq, hb, hnext, hset, hp⟩ := h
  obtain ⟨r', hone, hr'⟩ := audited_next haudit hr hcert
  simp only [replayCertificate, bind_ok, bailIf_ok, exists_const, exists_ok_unit_and, pure_ok, not_or, not_not] at hone
  obtain ⟨hv, ⟨hnumber, -⟩, r₁, htxs, rfl⟩ := hone
  have hpre : transactions (certs.take k) ++ cert.entry.transactions <+: transactions certs := by
    rw [← transactions_take hcert]
    refine ⟨transactions (certs.drop (k + 1)), ?_⟩
    unfold transactions
    rw [← List.flatMap_append, List.take_append_drop]
  obtain ⟨p', hfold, hset', hp', hb', -⟩ := entry_runs hkeeps cert.entry.transactions hpre htxs hb hset hp
  refine ⟨{ p' with report := { p'.report with entries := p'.report.entries + 1 }, next := cert.entry.sequence + 1 },
    ?_, ?_⟩
  · simp only [replayEntry, bind_ok, bailIf_ok, exists_const, exists_ok_unit_and, pure_ok, not_not]
    refine ⟨by rw [hnumber, hseq, hnext], ?_, p', hfold, rfl⟩
    rw [hset]
    exact hv
  · rw [hseq] at hnumber
    exact ⟨_, hr', hnumber, transactions_take hcert ▸ hb', by simp only [hnumber], hset', transactions_take hcert ▸ hp'⟩

/-- what every certificate of a chain keeps, a page of the chain keeps -/
theorem page_runs {σ : Type} {f : σ → QuorumCertificate → Check σ} {Q : ℕ → σ → Prop}
    (hstep : ∀ k s cert, certs[k]? = some cert → Q k s → ∃ s', f s cert = .ok s' ∧ Q (k + 1) s')
    (page : List QuorumCertificate) {k : ℕ} {s : σ} (hpage : page <+: certs.drop k) (hs : Q k s) :
    ∃ s', page.foldlM f s = .ok s' ∧ Q (k + page.length) s' := by
  induction page generalizing k s with
  | nil => exact ⟨s, rfl, hs⟩
  | cons cert page ih =>
    obtain ⟨rest, hrest⟩ := hpage
    have hcert : certs[k]? = some cert := by
      have := congrArg (·[0]?) hrest
      simpa using this.symm
    obtain ⟨s₁, hone, hs₁⟩ := hstep k s cert hcert hs
    have hpage' : page <+: certs.drop (k + 1) := ⟨rest, by
      rw [← List.tail_drop, ← hrest]
      rfl⟩
    obtain ⟨s', hfold, hs'⟩ := ih hpage' hs₁
    refine ⟨s', ?_, ?_⟩
    · rw [List.foldlM_cons, bind_ok]
      exact ⟨s₁, hone, hfold⟩
    · rw [List.length_cons, Nat.add_comm page.length, ← Nat.add_assoc]
      exact hs'

/-! ## The sets of an audited chain -/

/-- the set an audit leaves is the one the entry's changes lead to -/
theorem changes_of_replay {prev : String} {sigs : List ValidatorSignature} (txs : List LedgerTransaction) {r r' : Replay}
    (h : txs.foldlM (Ledger.replayTransaction c prev sigs) r = .ok r') :
    (txs.filterMap changeOf).foldlM (verifyMembershipChange c) r.active = .ok r'.active := by
  rw [← changeFold]
  change txs.foldlM (setAfterTx c) r.active = .ok r'.active
  induction txs generalizing r with
  | nil =>
    cases h
    rfl
  | cons tx txs ih =>
    rw [List.foldlM_cons, bind_ok] at h ⊢
    obtain ⟨r₁, hone, hrest⟩ := h
    exact ⟨r₁.active, (passed_of_replay hone).active, ih hrest⟩

/-- an audit that goes through has gone through every height, with the set the chain had there -/
theorem audited_had (haudit : AuditedTo c genesis certs certs.length rEnd) {k : ℕ} (hk : k ≤ certs.length) :
    ∃ r, AuditedTo c genesis certs k r ∧ HadAt c genesis certs k r.active ∧ r.seq = k := by
  induction k with
  | zero => exact ⟨_, rfl, ⟨Nat.zero_le _, rfl⟩, rfl⟩
  | succ k ih =>
    obtain ⟨r, hr, hhad, hseq⟩ := ih (by omega)
    have hcert : certs[k]? = some certs[k] := List.getElem?_eq_getElem hk
    obtain ⟨r', hone, hr'⟩ := audited_next haudit hr hcert
    refine ⟨r', hr', ?_⟩
    simp only [replayCertificate, bind_ok, bailIf_ok, exists_const, exists_ok_unit_and, pure_ok, not_or, not_not] at hone
    obtain ⟨-, ⟨hnumber, -⟩, r₁, htxs, rfl⟩ := hone
    have hchanges := changes_of_replay _ htxs
    exact ⟨hhad.next hcert hchanges, by rw [hnumber, hseq]⟩

theorem HadAt.unique {h : ℕ} {set set' : ValidatorSet} (hset : HadAt c genesis certs h set)
    (hset' : HadAt c genesis certs h set') : set = set' := Except.ok.inj (hset.2.symm.trans hset'.2)

theorem governed_of_audit (haudit : AuditedTo c genesis certs certs.length rEnd) : Governed c genesis certs := by
  intro k cert hcert
  obtain ⟨r, hr, hhad, hseq⟩ := audited_had haudit (List.getElem?_eq_some_iff.1 hcert).1.le
  obtain ⟨r', hone, -⟩ := audited_next haudit hr hcert
  simp only [replayCertificate, bind_ok, bailIf_ok, exists_const, exists_ok_unit_and, pure_ok, not_or, not_not] at hone
  obtain ⟨hv, ⟨hnumber, -⟩, -⟩ := hone
  exact ⟨by rw [hnumber, hseq], r.active, hhad, hv⟩

/-! ## Seats that serve the chain -/

/-- what the members answer is the chain, and at any time one of them is there that has as much of it as there is -/
structure Serves (seats : Seats) (certs : List QuorumCertificate) (members : List ValidatorMember) : Prop where
  own : ∀ fetch k, ∀ m ∈ members, ∀ page, seats fetch (k + 1) m = .ok page → page <+: certs.drop k
  up : ∀ fetch k, ∃ m ∈ members, ∃ page, seats fetch (k + 1) m = .ok page ∧ (k < certs.length → page ≠ [])

/-- the chain's own page checks out from the set the chain had below it -/
theorem checkPage_own (haudit : AuditedTo c genesis certs certs.length rEnd) {k : ℕ} {set : ValidatorSet}
    (hset : HadAt c genesis certs k set) {page : List QuorumCertificate} (hpage : page <+: certs.drop k) :
    ∃ last, checkPage c set page = .ok last := by
  have hlen := hpage.length_le
  rw [List.length_drop] at hlen
  have hk := hset.1
  obtain ⟨r, -, hhad, -⟩ := audited_had haudit (k := k + page.length) (by omega)
  refine ⟨r.active, ?_⟩
  have hslice : page = slice certs k (k + page.length) := by
    rw [slice, List.drop_take, Nat.add_sub_cancel_left]
    exact List.prefix_iff_eq_take.1 hpage
  rw [hslice]
  exact checkPage_slice (governed_of_audit haudit) (hslice ▸ hhad) (Nat.le_add_right _ _) hset

theorem fetchLoop_own {set : ValidatorSet} {k : ℕ}
    (hcheck : ∀ page, page <+: certs.drop k → ∃ last, checkPage c set page = .ok last) (from_ : ℕ)
    (answers : List (ValidatorMember × Page)) (why : List String) (endOfChain : Bool)
    (hown : ∀ x ∈ answers, ∀ page, x.2 = .ok page → page <+: certs.drop k)
    (hup : endOfChain = true ∨ ∃ x ∈ answers, ∃ page, x.2 = .ok page) :
    ∃ page, fetchLoop c set from_ answers why endOfChain = .ok page ∧ page <+: certs.drop k ∧
      ((∃ x ∈ answers, ∃ page, x.2 = .ok page ∧ page ≠ []) → page ≠ []) := by
  induction answers generalizing why endOfChain with
  | nil =>
    obtain rfl : endOfChain = true := by simpa using hup
    exact ⟨[], rfl, List.nil_prefix, by simp⟩
  | cons x answers ih =>
    obtain ⟨m, answer⟩ := x
    have hrest : ∀ y ∈ answers, ∀ page, y.2 = .ok page → page <+: certs.drop k :=
      fun y hy => hown y (List.mem_cons_of_mem _ hy)
    unfold fetchLoop
    rcases answer with e | _ | ⟨cert, page⟩
    · dsimp only
      obtain ⟨page, hok, hpage, hne⟩ := ih (why ++ [s!"{shortId m.validatorId}: {e}"]) endOfChain hrest (by simpa using hup)
      exact ⟨page, hok, hpage, fun h => hne (by simpa using h)⟩
    · dsimp only
      obtain ⟨page, hok, hpage, hne⟩ := ih _ true hrest (.inl rfl)
      exact ⟨page, hok, hpage, fun h => hne (by simpa using h)⟩
    · have hpage := hown _ List.mem_cons_self _ rfl
      obtain ⟨last, hlast⟩ := hcheck _ hpage
      simp only [hlast]
      exact ⟨_, rfl, hpage, fun _ => List.cons_ne_nil _ _⟩

/-- **A fetch.** It brings the next page of the chain, and an empty one only behind its end. -/
theorem fetch_own (haudit : AuditedTo c genesis certs certs.length rEnd) {seats : Seats} {members : List ValidatorMember}
    (hserves : Serves seats certs members) {k : ℕ} {set : ValidatorSet} (hset : HadAt c genesis certs k set) (fetch : ℕ) :
    ∃ page, fetchCertificates c set (k + 1) (members.map fun m => (m, seats fetch (k + 1) m)) = .ok page ∧
      page <+: certs.drop k ∧ (k < certs.length → page ≠ []) := by
  have hown : ∀ x ∈ members.map (fun m => (m, seats fetch (k + 1) m)), ∀ page, x.2 = .ok page → page <+: certs.drop k := by
    intro x hx page hpage
    obtain ⟨m, hm, rfl⟩ := List.mem_map.1 hx
    exact hserves.own fetch k m hm page hpage
  obtain ⟨m, hm, page, hpage, hne⟩ := hserves.up fetch k
  have hin : (m, seats fetch (k + 1) m) ∈ members.map fun m => (m, seats fetch (k + 1) m) := List.mem_map.2 ⟨m, hm, rfl⟩
  obtain ⟨page', hok, hpage', hne'⟩ := fetchLoop_own (fun page hpage => checkPage_own haudit hset hpage) (k + 1) _ [] false
    hown (.inr ⟨_, hin, page, hpage⟩)
  exact ⟨page', hok, hpage', fun hk => hne' ⟨_, hin, page, hpage, hne hk⟩⟩

/-! ## The two loops -/

/-- a walk along the chain, with the height it has established its set at -/
def OnHeight (c : Crypto) (genesis : ValidatorSet) (certs : List QuorumCertificate) (k : ℕ) (f : Following) : Prop :=
  HadAt c genesis certs k f.active ∧ f.cursor = k ∧ HadAt c genesis certs f.established f.active

theorem OnHeight.certificate (haudit : AuditedTo c genesis certs certs.length rEnd) {k : ℕ} {f : Following}
    (h : OnHeight c genesis certs k f) {cert : QuorumCertificate} (hcert : certs[k]? = some cert) :
    ∃ f', followCertificate c f cert = .ok f' ∧ OnHeight c genesis certs (k + 1) f' := by
  obtain ⟨hactive, hcursor, hest⟩ := h
  obtain ⟨r, -, hhad, -⟩ := audited_had haudit (k := k + 1) (List.getElem?_eq_some_iff.1 hcert).1
  have hnumber : cert.entry.sequence = k + 1 := (governed_of_audit haudit k cert hcert).1
  have hchanges := hactive.changes hcert hhad
  unfold followCertificate
  dsimp only
  split_ifs with hnone
  · rw [hnone] at hchanges
    have hsame : f.active = r.active := Except.ok.inj hchanges
    exact ⟨_, rfl, hsame ▸ hhad, hnumber, hest⟩
  · rw [hchanges]
    exact ⟨_, rfl, hhad, hnumber, by rw [hnumber]; exact hhad⟩

/-- **Following run.** Asked of seats that serve the chain, the walk ends with the set that the chain leaves. -/
theorem refreshLoop_reaches (haudit : AuditedTo c genesis certs certs.length rEnd) {seats : Seats}
    {members : List ValidatorMember} (hserves : Serves seats certs members) (fuel fetch : ℕ) {k : ℕ} {f : Following}
    (hf : OnHeight c genesis certs k f) (hfuel : certs.length - k < fuel) :
    ∃ f', refreshLoop c seats members fuel fetch f = some (.ok f') ∧ OnHeight c genesis certs certs.length f' := by
  induction fuel generalizing fetch k f with
  | zero => omega
  | succ fuel ih =>
    obtain ⟨hactive, hcursor, -⟩ := id hf
    obtain ⟨page, hok, hpage, hne⟩ := fetch_own haudit hserves hactive fetch
    have hk := hactive.1
    have hlen := hpage.length_le
    rw [List.length_drop] at hlen
    unfold refreshLoop
    rw [hcursor, hok]
    cases page with
    | nil =>
      obtain rfl : k = certs.length := by
        by_contra hlt
        exact hne (by omega) rfl
      exact ⟨f, rfl, hf⟩
    | cons cert page =>
      obtain ⟨f₁, hfold, hf₁⟩ := page_runs (Q := OnHeight c genesis certs)
        (fun k f cert hcert h => h.certificate haudit hcert) _ hpage hf
      rw [List.length_cons] at hlen hf₁
      obtain ⟨f', hrest, hf'⟩ := ih (fetch + 1) hf₁ (by omega)
      exact ⟨f', by simp only [hfold, hrest], hf'⟩

/-- **What a client knows once it has followed the chain.** -/
theorem refresh_reaches (haudit : AuditedTo c genesis certs certs.length rEnd) {seats : Seats} {n : LedgerNetwork}
    (hserves : Serves seats certs n.set.members) (hn : HadAt c genesis certs n.setSequence n.set) {fuel : ℕ}
    (hfuel : certs.length < fuel) :
    ∃ n' out, refreshSet c seats fuel n = some (n', out) ∧ HadAt c genesis certs certs.length n'.set ∧
      HadAt c genesis certs n'.setSequence n'.set := by
  obtain ⟨f, hloop, hend, -, hest⟩ := refreshLoop_reaches haudit hserves fuel 0 (f := ⟨n.set, n.setSequence, n.setSequence⟩)
    ⟨hn, rfl, hn⟩ (by omega)
  unfold refreshSet
  rw [hloop, Option.map_some]
  dsimp only
  split_ifs with hsame
  · have hset : f.active = n.set := by
      rw [hsame] at hest
      exact HadAt.unique hest hn
    exact ⟨n, _, rfl, hset ▸ hend, hn⟩
  · exact ⟨_, _, rfl, hend, hest⟩

/-- **Replay run.** In step with an audit of the chain from one end to the other. -/
theorem replay_runs (haudit : AuditedTo c genesis certs certs.length rEnd) (hkeeps : Keeps c certs P) {seats : Seats}
    {members : List ValidatorMember} (hserves : Serves seats certs members) (fuel fetch : ℕ) {k : ℕ} {p : Replaying}
    (hk : k ≤ certs.length) (hp : InStep c genesis certs P k p) (hfuel : certs.length - k < fuel) :
    ∃ p', replay c seats members certs.length fuel fetch p = some (.ok p') ∧ InStep c genesis certs P certs.length p' := by
  induction fuel generalizing fetch k p with
  | zero => omega
  | succ fuel ih =>
    obtain ⟨r, hr, -, -, hnext, hset, -⟩ := id hp
    obtain ⟨r', hr', hhad, -⟩ := audited_had haudit hk
    obtain rfl : r = r' := Except.ok.inj (hr.symm.trans hr')
    unfold replay
    rw [hnext]
    split_ifs with hdone
    · obtain rfl : k = certs.length := by omega
      exact ⟨p, rfl, hp⟩
    · obtain ⟨page, hok, hpage, hne⟩ := fetch_own haudit hserves hhad fetch
      have hlen := hpage.length_le
      rw [List.length_drop] at hlen
      rw [hset, hok]
      cases page with
      | nil => exact absurd rfl (hne (by omega))
      | cons cert page =>
        obtain ⟨p₁, hfold, hp₁⟩ := page_runs (Q := InStep c genesis certs P)
          (fun k p cert hcert h => h.entry haudit hkeeps hcert) _ hpage hp
        rw [List.length_cons] at hlen hp₁
        obtain ⟨p', hrest, hp'⟩ := ih (fetch + 1) (by omega) hp₁ (by omega)
        exact ⟨p', by simp only [hfold, hrest], hp'⟩

/-! ## The first rebuild, and another one -/

/-- where no two shards share an id, the tables are written in step with the audit -/
theorem keeps_written (hnodup : ((allShards c (transactions certs)).map (·.assignmentId)).Nodup) :
    Keeps c certs (Written c) := by
  intro H tx _ _ _ _ _ report hpre hb hp h
  obtain ⟨rest, hrest⟩ := hpre
  refine h.apply hb hp ?_ report
  rw [← hrest, allShards, List.flatMap_append, List.map_append, List.nodup_append] at hnodup
  exact hnodup.1

/-- and over the tables of the whole chain nothing changes -/
theorem keeps_same {t : Tables} {s : LedgerState} (hw : Written c (transactions certs) t)
    (hb : Backed c (transactions certs) s) : Keeps c certs fun _ t' => t' = t := by
  intro H tx _ _ _ _ _ report hpre _ hp h
  subst h
  have htx : tx ∈ transactions certs := hpre.subset (by simp)
  obtain ⟨report', hok⟩ := hw.again hb hp htx report
  exact ⟨_, report', hok, rfl⟩

theorem finalizeJobs_twice (t : Tables) (watermark : Option (ℕ × ValidatorSet)) :
    finalizeJobs { finalizeJobs t with watermark := watermark } = { finalizeJobs t with watermark := watermark } := by
  unfold finalizeJobs
  simp only [List.map_map, Tables.mk.injEq, true_and, and_true]
  refine List.map_congr_left ?_
  intro x _
  simp only [Function.comp_apply]
  split_ifs <;> rfl

theorem Written.finalize {H : List LedgerTransaction} {t : Tables} (h : Written c H t)
    (watermark : Option (ℕ × ValidatorSet)) : Written c H { finalizeJobs t with watermark := watermark } where
  jobs := by
    intro tx htx j rec hrec
    obtain ⟨x, hx, hid⟩ := h.jobs tx htx j rec hrec
    refine ⟨_, List.mem_map.2 ⟨x, hx, rfl⟩, ?_⟩
    split_ifs <;> exact hid
  nodes := h.nodes
  shards := h.shards

theorem inStep_start {t : Tables} {report : RebuildReport} (h : P [] t) :
    InStep c genesis certs P 0 ⟨t, report, 1, genesis⟩ := by
  refine ⟨_, rfl, rfl, ?_, rfl, rfl, h⟩
  exact backed_empty c

/-- a rebuild over an empty database that succeeds, with the shards that the chain certifies, settled as it settled
them; and another one over what it left, by the client it left, that changes nothing -/
def Restores (c : Crypto) (seats : Seats) (fuel : ℕ) (n : LedgerNetwork) (head : ℕ) (H : List LedgerTransaction) : Prop :=
  ∃ n' out t report report', refreshSet c seats fuel n = some (n', out) ∧
    rebuildFromLedger c seats fuel n (.ok head) Tables.empty = some (.ok (t, report)) ∧ t.shards = certifiedShards c H ∧
      rebuildFromLedger c seats fuel n' (.ok head) t = some (.ok (t, report'))

/-- the books of an audit of the whole chain -/
theorem backed_of_audit (haudit : AuditedTo c genesis certs certs.length rEnd) :
    Backed c (transactions certs) rEnd.state := by
  unfold AuditedTo at haudit
  rw [List.take_length] at haudit
  refine foldlM_inv (replayCertificate c) (fun pre r => Backed c (transactions pre) r.state) ?_ certs [] _ rEnd ?_ haudit
  · intro pre r cert r' hb hcert
    simp only [replayCertificate, bind_ok, bailIf_ok, exists_const, exists_ok_unit_and, pure_ok] at hcert
    obtain ⟨-, -, r₁, htxs, rfl⟩ := hcert
    have hsplit : transactions (pre ++ [cert]) = transactions pre ++ cert.entry.transactions := by
      simp [transactions, List.flatMap_append]
    rw [hsplit]
    exact foldlM_inv (Ledger.replayTransaction c cert.entry.previousHash cert.signatures) (fun H r => Backed c H r.state)
      (fun _ _ _ _ hb hstep => hb.step (passed_of_replay hstep)) cert.entry.transactions _ r r₁ hb htxs
  · exact backed_empty c

/-- where the tables of a rebuild end, in step with the audit -/
theorem rebuild_keeps (haudit : AuditedTo c genesis certs certs.length rEnd) (hkeeps : Keeps c certs P) {seats : Seats}
    {n n' : LedgerNetwork} {out : Check Bool} {fuel : ℕ} (hfuel : certs.length < fuel)
    (hrefresh : refreshSet c seats fuel n = some (n', out)) (hset : n'.set = genesis)
    (hserves : Serves seats certs n'.set.members) {t : Tables} (ht : P [] t) :
    ∃ tables report, rebuildFromLedger c seats fuel n (.ok certs.length) t =
        some (.ok ({ finalizeJobs tables with watermark := some (certs.length + 1, rEnd.active) }, report)) ∧
      P (transactions certs) tables := by
  have hstart : InStep c genesis certs P 0 ⟨t, ⟨0, 0, 0, 0⟩, 1, genesis⟩ := inStep_start ht
  obtain ⟨p, hloop, r, hr, -, -, hnext, hend, hp⟩ :=
    replay_runs haudit hkeeps hserves fuel 0 (Nat.zero_le _) hstart (by omega)
  obtain rfl : rEnd = r := Except.ok.inj (haudit.symm.trans hr)
  rw [List.take_length] at hp
  refine ⟨p.tables, { p.report with
    openShards := ((finalizeJobs p.tables).shards.filter fun a => a.status = .pending).length }, ?_, hp⟩
  unfold rebuildFromLedger
  rw [hrefresh]
  dsimp only
  rw [hset] at hloop ⊢
  rw [hloop, Option.map_some, ← hnext, ← hend]
  rfl

/-- **A chain that leads back to its genesis set is restored.** -/
theorem restores_of (haudit : AuditedTo c genesis certs certs.length rEnd) (hset : rEnd.active = genesis)
    (hnodup : ((allShards c (transactions certs)).map (·.assignmentId)).Nodup) {seats : Seats} {n : LedgerNetwork}
    {fuel : ℕ} (hfuel : certs.length < fuel) (hn : HadAt c genesis certs n.setSequence n.set)
    (hserves : Serves seats certs n.set.members) (hserves' : Serves seats certs rEnd.active.members) :
    Restores c seats fuel n certs.length (transactions certs) := by
  obtain ⟨r, hr, hhad, -⟩ := audited_had haudit le_rfl
  obtain rfl : rEnd = r := Except.ok.inj (haudit.symm.trans hr)
  obtain ⟨n', out, hrefresh, hend, hn'⟩ := refresh_reaches haudit hserves hn hfuel
  have hset' : n'.set = genesis := (HadAt.unique hend hhad).trans hset
  rw [hset, ← hset'] at hserves'
  obtain ⟨tables, report, hfirst, hwritten⟩ := rebuild_keeps haudit (keeps_written hnodup) hfuel hrefresh hset' hserves'
    (written_empty c)
  have hwritten' := hwritten.finalize (some (certs.length + 1, rEnd.active))
  obtain ⟨n'', out', hrefresh', hend', -⟩ := refresh_reaches haudit hserves' hn' hfuel
  have hset'' : n''.set = genesis := (HadAt.unique hend' hhad).trans hset
  obtain ⟨tables', report', hsecond, rfl⟩ := rebuild_keeps haudit (keeps_same hwritten' (backed_of_audit haudit)) hfuel
    hrefresh' hset'' (hset''.trans hset'.symm ▸ hserves') rfl
  refine ⟨n', out, _, report, report', hrefresh, hfirst, hwritten'.shards, ?_⟩
  rw [hsecond, finalizeJobs_twice]

/-! ## What is not restored -/

theorem hash_of_verified {cert : QuorumCertificate} {set : ValidatorSet} (h : verifyCertificate c cert set = .ok ()) :
    cert.membershipHash = membershipHash c set := by
  simp only [verifyCertificate, bind_ok, bailIf_ok, exists_const, not_not] at h
  exact h.1

/-- **A chain that leads elsewhere is refused at its first entry.** It is checked against the set the chain leaves. -/
theorem not_rebuilt_of_changed (haudit : AuditedTo c genesis certs certs.length rEnd)
    (hsets : DistinctSets c genesis certs) (hset : rEnd.active ≠ genesis) {seats : Seats} {n : LedgerNetwork} {fuel : ℕ}
    (hfuel : certs.length < fuel) (hn : HadAt c genesis certs n.setSequence n.set)
    (hserves : Serves seats certs n.set.members) (hserves' : Serves seats certs rEnd.active.members)
    (t t' : Tables) (report : RebuildReport) :
    rebuildFromLedger c seats fuel n (.ok certs.length) t ≠ some (.ok (t', report)) := by
  obtain ⟨r, hr, hhad, -⟩ := audited_had haudit le_rfl
  obtain rfl : rEnd = r := Except.ok.inj (haudit.symm.trans hr)
  have hstart : HadAt c genesis certs 0 genesis := ⟨Nat.zero_le _, rfl⟩
  obtain ⟨n', out, hrefresh, hend, -⟩ := refresh_reaches haudit hserves hn hfuel
  have hset' : n'.set = rEnd.active := HadAt.unique hend hhad
  have hlong : 0 < certs.length := by
    by_contra hnil
    have hzero : certs.length = 0 := by omega
    rw [hzero] at hhad
    exact hset (HadAt.unique hhad hstart)
  have hfetch : ∀ page, fetchCertificates c rEnd.active 1 (rEnd.active.members.map fun m => (m, seats 0 1 m)) = .ok page →
      page = [] := by
    intro page hpage
    cases page with
    | nil => rfl
    | cons cert page =>
      obtain ⟨⟨x, hx, hanswer⟩, last, hlast⟩ := fetchLoop_ok _ hpage
      obtain ⟨m, hm, rfl⟩ := List.mem_map.1 hx
      obtain ⟨rest, hrest⟩ := hserves'.own 0 0 m hm _ hanswer
      have hcert : certs[0]? = some cert := by
        rw [← List.drop_zero (l := certs), ← hrest]
        rfl
      obtain ⟨-, set, hfirst, hv⟩ := governed_of_audit haudit 0 cert hcert
      simp only [checkPage, bind_ok, exists_ok_unit_and] at hlast
      have hhash := (hash_of_verified hlast.1).symm.trans (hash_of_verified hv)
      rw [HadAt.unique hfirst hstart] at hhash
      exact absurd (hsets _ _ _ _ hhad hstart hhash) hset
  obtain ⟨fuel, rfl⟩ : ∃ k, fuel = k + 1 := ⟨fuel - 1, by omega⟩
  unfold rebuildFromLedger
  rw [hrefresh]
  dsimp only
  rw [hset', replay, if_neg (Nat.not_lt.2 hlong)]
  cases hpage : fetchCertificates c rEnd.active 1 (rEnd.active.members.map fun m => (m, seats 0 1 m)) with
  | error e => simp [Except.bind, bind]
  | ok page =>
    obtain rfl := hfetch page hpage
    simp [Except.bind, bind]

/-- whatever is replayed, no two rows have one id -/
def ShardIdsApart (t : Tables) : Prop := (t.shards.map (·.assignmentId)).Nodup

theorem applyTransaction_apart {t t' : Tables} {report report' : RebuildReport} {tx : LedgerTransaction}
    (h : ShardIdsApart t) (hok : applyTransaction c t report tx = .ok (t', report')) : ShardIdsApart t' := by
  have hinsert : ∀ (t : Tables) jobId requester systemFunded work shards createdAt, ShardIdsApart t →
      ShardIdsApart (insertJob c t jobId requester systemFunded work shards createdAt) :=
    fun t _ _ _ _ _ _ h => insertShards_nodup _ h
  have hsettle : ∀ {t t' : Tables} {id : String} {status : AssignmentStatus} {result : Option WorkResult}
      {completedAt : ℤ}, ShardIdsApart t → settleShard t id status result completedAt = .ok t' → ShardIdsApart t' := by
    intro t t' id status result completedAt h hok
    unfold settleShard at hok
    split_ifs at hok
    cases hok
    have hids : ∀ f : ShardRow → ShardRow, (∀ a, (f a).assignmentId = a.assignmentId) →
        (t.shards.map f).map (·.assignmentId) = t.shards.map (·.assignmentId) := by
      intro f hf
      simp [Function.comp_def, hf]
    unfold ShardIdsApart
    rw [hids _ fun a => by split_ifs <;> rfl]
    exact h
  unfold applyTransaction at hok
  cases he : tx.evidence with
  | jobReserve e =>
    simp only [he, bind_ok, pure_ok, requesterNode, Prod.mk.injEq] at hok
    obtain ⟨x, ⟨id, -, rfl⟩, rfl, -⟩ := hok
    refine hinsert _ _ _ _ _ _ _ ?_
    dsimp only
    split_ifs <;> exact h
  | communityReserve e =>
    simp only [he, pure_ok, Prod.mk.injEq] at hok
    obtain ⟨rfl, -⟩ := hok
    exact hinsert _ _ _ _ _ _ _ h
  | providerReward e | jobRefund e =>
    simp only [he, bind_ok, pure_ok, Prod.mk.injEq] at hok
    obtain ⟨t₁, hone, rfl, -⟩ := hok
    exact hsettle h hone
  | _ =>
    simp only [he, pure_ok, Prod.mk.injEq] at hok
    obtain ⟨rfl, -⟩ := hok
    exact h

theorem replayEntry_apart {p p' : Replaying} {cert : QuorumCertificate} (h : ShardIdsApart p.tables)
    (hok : replayEntry c p cert = .ok p') : ShardIdsApart p'.tables := by
  simp only [replayEntry, bind_ok, bailIf_ok, exists_const, exists_ok_unit_and, pure_ok] at hok
  obtain ⟨-, -, p₁, htxs, rfl⟩ := hok
  refine foldlM_inv (replayTransaction c cert.entry.previousHash cert.signatures) (fun _ p => ShardIdsApart p.tables) ?_
    cert.entry.transactions [] p p₁ h htxs
  intro _ p tx p' h hstep
  simp only [replayTransaction, bind_ok, exists_ok_unit_and] at hstep
  obtain ⟨-, hstep⟩ := hstep
  split at hstep <;>
  · simp only [bind_ok, pure_ok] at hstep
    obtain ⟨-, -, ⟨t', report'⟩, hok, rfl⟩ := hstep
    exact applyTransaction_apart h hok

theorem replay_apart {seats : Seats} {members : List ValidatorMember} {head : ℕ} (fuel fetch : ℕ) {p p' : Replaying}
    (h : ShardIdsApart p.tables) (hok : replay c seats members head fuel fetch p = some (.ok p')) :
    ShardIdsApart p'.tables := by
  induction fuel generalizing fetch p with
  | zero => cases hok
  | succ fuel ih =>
    unfold replay at hok
    split_ifs at hok
    · cases hok
      exact h
    · split at hok
      · cases hok
      · cases hok
      · rename_i cert page _
        split at hok
        · cases hok
        · rename_i p₁ hfold
          refine ih (fetch + 1) ?_ hok
          exact foldlM_inv (replayEntry c) (fun _ p => ShardIdsApart p.tables)
            (fun _ _ _ _ h hstep => replayEntry_apart h hstep) (cert :: page) [] p p₁ h hfold

/-- **Shards that share an id are not all restored.** -/
theorem rebuilt_apart {seats : Seats} {n : LedgerNetwork} {fuel : ℕ} {head : Check ℕ} {t : Tables} {report : RebuildReport}
    (hok : rebuildFromLedger c seats fuel n head Tables.empty = some (.ok (t, report))) : ShardIdsApart t := by
  unfold rebuildFromLedger at hok
  split at hok
  · cases hok
  · split at hok
    · cases hok
    · obtain ⟨done, hdone, hmap⟩ := Option.map_eq_some_iff.1 hok
      simp only [bind_ok, pure_ok, Prod.mk.injEq] at hmap
      obtain ⟨p, rfl, rfl, -⟩ := hmap
      refine replay_apart _ _ ?_ hdone
      exact List.nodup_nil

end

/-- **Which chains a rebuild restores.** Of the chains that pass audit from the genesis set, served by the seats the
client asks, those whose changes of membership lead back to the genesis set and whose shards have ids of their own. -/
theorem restores_iff {c : Crypto} {genesis : ValidatorSet} {st : LedgerStore} {head : LedgerHead} {seats : Seats}
    {n : LedgerNetwork} {fuel : ℕ} (haudit : st.audit c genesis = .ok head)
    (hsets : DistinctSets c genesis (st.certificatesFrom 1))
    (hn : HadAt c genesis (st.certificatesFrom 1) n.setSequence n.set)
    (hserves : Serves seats (st.certificatesFrom 1) n.set.members)
    (hserves' : ∀ set, HadAt c genesis (st.certificatesFrom 1) head.sequence set →
      Serves seats (st.certificatesFrom 1) set.members) (hfuel : head.sequence < fuel) :
    Restores c seats fuel n head.sequence (audited st) ↔
      HadAt c genesis (st.certificatesFrom 1) head.sequence genesis ∧
        ((allShards c (audited st)).map (·.assignmentId)).Nodup := by
  obtain ⟨-, r, kept, hr, -, -, rfl⟩ := audit_ok.1 haudit
  have hfull : AuditedTo c genesis (st.certificatesFrom 1) (st.certificatesFrom 1).length r := by
    rw [AuditedTo, List.take_length]
    exact hr
  obtain ⟨r', hr', hhad, hseq⟩ := audited_had hfull le_rfl
  obtain rfl : r = r' := Except.ok.inj (hfull.symm.trans hr')
  simp only [hseq] at hserves' hfuel ⊢
  have hall : transactions (st.certificatesFrom 1) = audited st := rfl
  constructor
  · rintro ⟨n', out, t, report, report', -, hok, hshards, -⟩
    constructor
    · by_contra hother
      refine not_rebuilt_of_changed hfull hsets ?_ hfuel hn hserves (hserves' _ hhad) Tables.empty t report hok
      rintro heq
      exact hother (heq ▸ hhad)
    · rw [← certifiedShards_ids, ← hshards]
      exact rebuilt_apart hok
  · rintro ⟨hback, hnodup⟩
    rw [← hall] at hnodup ⊢
    exact restores_of hfull (HadAt.unique hhad hback) hnodup hfuel hn hserves (hserves' _ hhad)

/-! ## A settled shard, and a member that joins -/

/-- every seat has the whole chain, and sends it one entry at a time -/
def oneByOne (certs : List QuorumCertificate) : Seats := fun _ from_ _ => .ok ((certs.drop (from_ - 1)).take 1)

theorem oneByOne_serves {certs : List QuorumCertificate} {members : List ValidatorMember} (h : members ≠ []) :
    Serves (oneByOne certs) certs members where
  own := by
    intro _ k _ _ page hpage
    cases hpage
    exact List.take_prefix _ _
  up := by
    intro _ k
    obtain ⟨m, hm⟩ := List.exists_mem_of_ne_nil _ h
    refine ⟨m, hm, _, rfl, ?_⟩
    intro hlt hnil
    have := congrArg List.length hnil
    simp only [List.length_take, List.length_drop, List.length_nil] at this
    omega

/-- a client that has been given the genesis set -/
def newClient : LedgerNetwork := ⟨Protocol.Sample.committee 1, 0, "client", 0⟩

/-- a chain with one community job, its only shard settled, is restored -/
theorem restores_iff_settled : ∃ st head, st.audit Sample.crypto (Sample.committee 1) = .ok head ∧
    audited st = [Sample.smallMint, Sample.smallReward 5] ∧
    Restores Sample.crypto (oneByOne (st.certificatesFrom 1)) 2 newClient head.sequence (audited st) := by
  have hrun : (LedgerStore.empty.apply Sample.crypto (Sample.certify (Sample.committee 1) [0] LedgerStore.empty
      [Sample.smallMint, Sample.smallReward 5]) (Sample.committee 1)).okWith (fun st =>
        audited st = [Sample.smallMint, Sample.smallReward 5] ∧ (st.certificatesFrom 1).length = 1 ∧
        ((allShards Sample.crypto (audited st)).map (·.assignmentId)).Nodup ∧
        (∀ h ≤ 2, chainSet Sample.crypto (Sample.committee 1) (st.certificatesFrom 1) h = .ok (Sample.committee 1)) ∧
        (st.audit Sample.crypto (Sample.committee 1)).okWith (fun head => head.sequence = 1) = true) = true := by
    decide +kernel
  obtain ⟨st, -, hst⟩ := (okWith_iff _ _).1 hrun
  obtain ⟨hhistory, hlen, hnodup, hchain, haudit⟩ := of_decide_eq_true hst
  obtain ⟨head, hhead, hseq⟩ := (okWith_iff _ _).1 haudit
  have hseq : head.sequence = 1 := of_decide_eq_true hseq
  have hmembers : (Sample.committee 1).members ≠ [] := by decide +kernel
  have hback : HadAt Sample.crypto (Sample.committee 1) (st.certificatesFrom 1) 1 (Sample.committee 1) :=
    ⟨hlen.ge, hchain 1 (by omega)⟩
  have hsets : DistinctSets Sample.crypto (Sample.committee 1) (st.certificatesFrom 1) :=
    Network.Sample.distinctSets_of (by omega) fun h hle => .inl (hchain h hle)
  refine ⟨st, head, hhead, hhistory, (restores_iff hhead hsets ?_ (oneByOne_serves hmembers) ?_ (by omega)).2 ⟨?_, hnodup⟩⟩
  · exact ⟨Nat.zero_le _, rfl⟩
  · intro set hset
    rw [hseq] at hset
    rw [HadAt.unique hset hback]
    exact oneByOne_serves hmembers
  · rw [hseq]
    exact hback

/-- a chain whose one entry admits a member passes audit, is served by every seat, and is not restored -/
theorem join_not_restored : ∃ st head, st.audit Sample.crypto (Sample.committee 1) = .ok head ∧
    HadAt Sample.crypto (Sample.committee 1) (st.certificatesFrom 1) newClient.setSequence newClient.set ∧
    (∀ members, members ≠ [] → Serves (oneByOne (st.certificatesFrom 1)) (st.certificatesFrom 1) members) ∧
    ¬ Restores Sample.crypto (oneByOne (st.certificatesFrom 1)) 2 newClient head.sequence (audited st) := by
  have hrun : (Books.Sample.applyBatches Sample.crypto (Sample.committee 1) (Books.Sample.joinAndLeave.take 1)).okWith
      (fun p => (p.2.audit Sample.crypto (Sample.committee 1)).okWith (fun head =>
        !(rebuildFromLedger Sample.crypto (oneByOne (p.2.certificatesFrom 1)) 2 newClient (.ok head.sequence)
          Tables.empty).any (Check.okWith fun _ => true)) = true) = true := by
    decide +kernel
  obtain ⟨⟨certs, st⟩, -, hst⟩ := (okWith_iff _ _).1 hrun
  obtain ⟨head, hhead, hfails⟩ := (okWith_iff _ _).1 (of_decide_eq_true hst)
  refine ⟨st, head, hhead, ⟨Nat.zero_le _, rfl⟩, fun members h => oneByOne_serves h, ?_⟩
  rintro ⟨n', out, t, report, report', -, hok, -⟩
  rw [hok] at hfails
  cases hfails

end Hocmesh.Coordinator.Rebuild
