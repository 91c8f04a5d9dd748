/-
How a client follows the validator set (`hocmesh-ledger/src/network.rs`): `fetch_certificates` and `refresh_set`.

The seats are asked in turn and need not be trusted: a page counts only if each certificate in it verifies against the
set its predecessors leave. What a page is not checked for is that it answers the question. Nothing compares the heights
in it with the height asked for, or with each other, so a seat may send entries the client has already walked past.
Replayed entries still lead to a set the chain once had; they do not lead forward. `Ascending` is what an honest seat
sends, and it is what makes the walk end.

Heights are natural numbers here: `cursor + 1` is a `u64` in the code, and a stored height fits an SQLite integer.
-/
import Hocmesh.Network.Client
import Hocmesh.Books.Vouches

namespace Hocmesh.Network

open Hocmesh.Base Hocmesh.Protocol Hocmesh.Ledger Hocmesh.Books

section

variable (c : Crypto)

/-! ## Fetching a page -/

/-- what a seat answers a request for entries: a page, or why there is none -/
abbrev Page := Except String (List QuorumCertificate)

/-- a page checked against the set that governed each of its certificates -/
def checkPage : ValidatorSet → List QuorumCertificate → Check ValidatorSet
  | active, [] => .ok active
  | active, cert :: rest => do
    verifyCertificate c cert active
    let next ← cert.entry.transactions.foldlM (fun set tx => match tx.evidence with
      | .membershipChange e => verifyMembershipChange c set e
      | _ => pure set) active
    checkPage next rest

/-- the loop over the seats, with the refusals so far and whether one of them had reached the end of the chain -/
def fetchLoop (active : ValidatorSet) (from_ : ℕ) :
    List (ValidatorMember × Page) → (why : List String) → (endOfChain : Bool) → Check (List QuorumCertificate)
  | [], why, endOfChain =>
    if endOfChain then .ok []
    else
      let text := if why = [] then "the set is empty" else "; ".intercalate why
      .error s!"no validator could provide ledger entries from height {from_} ({text})"
  | (m, answer) :: rest, why, endOfChain =>
    let seat := shortId m.validatorId
    match answer with
    | .error e => fetchLoop active from_ rest (why ++ [s!"{seat}: {e}"]) endOfChain
    | .ok [] => fetchLoop active from_ rest (why ++ [s!"{seat}: nothing at height {from_}"]) true
    | .ok (cert :: page) =>
      match checkPage c active (cert :: page) with
      | .error e => fetchLoop active from_ rest (why ++ [s!"{seat}: served history that does not verify ({e})"]) endOfChain
      | .ok _ => .ok (cert :: page)

/-- `fetch_certificates`: the members asked, in order, each with its answer -/
def fetchCertificates (active : ValidatorSet) (from_ : ℕ) (answers : List (ValidatorMember × Page)) :
    Check (List QuorumCertificate) :=
  fetchLoop c active from_ answers [] false

/-! ## Following the chain -/

/-- where `refresh_set` stands: the set it has walked to, the height that set was established at, and the last height it
has looked at -/
structure Following where
  active : ValidatorSet
  established : ℕ
  cursor : ℕ
deriving DecidableEq

/-- only an entry that changes the set moves it -/
def followCertificate (f : Following) (cert : QuorumCertificate) : Check Following :=
  let changes := cert.entry.transactions.filterMap changeOf
  if changes = [] then .ok { f with cursor := cert.entry.sequence }
  else do
    let active ← changes.foldlM (verifyMembershipChange c) f.active
    pure ⟨active, cert.entry.sequence, cert.entry.sequence⟩

/-- the seats as a client meets them: what each member answers the `i`-th fetch, asked for the entries from a height on -/
abbrev Seats := ℕ → ℕ → ValidatorMember → Page

/-- the loop of `refresh_set`, for at most `fuel` fetches from the members of the set the client holds -/
def refreshLoop (seats : Seats) (members : List ValidatorMember) : (fuel fetch : ℕ) → Following → Option (Check Following)
  | 0, _, _ => none
  | fuel + 1, fetch, f =>
    match fetchCertificates c f.active (f.cursor + 1) (members.map fun m => (m, seats fetch (f.cursor + 1) m)) with
    | .error e => some (.error e)
    | .ok [] => some (.ok f)
    | .ok (cert :: page) =>
      match (cert :: page).foldlM (followCertificate c) f with
      | .error e => some (.error e)
      | .ok f' => refreshLoop seats members fuel (fetch + 1) f'

/-- `refresh_set`: the client it leaves and what it returns, or nothing if `fuel` fetches were not enough -/
def refreshSet (seats : Seats) (fuel : ℕ) (n : LedgerNetwork) : Option (LedgerNetwork × Check Bool) :=
  (refreshLoop c seats n.set.members fuel 0 ⟨n.set, n.setSequence, n.setSequence⟩).map fun
    | .error e => (n, .error e)
    | .ok f =>
      if f.established = n.setSequence then (n, .ok false)
      else ({ n with set := f.active, setSequence := f.established }, .ok true)

/-! ## The chain's own sets -/

/-- the set the first `h` certificates of a chain leave -/
def chainSet (genesis : ValidatorSet) (certs : List QuorumCertificate) (h : ℕ) : Check ValidatorSet :=
  (((certs.take h).flatMap changesIn).map (·.2)).foldlM (verifyMembershipChange c) genesis

/-- the set a chain had at a height it has reached -/
def HadAt (genesis : ValidatorSet) (certs : List QuorumCertificate) (h : ℕ) (set : ValidatorSet) : Prop :=
  h ≤ certs.length ∧ chainSet c genesis certs h = .ok set

/-- no signature was forged and no height was certified twice: what verifies under a set the chain has had is an entry
of the chain, signed under the membership it was certified with -/
def Unforged (genesis : ValidatorSet) (certs : List QuorumCertificate) (cert : QuorumCertificate) : Prop :=
  ∀ h set, HadAt c genesis certs h set → verifyCertificate c cert set = .ok () →
    ∃ own ∈ certs, own.entry = cert.entry ∧ own.membershipHash = cert.membershipHash

/-- every certificate of a chain is at its height, and was certified by the set the chain had below it -/
def Governed (genesis : ValidatorSet) (certs : List QuorumCertificate) : Prop :=
  ∀ j cert, certs[j]? = some cert → cert.entry.sequence = j + 1 ∧
    ∃ set, HadAt c genesis certs j set ∧ verifyCertificate c cert set = .ok ()

/-- two sets of the chain with one membership hash are one set -/
def DistinctSets (genesis : ValidatorSet) (certs : List QuorumCertificate) : Prop :=
  ∀ h k set set', HadAt c genesis certs h set → HadAt c genesis certs k set' →
    membershipHash c set = membershipHash c set' → set = set'

end

/-- a page that goes forward from a height: each certificate above the one before it -/
def Ascending : ℕ → List QuorumCertificate → Prop
  | _, [] => True
  | from_, cert :: rest => from_ ≤ cert.entry.sequence ∧ Ascending (cert.entry.sequence + 1) rest

/-- every page a seat returns goes forward from the height it was asked for -/
def Seats.Forward (seats : Seats) : Prop :=
  ∀ i from_ m page, seats i from_ m = .ok page → Ascending from_ page

/-- every certificate the seats send -/
def Seats.Sends (seats : Seats) (cert : QuorumCertificate) : Prop :=
  ∃ i from_ m page, seats i from_ m = .ok page ∧ cert ∈ page

section

variable {c : Crypto} {genesis : ValidatorSet} {certs : List QuorumCertificate} {st : LedgerStore}

theorem changeFold (txs : List LedgerTransaction) (set : ValidatorSet) :
    txs.foldlM (fun set tx => match tx.evidence with
      | .membershipChange e => verifyMembershipChange c set e
      | _ => pure set) set = (txs.filterMap changeOf).foldlM (verifyMembershipChange c) set := by
  induction txs generalizing set with
  | nil => rfl
  | cons tx txs ih =>
    rw [List.foldlM_cons]
    cases he : tx.evidence with
    | membershipChange e =>
      have hsome : changeOf tx = some e := by simp only [changeOf, he]
      rw [List.filterMap_cons_some hsome, List.foldlM_cons]
      simp only [ih]
    | _ =>
      have hnone : changeOf tx = none := by simp only [changeOf, he]
      rw [List.filterMap_cons_none hnone]
      simp only [pure_bind, ih]

/-- an entry's changes lead from the chain's set before it to the one after it -/
theorem HadAt.next {h : ℕ} {set next : ValidatorSet} {cert : QuorumCertificate} (hset : HadAt c genesis certs h set)
    (hcert : certs[h]? = some cert)
    (hnext : (cert.entry.transactions.filterMap changeOf).foldlM (verifyMembershipChange c) set = .ok next) :
    HadAt c genesis certs (h + 1) next := by
  obtain ⟨hlt, hget⟩ := List.getElem?_eq_some_iff.1 hcert
  refine ⟨hlt, ?_⟩
  unfold chainSet
  rw [List.take_add_one, hcert, List.flatMap_append, List.map_append, foldlM_append_ok]
  refine ⟨set, hset.2, ?_⟩
  simpa [changesIn, Function.comp_def] using hnext

theorem chainSet_append (more : List QuorumCertificate) {h : ℕ} (hle : h ≤ certs.length) :
    chainSet c genesis (certs ++ more) h = chainSet c genesis certs h := by
  unfold chainSet
  rw [List.take_append_of_le_length hle]

/-- an applied chain is governed, up to the head of its store -/
theorem Applied.governed (h : Applied c genesis certs st) :
    certs.length = st.headSequence ∧ Governed c genesis certs := by
  induction h with
  | empty => simp [LedgerStore.empty, LedgerStore.headSequence, Governed]
  | @apply certs st st' cert hold hap ih =>
    obtain ⟨hlen, hall⟩ := ih
    obtain ⟨next, balances, hok, rfl⟩ := apply_ok.1 hap
    refine ⟨?_, ?_⟩
    · rw [headSequence_commitRows, hok.sequence, List.length_append, List.length_singleton, hlen]
    · intro j x hx
      rcases Nat.lt_or_ge j certs.length with hlt | hge
      · rw [List.getElem?_append_left hlt] at hx
        obtain ⟨hseq, set, ⟨hle, hset⟩, hv⟩ := hall j x hx
        refine ⟨hseq, set, ⟨?_, ?_⟩, hv⟩
        · rw [List.length_append]
          omega
        · rw [chainSet_append _ hle]
          exact hset
      · rw [List.getElem?_append_right hge, List.getElem?_singleton] at hx
        split_ifs at hx with h0
        cases hx
        obtain rfl : j = certs.length := by omega
        refine ⟨by rw [hok.sequence, hlen], sittingSet genesis st, ⟨by simp, ?_⟩, hok.certified⟩
        rw [chainSet_append _ le_rfl, chainSet, List.take_length]
        exact hold.follows.2

/-- a certificate that verifies under a set the chain has had is the chain's at its own height, where it had that set -/
theorem Unforged.placed {cert : QuorumCertificate} (hu : Unforged c genesis certs cert)
    (hchain : Applied c genesis certs st) (hsets : DistinctSets c genesis certs) {h : ℕ} {set : ValidatorSet}
    (hset : HadAt c genesis certs h set) (hv : verifyCertificate c cert set = .ok ()) :
    ∃ j own, certs[j]? = some own ∧ own.entry = cert.entry ∧ cert.entry.sequence = j + 1 ∧
      HadAt c genesis certs j set := by
  have hash : ∀ {cert : QuorumCertificate} {set : ValidatorSet}, verifyCertificate c cert set = .ok () →
      cert.membershipHash = membershipHash c set := by
    intro cert set hv
    simp only [verifyCertificate, bind_ok, bailIf_ok, exists_const, not_not] at hv
    exact hv.1
  obtain ⟨own, hin, hentry, hmember⟩ := hu h set hset hv
  obtain ⟨j, hj⟩ := List.mem_iff_getElem?.1 hin
  obtain ⟨hseq, set', hset', hv'⟩ := (Applied.governed hchain).2 j own hj
  have hsame : set = set' := hsets h j set set' hset hset' (by rw [← hash hv, ← hash hv', hmember])
  exact ⟨j, own, hj, hentry, by rw [← hentry]; exact hseq, hsame ▸ hset'⟩

/-! ## One page -/

/-- a page that is returned was sent by a seat and checked -/
theorem fetchLoop_ok {active : ValidatorSet} {from_ : ℕ} (answers : List (ValidatorMember × Page)) {why : List String}
    {endOfChain : Bool} {cert : QuorumCertificate} {page : List QuorumCertificate}
    (h : fetchLoop c active from_ answers why endOfChain = .ok (cert :: page)) :
    (∃ x ∈ answers, x.2 = .ok (cert :: page)) ∧ ∃ last, checkPage c active (cert :: page) = .ok last := by
  induction answers generalizing why endOfChain with
  | nil =>
    unfold fetchLoop at h
    split_ifs at h
    cases h
  | cons x answers ih =>
    have hskip : ∀ {why endOfChain}, fetchLoop c active from_ answers why endOfChain = .ok (cert :: page) →
        (∃ y ∈ x :: answers, y.2 = .ok (cert :: page)) ∧ ∃ last, checkPage c active (cert :: page) = .ok last := by
      intro why endOfChain hrest
      obtain ⟨⟨y, hy, hpage⟩, hlast⟩ := ih hrest
      exact ⟨⟨y, List.mem_cons_of_mem _ hy, hpage⟩, hlast⟩
    unfold fetchLoop at h
    dsimp only at h
    split at h
    · exact hskip h
    · exact hskip h
    · rename_i cert' page' hanswer
      split at h
      · exact hskip h
      · rename_i last hlast
        cases h
        exact ⟨⟨x, List.mem_cons_self .., hanswer⟩, last, hlast⟩

/-- the set a client has walked to is the one the chain had where it says -/
def OnChain (c : Crypto) (genesis : ValidatorSet) (certs : List QuorumCertificate) (f : Following) : Prop :=
  HadAt c genesis certs f.established f.active ∧ f.cursor ≤ certs.length

/-- **Step.** One checked certificate keeps the walk on the chain, and the cursor at its height. -/
theorem OnChain.certificate {f : Following} (hf : OnChain c genesis certs f) (hchain : Applied c genesis certs st)
    (hsets : DistinctSets c genesis certs) {cert : QuorumCertificate} (hu : Unforged c genesis certs cert)
    (hv : verifyCertificate c cert f.active = .ok ()) {next : ValidatorSet}
    (hnext : (cert.entry.transactions.filterMap changeOf).foldlM (verifyMembershipChange c) f.active = .ok next) :
    ∃ f', followCertificate c f cert = .ok f' ∧ OnChain c genesis certs f' ∧ f'.active = next ∧
      f'.cursor = cert.entry.sequence ∧ (f'.established = f.established ∨ f'.established = cert.entry.sequence) := by
  obtain ⟨j, own, hj, hentry, hseq, hset⟩ := hu.placed hchain hsets hf.1 hv
  have hlt := (List.getElem?_eq_some_iff.1 hj).1
  unfold followCertificate
  dsimp only
  split_ifs with hnone
  · rw [hnone] at hnext
    cases hnext
    exact ⟨_, rfl, ⟨hf.1, by simp only; omega⟩, rfl, rfl, Or.inl rfl⟩
  · rw [hnext]
    refine ⟨_, rfl, ⟨?_, by simp only; omega⟩, rfl, rfl, Or.inr rfl⟩
    simp only [hseq]
    exact hset.next hj (by rw [hentry]; exact hnext)

/-- **A page.** It is walked to its end, and when it goes forward so does the walk. -/
theorem OnChain.page (hchain : Applied c genesis certs st) (hsets : DistinctSets c genesis certs)
    (page : List QuorumCertificate) {f : Following} (hf : OnChain c genesis certs f)
    (hu : ∀ cert ∈ page, Unforged c genesis certs cert) {last : ValidatorSet}
    (hcheck : checkPage c f.active page = .ok last) :
    ∃ f', page.foldlM (followCertificate c) f = .ok f' ∧ OnChain c genesis certs f' ∧ f'.active = last ∧
      (f.established ≤ f.cursor → Ascending (f.cursor + 1) page →
        f.established ≤ f'.established ∧ f'.established ≤ f'.cursor ∧ f.cursor + page.length ≤ f'.cursor) := by
  induction page generalizing f with
  | nil =>
    cases hcheck
    exact ⟨f, rfl, hf, rfl, fun hle _ => ⟨le_rfl, hle, le_rfl⟩⟩
  | cons cert page ih =>
    simp only [checkPage, bind_ok, exists_ok_unit_and, changeFold] at hcheck
    obtain ⟨hv, next, hnext, hrest⟩ := hcheck
    obtain ⟨f₁, hone, hf₁, hactive, hcursor, hest⟩ := hf.certificate hchain hsets (hu cert (List.mem_cons_self ..)) hv hnext
    rw [← hactive] at hrest
    obtain ⟨f', hfold, hf', hlast, hforward⟩ := ih hf₁ (fun x hx => hu x (List.mem_cons_of_mem _ hx)) hrest
    refine ⟨f', ?_, hf', hlast, ?_⟩
    · rw [List.foldlM_cons, bind_ok]
      exact ⟨f₁, hone, hfold⟩
    · intro hle hasc
      obtain ⟨hge, hup⟩ := hasc
      rw [← hcursor] at hup
      have hle₁ : f₁.established ≤ f₁.cursor := by omega
      obtain ⟨h1, h2, h3⟩ := hforward hle₁ hup
      rw [List.length_cons]
      refine ⟨by omega, h2, by omega⟩

/-! ## Whole walks -/

variable {n : LedgerNetwork} {seats : Seats}

/-- one turn of the loop, when its fetch brings a page -/
theorem refreshLoop_page (hchain : Applied c genesis certs st) (hsets : DistinctSets c genesis certs)
    (hu : ∀ cert, seats.Sends cert → Unforged c genesis certs cert) {members : List ValidatorMember} {f : Following}
    (hf : OnChain c genesis certs f) {fetch : ℕ} {cert : QuorumCertificate} {page : List QuorumCertificate}
    (hpage : fetchCertificates c f.active (f.cursor + 1) (members.map fun m => (m, seats fetch (f.cursor + 1) m)) =
      .ok (cert :: page)) :
    ∃ m last f', seats fetch (f.cursor + 1) m = .ok (cert :: page) ∧ checkPage c f.active (cert :: page) = .ok last ∧
      (cert :: page).foldlM (followCertificate c) f = .ok f' ∧ OnChain c genesis certs f' ∧
      (f.established ≤ f.cursor → Ascending (f.cursor + 1) (cert :: page) →
        f.established ≤ f'.established ∧ f'.established ≤ f'.cursor ∧ f.cursor < f'.cursor) := by
  obtain ⟨⟨x, hx, hanswer⟩, last, hcheck⟩ := fetchLoop_ok _ hpage
  obtain ⟨m, _, rfl⟩ := List.mem_map.1 hx
  have hsent : ∀ y ∈ cert :: page, Unforged c genesis certs y := fun y hy => hu y ⟨_, _, m, _, hanswer, hy⟩
  obtain ⟨f', hfold, hf', _, hforward⟩ := OnChain.page hchain hsets (cert :: page) hf hsent hcheck
  refine ⟨m, last, f', hanswer, hcheck, hfold, hf', ?_⟩
  intro hle hasc
  obtain ⟨h1, h2, h3⟩ := hforward hle hasc
  rw [List.length_cons] at h3
  exact ⟨h1, h2, by omega⟩

/-- **Run.** However the seats answer, a walk that ends, ends on a set the chain had. -/
theorem refreshLoop_onChain (hchain : Applied c genesis certs st) (hsets : DistinctSets c genesis certs)
    (hu : ∀ cert, seats.Sends cert → Unforged c genesis certs cert) {members : List ValidatorMember} (fuel : ℕ)
    {fetch : ℕ} {f f' : Following} (hf : OnChain c genesis certs f)
    (h : refreshLoop c seats members fuel fetch f = some (.ok f')) : OnChain c genesis certs f' := by
  induction fuel generalizing fetch f with
  | zero => cases h
  | succ fuel ih =>
    unfold refreshLoop at h
    split at h
    · cases h
    · cases h
      exact hf
    · rename_i cert page hpage
      obtain ⟨_, _, g, _, _, hfold, hg, _⟩ := refreshLoop_page hchain hsets hu hf hpage
      rw [hfold] at h
      exact ih hg h

/-- **Run.** If every page brought goes forward, the walk ends before the chain does, and no lower than it began; `J` is
whatever else the walk keeps that makes its pages do so. -/
theorem refreshLoop_ends (hchain : Applied c genesis certs st) (hsets : DistinctSets c genesis certs)
    (hu : ∀ cert, seats.Sends cert → Unforged c genesis certs cert) (members : List ValidatorMember)
    {J : Following → Prop}
    (hJ : ∀ fetch f m page last f', OnChain c genesis certs f → J f → seats fetch (f.cursor + 1) m = .ok page →
      checkPage c f.active page = .ok last → page.foldlM (followCertificate c) f = .ok f' →
      Ascending (f.cursor + 1) page ∧ J f')
    (fuel fetch : ℕ) {f : Following} (hf : OnChain c genesis certs f) (hj : J f) (hle : f.established ≤ f.cursor)
    (hfuel : certs.length - f.cursor < fuel) :
    ∃ out, refreshLoop c seats members fuel fetch f = some out ∧ ∀ f', out = .ok f' → f.established ≤ f'.established := by
  induction fuel generalizing fetch f with
  | zero => omega
  | succ fuel ih =>
    unfold refreshLoop
    split
    · exact ⟨_, rfl, by simp⟩
    · exact ⟨_, rfl, fun f' heq => by cases heq; exact le_rfl⟩
    · rename_i cert page hpage
      obtain ⟨m, last, g, hsent, hcheck, hfold, hg, hforward⟩ := refreshLoop_page hchain hsets hu hf hpage
      obtain ⟨hasc, hjg⟩ := hJ fetch f m _ last g hf hj hsent hcheck hfold
      obtain ⟨hup, hle', hcursor⟩ := hforward hle hasc
      have hreach := hg.2
      obtain ⟨out, hout, hend⟩ := ih (fetch + 1) hg hjg hle' (by omega)
      rw [hfold]
      exact ⟨out, hout, fun f' heq => hup.trans (hend f' heq)⟩

/-- `refresh_set` ends after finitely many fetches, at a height no lower than it began, with the set the chain had
there -/
def Safe (c : Crypto) (genesis : ValidatorSet) (certs : List QuorumCertificate) (seats : Seats) (n : LedgerNetwork) :
    Prop :=
  ∃ fuel n' out, refreshSet c seats fuel n = some (n', out) ∧ n.setSequence ≤ n'.setSequence ∧
    HadAt c genesis certs n'.setSequence n'.set

/-- a walk that ends no lower than it began leaves the client where the claim wants it -/
theorem safe_of_ends (hchain : Applied c genesis certs st) (hsets : DistinctSets c genesis certs)
    (hu : ∀ cert, seats.Sends cert → Unforged c genesis certs cert) (hstart : HadAt c genesis certs n.setSequence n.set)
    {fuel : ℕ} {out : Check Following}
    (hloop : refreshLoop c seats n.set.members fuel 0 ⟨n.set, n.setSequence, n.setSequence⟩ = some out)
    (hup : ∀ f', out = .ok f' → n.setSequence ≤ f'.established) : Safe c genesis certs seats n := by
  have hf : OnChain c genesis certs ⟨n.set, n.setSequence, n.setSequence⟩ := ⟨hstart, hstart.1⟩
  cases out with
  | error e => exact ⟨fuel, n, .error e, by simp [refreshSet, hloop], le_rfl, hstart⟩
  | ok f' =>
    have hf' := refreshLoop_onChain hchain hsets hu fuel hf hloop
    by_cases hsame : f'.established = n.setSequence
    · exact ⟨fuel, n, .ok false, by simp [refreshSet, hloop, hsame], le_rfl, hstart⟩
    · refine ⟨fuel, { n with set := f'.active, setSequence := f'.established }, .ok true, ?_, hup f' rfl, hf'.1⟩
      simp [refreshSet, hloop, hsame]

/-- seats that answer forward are safe to follow -/
theorem Seats.Forward.safe (hforward : seats.Forward) (hchain : Applied c genesis certs st)
    (hsets : DistinctSets c genesis certs) (hu : ∀ cert, seats.Sends cert → Unforged c genesis certs cert)
    (hstart : HadAt c genesis certs n.setSequence n.set) : Safe c genesis certs seats n := by
  have hf : OnChain c genesis certs ⟨n.set, n.setSequence, n.setSequence⟩ := ⟨hstart, hstart.1⟩
  obtain ⟨out, hloop, hup⟩ := refreshLoop_ends (J := fun _ => True) hchain hsets hu n.set.members
    (fun fetch f m page _ _ _ _ hsent _ _ => ⟨hforward fetch _ m page hsent, trivial⟩)
    (certs.length - n.setSequence + 1) 0 hf trivial le_rfl (Nat.lt_succ_self _)
  exact safe_of_ends hchain hsets hu hstart hloop hup

/-! ## Sets that come back -/

/-- from a height on, the chain never has a set it had before -/
def NewSets (c : Crypto) (genesis : ValidatorSet) (certs : List QuorumCertificate) (k : ℕ) : Prop :=
  ∀ i j set, k ≤ i → j < i → HadAt c genesis certs i set → ¬ HadAt c genesis certs j set

/-- with every set new, a set says which height it belongs to -/
theorem NewSets.height {k : ℕ} (hnew : NewSets c genesis certs k) {i j : ℕ} {set : ValidatorSet} (hk : k ≤ i)
    (hi : HadAt c genesis certs i set) (hj : HadAt c genesis certs j set) : j = i := by
  rcases Nat.lt_trichotomy j i with hlt | heq | hgt
  · exact absurd hj (hnew i j set hk hlt hi)
  · exact heq
  · exact absurd hi (hnew j i set (by omega) hgt hj)

/-- with every set new, a certificate that verifies is the next one, and it changes the set -/
theorem NewSets.certificate {k : ℕ} (hnew : NewSets c genesis certs k) (hchain : Applied c genesis certs st)
    (hsets : DistinctSets c genesis certs) {f f' : Following} (hf : OnChain c genesis certs f) (hk : k ≤ f.established)
    {cert : QuorumCertificate} (hu : Unforged c genesis certs cert) (hv : verifyCertificate c cert f.active = .ok ())
    (hfollow : followCertificate c f cert = .ok f') :
    cert.entry.sequence = f.established + 1 ∧ f'.established = f.established + 1 ∧ f'.cursor = f.established + 1 := by
  obtain ⟨j, own, hj, hentry, hseq, hset⟩ := hu.placed hchain hsets hf.1 hv
  obtain rfl : j = f.established := hnew.height hk hf.1 hset
  unfold followCertificate at hfollow
  dsimp only at hfollow
  split_ifs at hfollow with hnone
  · -- an entry that changed nothing would leave a set the chain already had
    have hstay : HadAt c genesis certs (f.established + 1) f.active :=
      hf.1.next hj (by rw [hentry, hnone]; rfl)
    exact absurd hf.1 (hnew _ _ _ (by omega) (Nat.lt_succ_self _) hstay)
  · rw [bind_ok] at hfollow
    obtain ⟨active, _, hpure⟩ := hfollow
    cases hpure
    exact ⟨hseq, hseq, hseq⟩

theorem NewSets.page {k : ℕ} (hnew : NewSets c genesis certs k) (hchain : Applied c genesis certs st)
    (hsets : DistinctSets c genesis certs) (page : List QuorumCertificate) {f f' : Following}
    (hf : OnChain c genesis certs f) (hk : k ≤ f.established) (hat : f.cursor = f.established)
    (hu : ∀ cert ∈ page, Unforged c genesis certs cert) {last : ValidatorSet}
    (hcheck : checkPage c f.active page = .ok last) (hfold : page.foldlM (followCertificate c) f = .ok f') :
    Ascending (f.cursor + 1) page ∧ k ≤ f'.established ∧ f'.cursor = f'.established := by
  induction page generalizing f with
  | nil =>
    cases hfold
    exact ⟨trivial, hk, hat⟩
  | cons cert page ih =>
    simp only [checkPage, bind_ok, exists_ok_unit_and, changeFold] at hcheck
    obtain ⟨hv, next, hnext, hrest⟩ := hcheck
    have hcert := hu cert (List.mem_cons_self ..)
    obtain ⟨f₁, hone, hf₁, hactive, _, _⟩ := hf.certificate hchain hsets hcert hv hnext
    rw [List.foldlM_cons, hone] at hfold
    obtain ⟨hseq, hest, hcur⟩ := hnew.certificate hchain hsets hf hk hcert hv hone
    rw [← hactive] at hrest
    obtain ⟨hasc, hk', hat'⟩ := ih hf₁ (by omega) (by omega) (fun x hx => hu x (List.mem_cons_of_mem _ hx)) hrest hfold
    refine ⟨⟨by omega, ?_⟩, hk', hat'⟩
    rw [hseq, ← hcur]
    exact hasc

/-- a chain whose sets are new from the client's on is safe to follow, whoever answers -/
theorem NewSets.safe (hnew : NewSets c genesis certs n.setSequence) (hchain : Applied c genesis certs st)
    (hsets : DistinctSets c genesis certs) (hu : ∀ cert, seats.Sends cert → Unforged c genesis certs cert)
    (hstart : HadAt c genesis certs n.setSequence n.set) : Safe c genesis certs seats n := by
  have hf : OnChain c genesis certs ⟨n.set, n.setSequence, n.setSequence⟩ := ⟨hstart, hstart.1⟩
  obtain ⟨out, hloop, hup⟩ := refreshLoop_ends
    (J := fun f => n.setSequence ≤ f.established ∧ f.cursor = f.established) hchain hsets hu n.set.members
    (fun fetch f m page _ _ hon hj hsent hcheck hfold =>
      hnew.page hchain hsets page hon hj.1 hj.2 (fun cert hc => hu cert ⟨_, _, m, page, hsent, hc⟩) hcheck hfold)
    (certs.length - n.setSequence + 1) 0 hf ⟨le_rfl, rfl⟩ le_rfl (Nat.lt_succ_self _)
  exact safe_of_ends hchain hsets hu hstart hloop hup

/-! ## A seat that repeats itself -/

/-- every set of a chain is valid, so there is somebody to ask -/
theorem HadAt.members_ne_nil (hg : validateValidatorSet genesis = .ok ()) {h : ℕ} {set : ValidatorSet}
    (hset : HadAt c genesis certs h set) : set.members ≠ [] := by
  have hchain : SetChain c genesis set := foldlM_inv _ (fun _ set => SetChain c genesis set)
    (fun _ _ _ _ hs hv => SetChain.change hs hv) _ [] _ _ SetChain.genesis hset.2
  have hvalid := (hchain.keeps hg).1
  intro hnil
  simp [validateValidatorSet, hnil, bailIf, bind, Except.bind] at hvalid

/-- the certificates of a chain from above one height up to another -/
def slice (certs : List QuorumCertificate) (a b : ℕ) : List QuorumCertificate := (certs.take b).drop a

theorem mem_of_mem_slice {a b : ℕ} {cert : QuorumCertificate} (h : cert ∈ slice certs a b) : cert ∈ certs :=
  List.mem_of_mem_take (List.mem_of_mem_drop h)

/-- a chain that had a set had one at every height below -/
theorem HadAt.below {a b : ℕ} {set : ValidatorSet} (hset : HadAt c genesis certs b set) (hle : a ≤ b) :
    ∃ set', HadAt c genesis certs a set' := by
  obtain ⟨hb, hfold⟩ := hset
  have hsplit : certs.take b = certs.take a ++ (certs.take b).drop a := by
    have := List.take_append_drop a (certs.take b)
    rwa [List.take_take, Nat.min_eq_left hle, eq_comm] at this
  unfold chainSet at hfold
  rw [hsplit, List.flatMap_append, List.map_append, foldlM_append_ok] at hfold
  obtain ⟨set', hset', _⟩ := hfold
  exact ⟨set', by omega, hset'⟩

/-- the chain's own certificates lead from one of its sets to the next -/
theorem HadAt.changes {h : ℕ} {set next : ValidatorSet} {cert : QuorumCertificate} (hset : HadAt c genesis certs h set)
    (hcert : certs[h]? = some cert) (hnext : HadAt c genesis certs (h + 1) next) :
    (cert.entry.transactions.filterMap changeOf).foldlM (verifyMembershipChange c) set = .ok next := by
  have hfold := hnext.2
  unfold chainSet at hfold
  rw [List.take_add_one, hcert, List.flatMap_append, List.map_append, foldlM_append_ok] at hfold
  obtain ⟨set', hset', hchanges⟩ := hfold
  have heq : Except.ok set = Except.ok set' := hset.2.symm.trans hset'
  cases heq
  simpa [changesIn, Function.comp_def] using hchanges

theorem checkPage_append (page page' : List QuorumCertificate) {active mid last : ValidatorSet}
    (h : checkPage c active page = .ok mid) (h' : checkPage c mid page' = .ok last) :
    checkPage c active (page ++ page') = .ok last := by
  induction page generalizing active with
  | nil =>
    cases h
    exact h'
  | cons cert page ih =>
    simp only [List.cons_append, checkPage, bind_ok, exists_ok_unit_and] at h ⊢
    obtain ⟨hv, next, hnext, hrest⟩ := h
    exact ⟨hv, next, hnext, ih hrest⟩

/-- a run of the chain's own certificates checks out from the set below it -/
theorem checkPage_slice (hgov : Governed c genesis certs) {b : ℕ} {last : ValidatorSet}
    (hb : HadAt c genesis certs b last) {a : ℕ} (hle : a ≤ b) {active : ValidatorSet}
    (ha : HadAt c genesis certs a active) : checkPage c active (slice certs a b) = .ok last := by
  induction hle using Nat.decreasingInduction generalizing active with
  | self =>
    have hnil : slice certs b b = [] := by
      unfold slice
      rw [List.drop_eq_nil_iff, List.length_take]
      exact min_le_left ..
    have heq : Except.ok active = Except.ok last := ha.2.symm.trans hb.2
    cases heq
    rw [hnil]
    rfl
  | of_succ a hlt ih =>
    have hlen : a < certs.length := lt_of_lt_of_le hlt hb.1
    have hcert : certs[a]? = some certs[a] := List.getElem?_eq_getElem hlen
    have hcons : slice certs a b = certs[a] :: slice certs (a + 1) b := by
      unfold slice
      rw [List.drop_eq_getElem_cons (by rw [List.length_take]; omega), List.getElem_take]
    obtain ⟨next, hnext⟩ := hb.below hlt
    obtain ⟨_, set, hset, hv⟩ := hgov a _ hcert
    have heq : Except.ok active = Except.ok set := ha.2.symm.trans hset.2
    cases heq
    rw [hcons]
    simp only [checkPage, bind_ok, exists_ok_unit_and, changeFold]
    exact ⟨hv, next, ha.changes hcert hnext, ih hnext⟩

/-- first up to height `i`, then what lies between `j` and `i` again and again -/
def replay (certs : List QuorumCertificate) (k i j : ℕ) : Seats := fun fetch _ _ =>
  .ok (if fetch = 0 then slice certs k i ++ slice certs j i else slice certs j i)

theorem replay_sends {k i j : ℕ} {cert : QuorumCertificate} (h : (replay certs k i j).Sends cert) : cert ∈ certs := by
  obtain ⟨fetch, _, _, page, hpage, hin⟩ := h
  simp only [replay, Except.ok.injEq] at hpage
  rw [← hpage] at hin
  split_ifs at hin
  · rcases List.mem_append.1 hin with h1 | h2
    · exact mem_of_mem_slice h1
    · exact mem_of_mem_slice h2
  · exact mem_of_mem_slice hin

/-- the chain's own certificates are not forged -/
theorem unforged_of_mem {cert : QuorumCertificate} (h : cert ∈ certs) : Unforged c genesis certs cert :=
  fun _ _ _ _ => ⟨cert, h, rfl, rfl⟩

/-- a checked page from the first seat asked is what the fetch returns -/
theorem fetchCertificates_first (from_ : ℕ) {active last : ValidatorSet} {members : List ValidatorMember}
    (hm : members ≠ []) {cert : QuorumCertificate} {page : List QuorumCertificate}
    (hcheck : checkPage c active (cert :: page) = .ok last) {answer : ValidatorMember → Page}
    (hanswer : ∀ m, answer m = .ok (cert :: page)) :
    fetchCertificates c active from_ (members.map fun m => (m, answer m)) = .ok (cert :: page) := by
  cases members with
  | nil => exact absurd rfl hm
  | cons m members => simp only [fetchCertificates, List.map_cons, fetchLoop, hanswer, hcheck]

/-- a turn of the loop on a page of the chain's own certificates -/
theorem refreshLoop_own (hchain : Applied c genesis certs st) (hsets : DistinctSets c genesis certs)
    {members : List ValidatorMember} (hm : members ≠ []) {f : Following} (hf : OnChain c genesis certs f) (fuel fetch : ℕ)
    {page : List QuorumCertificate} (hne : page ≠ []) (hown : ∀ cert ∈ page, cert ∈ certs)
    {last : ValidatorSet} (hcheck : checkPage c f.active page = .ok last)
    (hsent : ∀ m, seats fetch (f.cursor + 1) m = .ok page) :
    ∃ f', OnChain c genesis certs f' ∧ f'.active = last ∧
      refreshLoop c seats members (fuel + 1) fetch f = refreshLoop c seats members fuel (fetch + 1) f' := by
  obtain ⟨f', hfold, hf', hactive, _⟩ := OnChain.page hchain hsets page hf (fun x hx => unforged_of_mem (hown x hx)) hcheck
  refine ⟨f', hf', hactive, ?_⟩
  cases page with
  | nil => exact absurd rfl hne
  | cons cert page =>
    have hfetch := fetchCertificates_first (f.cursor + 1) hm hcheck hsent
    rw [refreshLoop, hfetch]
    simp only [hfold]

section

variable {members : List ValidatorMember} {k i j : ℕ} {set : ValidatorSet}

/-- a seat that repeats the entries between two heights with one set is asked for ever -/
theorem refreshLoop_repeats (hchain : Applied c genesis certs st) (hsets : DistinctSets c genesis certs)
    (hm : members ≠ []) (hji : j < i) (hi : HadAt c genesis certs i set) (hj : HadAt c genesis certs j set) (fuel : ℕ)
    {fetch : ℕ} {f : Following} (hf : OnChain c genesis certs f) (hat : f.active = set) :
    refreshLoop c (replay certs k i j) members fuel (fetch + 1) f = none := by
  induction fuel generalizing fetch f with
  | zero => rfl
  | succ fuel ih =>
    have hcheck : checkPage c f.active (slice certs j i) = .ok set := by
      rw [hat]
      exact checkPage_slice (Applied.governed hchain).2 hi hji.le hj
    have hne : slice certs j i ≠ [] := by
      have := hi.1
      unfold slice
      rw [Ne, List.drop_eq_nil_iff, List.length_take]
      omega
    have hsent : ∀ m, replay certs k i j (fetch + 1) (f.cursor + 1) m = .ok (slice certs j i) := fun m => by simp [replay]
    obtain ⟨f', hf', hat', hstep⟩ := refreshLoop_own hchain hsets hm hf fuel (fetch + 1) hne
      (fun cert => mem_of_mem_slice) hcheck hsent
    rw [hstep]
    exact ih hf' hat'

/-- **A set that comes back lets one seat hold the client for ever.** -/
theorem replay_never_ends (hchain : Applied c genesis certs st) (hsets : DistinctSets c genesis certs)
    (hg : validateValidatorSet genesis = .ok ()) (hstart : HadAt c genesis certs n.setSequence n.set)
    (hle : n.setSequence ≤ i) (hji : j < i) (hi : HadAt c genesis certs i set) (hj : HadAt c genesis certs j set)
    (fuel : ℕ) : refreshSet c (replay certs n.setSequence i j) fuel n = none := by
  have hm := hstart.members_ne_nil hg
  unfold refreshSet
  rw [Option.map_eq_none_iff]
  cases fuel with
  | zero => rfl
  | succ fuel =>
    have hf : OnChain c genesis certs ⟨n.set, n.setSequence, n.setSequence⟩ := ⟨hstart, hstart.1⟩
    have hcheck : checkPage c n.set (slice certs n.setSequence i ++ slice certs j i) = .ok set :=
      checkPage_append _ _ (checkPage_slice (Applied.governed hchain).2 hi hle hstart)
        (checkPage_slice (Applied.governed hchain).2 hi hji.le hj)
    have hne : slice certs n.setSequence i ++ slice certs j i ≠ [] := by
      have := hi.1
      apply List.append_ne_nil_of_right_ne_nil
      unfold slice
      rw [Ne, List.drop_eq_nil_iff, List.length_take]
      omega
    have hown : ∀ cert ∈ slice certs n.setSequence i ++ slice certs j i, cert ∈ certs := fun cert hin =>
      (List.mem_append.1 hin).elim mem_of_mem_slice mem_of_mem_slice
    have hsent : ∀ m, replay certs n.setSequence i j 0 (n.setSequence + 1) m =
        .ok (slice certs n.setSequence i ++ slice certs j i) := fun m => by simp [replay]
    obtain ⟨f', hf', hat, hstep⟩ := refreshLoop_own hchain hsets hm hf fuel 0 hne hown hcheck hsent
    rw [hstep]
    exact refreshLoop_repeats hchain hsets hm hji hi hj fuel hf' hat

end

end

/-- **Following the chain.** The seats can keep a client of a certified chain walking for ever, or send it back, exactly
when the chain has had some set from the client's height on before: against any answers at all, following is safe if and
only if every set from there on is new. Against seats whose pages go forward from the height they are asked for it is
always safe. -/
theorem refresh_safe_iff {c : Crypto} {genesis : ValidatorSet} {certs : List QuorumCertificate} {st : LedgerStore}
    {n : LedgerNetwork} (hg : validateValidatorSet genesis = .ok ()) (hchain : Applied c genesis certs st)
    (hsets : DistinctSets c genesis certs) (hstart : HadAt c genesis certs n.setSequence n.set) :
    ((∀ seats : Seats, (∀ cert, seats.Sends cert → Unforged c genesis certs cert) → Safe c genesis certs seats n) ↔
      NewSets c genesis certs n.setSequence) ∧
    ∀ seats : Seats, (∀ cert, seats.Sends cert → Unforged c genesis certs cert) → seats.Forward →
      Safe c genesis certs seats n := by
  refine ⟨⟨?_, ?_⟩, ?_⟩
  · intro hsafe i j set hle hji hi hj
    obtain ⟨fuel, n', out, hend, _⟩ := hsafe (replay certs n.setSequence i j) fun cert hsent =>
      unforged_of_mem (replay_sends hsent)
    rw [replay_never_ends hchain hsets hg hstart hle hji hi hj fuel] at hend
    cases hend
  · intro hnew seats hu
    exact hnew.safe hchain hsets hu hstart
  · intro seats hu hforward
    exact hforward.safe hchain hsets hu hstart

/-! ## A member that joins and leaves -/

namespace Sample

open Hocmesh.Protocol.Sample

/-- a client that knows the set of one validator as established at a height -/
def clientAt (height : ℕ) : LedgerNetwork := ⟨committee 1, height, "client", 0⟩

/-- a seat that has the first entry to offer, and then nothing -/
def firstOnly (certs : List QuorumCertificate) : Seats := fun fetch _ _ => .ok (if fetch = 0 then certs.take 1 else [])

theorem firstOnly_sends {certs : List QuorumCertificate} {cert : QuorumCertificate} (h : (firstOnly certs).Sends cert) :
    cert ∈ certs := by
  obtain ⟨fetch, _, _, page, hpage, hin⟩ := h
  simp only [firstOnly, Except.ok.injEq] at hpage
  rw [← hpage] at hin
  split_ifs at hin
  · exact List.mem_of_mem_take hin
  · cases hin

/-- two committees, told apart by their membership hashes, and the chains on which the second joins: one on which it leaves
again, and one on which it stays -/
theorem joined_evaluated :
    (validateValidatorSet (committee 1) = .ok () ∧
      membershipHash crypto (committee 1) ≠ membershipHash crypto (committee 2)) ∧
    (Books.Sample.applyBatches crypto (committee 1) Books.Sample.joinAndLeave).okWith (fun p =>
      p.1.length = 2 ∧ (chainSet crypto (committee 1) p.1 0 = .ok (committee 1) ∧
        chainSet crypto (committee 1) p.1 1 = .ok (committee 2) ∧ chainSet crypto (committee 1) p.1 2 = .ok (committee 1)) ∧
      refreshSet crypto (firstOnly p.1) 2 (clientAt 2) =
        some ({ clientAt 2 with set := committee 2, setSequence := 1 }, .ok true)) = true ∧
    (Books.Sample.applyBatches crypto (committee 1) (Books.Sample.joinAndLeave.take 1)).okWith (fun p =>
      p.1.length = 1 ∧ chainSet crypto (committee 1) p.1 0 = .ok (committee 1) ∧
        chainSet crypto (committee 1) p.1 1 = .ok (committee 2) ∧
        chainSet crypto (committee 1) p.1 2 = .ok (committee 2)) = true := by
  refine ⟨?_, ?_, ?_⟩
  · decide +kernel
  · decide +kernel
  · decide +kernel

/-- the sets of a chain of at most two entries, with a membership hash each -/
theorem distinctSets_of {certs : List QuorumCertificate} (hlen : certs.length ≤ 2)
    (hsets : ∀ h ≤ 2, chainSet crypto (committee 1) certs h = .ok (committee 1) ∨
      chainSet crypto (committee 1) certs h = .ok (committee 2)) : DistinctSets crypto (committee 1) certs := by
  have hne := joined_evaluated.1.2
  have hcases : ∀ {h set}, HadAt crypto (committee 1) certs h set → set = committee 1 ∨ set = committee 2 := by
    intro h set hset
    rcases hsets h (hset.1.trans hlen) with h1 | h2
    · left
      exact Except.ok.inj (hset.2.symm.trans h1)
    · right
      exact Except.ok.inj (hset.2.symm.trans h2)
  intro h k set set' hset hset' heq
  rcases hcases hset with rfl | rfl
  · rcases hcases hset' with rfl | rfl
    · rfl
    · exact absurd heq hne
  · rcases hcases hset' with rfl | rfl
    · exact absurd heq.symm hne
    · rfl

end Sample

/-- after validator 1 has joined and left, a seat that replays the chain's own two entries keeps the client asking for
ever, and one that replays the first of them alone takes it back to height one -/
theorem replayed_join_misleads :
    ∃ certs st, Applied Sample.crypto (Sample.committee 1) certs st ∧
      DistinctSets Sample.crypto (Sample.committee 1) certs ∧
      HadAt Sample.crypto (Sample.committee 1) certs 2 (Sample.clientAt 2).set ∧
      (∃ seats : Seats, (∀ cert, seats.Sends cert → Unforged Sample.crypto (Sample.committee 1) certs cert) ∧
        ∀ fuel, refreshSet Sample.crypto seats fuel (Sample.clientAt 2) = none) ∧
      ∃ seats : Seats, (∀ cert, seats.Sends cert → Unforged Sample.crypto (Sample.committee 1) certs cert) ∧
        refreshSet Sample.crypto seats 2 (Sample.clientAt 2) =
          some ({ Sample.clientAt 2 with set := Sample.committee 2, setSequence := 1 }, .ok true) := by
  obtain ⟨⟨hset, -⟩, hrun, -⟩ := Sample.joined_evaluated
  obtain ⟨p, hp, hfacts⟩ := (okWith_iff _ _).1 hrun
  obtain ⟨hlen, ⟨h0, h1, h2⟩, hback⟩ := of_decide_eq_true hfacts
  have hchain := Books.Sample.applied_of_applyBatches hp
  have hsets : DistinctSets Sample.crypto (Sample.committee 1) p.1 := by
    refine Sample.distinctSets_of hlen.le ?_
    intro h hle
    interval_cases h
    · exact Or.inl h0
    · exact Or.inr h1
    · exact Or.inl h2
  have hstart : HadAt Sample.crypto (Sample.committee 1) p.1 2 (Sample.clientAt 2).set := ⟨hlen.ge, h2⟩
  refine ⟨p.1, p.2, hchain, hsets, hstart, ⟨replay p.1 2 2 0, ?_, ?_⟩, ⟨Sample.firstOnly p.1, ?_, hback⟩⟩
  · exact fun cert hsent => unforged_of_mem (replay_sends hsent)
  · exact replay_never_ends hchain hsets hset hstart le_rfl (by omega) hstart ⟨by omega, h0⟩
  · exact fun cert hsent => unforged_of_mem (Sample.firstOnly_sends hsent)

/-- a client at genesis may follow the join whoever answers: both sets are new -/
theorem join_followed_safely :
    ∃ certs st, Applied Sample.crypto (Sample.committee 1) certs st ∧ certs.length = 1 ∧
      ∀ seats : Seats, (∀ cert, seats.Sends cert → Unforged Sample.crypto (Sample.committee 1) certs cert) →
        Safe Sample.crypto (Sample.committee 1) certs seats (Sample.clientAt 0) := by
  obtain ⟨⟨hset, hne⟩, -, hrun⟩ := Sample.joined_evaluated
  obtain ⟨p, hp, hfacts⟩ := (okWith_iff _ _).1 hrun
  obtain ⟨hlen, h0, h1, h2⟩ := of_decide_eq_true hfacts
  have hchain := Books.Sample.applied_of_applyBatches hp
  have hsets : DistinctSets Sample.crypto (Sample.committee 1) p.1 := by
    refine Sample.distinctSets_of (by omega) ?_
    intro h hle
    interval_cases h
    · exact Or.inl h0
    · exact Or.inr h1
    · exact Or.inr h2
  refine ⟨p.1, p.2, hchain, hlen, ?_⟩
  refine (refresh_safe_iff (n := Sample.clientAt 0) hset hchain hsets ⟨Nat.zero_le _, h0⟩).1.2 ?_
  intro i j set _ hji hi hj
  have hi1 := hi.1
  obtain rfl : i = 1 := by omega
  obtain rfl : j = 0 := by omega
  have hsame : Sample.committee 1 = Sample.committee 2 := Except.ok.inj (h0.symm.trans (hj.2.trans (hi.2.symm.trans h1)))
  exact absurd (congrArg _ hsame) hne

end Hocmesh.Network
