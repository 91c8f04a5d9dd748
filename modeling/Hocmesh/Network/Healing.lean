/-
How a validator that fell behind is brought level (`hocmesh-validator/src/main.rs`): `catch_up_to` and `heal_once`.

A seat goes on serving while it catches up. Requests are handled while a page is in flight, and again between the moment
the store is unlocked and the moment the set is published, so a page meets a store that may have moved since the page was
asked for, it is applied under a set that may no longer be sitting, and the set published at the end may be older than
the one a commit has just published. None of that puts an entry on the seat that is not the chain's: `OnTrack` is kept by
every step and every request in between. What the seat holds is compared with `Mirrors`: the store the chain itself had
at that height, which is reached by applying the chain's own certificates in order.
-/
import Hocmesh.Network.Follow
import Hocmesh.Network.Seats

namespace Hocmesh.Network

open Hocmesh.Base Hocmesh.Protocol Hocmesh.Ledger Hocmesh.Validator Hocmesh.Books

/-! ## Catching up -/

/-- how many certificates one catch-up round asks for -/
def healBatch : ℕ := 256

/-- what a seat may be asked to do while it catches up -/
inductive Request
  | prepare (r : PrepareRequest)
  | propose (r : ProposalRequest)
  | commit (cert : QuorumCertificate)

/-- the requests handled while each page is in flight, and those handled before the set it left is published -/
structure Meanwhile where
  fetching : ℕ → List Request
  publishing : ℕ → List Request

/-- what each member answers in each round when it is asked for so many entries from a height on -/
abbrev Servers := (round from_ limit : ℕ) → ValidatorMember → Page

section

variable (c : Crypto)

/-- the seat a request leaves; a refused commit changes nothing -/
def handle (a : App) : Request → App
  | .prepare r => (prepare a r).1
  | .propose r => (propose c a r).1
  | .commit cert =>
    match commit c a cert with
    | .ok (a', _) => a'
    | .error _ => a

variable (servers : Servers) (members : List ValidatorMember) (busy : Meanwhile)

/-- `catch_up_to`: the seat it leaves and what it returns, or nothing if `fuel` rounds were not enough -/
def catchUpTo (target : ℕ) : (fuel round applied : ℕ) → App → Option (App × Check ℕ)
  | 0, _, _, _ => none
  | fuel + 1, round, applied, a =>
    let set := a.store.currentSet.getD a.set
    let head := a.store.headSequence
    if target ≤ head then some (a, .ok applied)
    else
      let want := min (target - head) healBatch
      let fetched := fetchCertificates c set (head + 1) (members.map fun m => (m, servers round (head + 1) want m))
      -- the store is unlocked while the page is on its way
      let a := (busy.fetching round).foldl (handle c) a
      match fetched with
      | .error e => some (a, .error e)
      | .ok [] => some (a, .error
          s!"the quorum has certified height {target} but no validator will serve height {head + 1}")
      | .ok (cert :: page) =>
        let (store, outcome) := catchUpLoop c target a.store set (cert :: page)
        match outcome with
        | .error e => some ({ a with store := store }, .error e)
        | .ok set =>
          -- each entry applied is one more certificate
          let applied := applied + (store.certificates.length - a.store.certificates.length)
          let reached := store.headSequence
          let a := (busy.publishing round).foldl (handle c) { a with store := store }
          let a := { a with set := set }
          if reached ≤ head then
            some (a, .error s!"catching up stalled at height {reached}: the entries served do not extend this chain")
          else catchUpTo target fuel (round + 1) applied a

end

/-- every certificate the members serve -/
def Servers.Sends (servers : Servers) (cert : QuorumCertificate) : Prop :=
  ∃ round from_ limit m page, servers round from_ limit m = .ok page ∧ cert ∈ page

/-- every request handled in the meantime -/
def Meanwhile.Handles (busy : Meanwhile) (r : Request) : Prop :=
  ∃ round, r ∈ busy.fetching round ∨ r ∈ busy.publishing round

/-- a seat that only votes in the meantime -/
def Meanwhile.Votes (busy : Meanwhile) : Prop := ∀ cert, ¬ busy.Handles (.commit cert)

/-- what is served is the chain, from the height it was asked for on, or nothing -/
def Servers.Honest (servers : Servers) (certs : List QuorumCertificate) : Prop :=
  ∀ round n limit m page, servers round (n + 1) limit m = .ok page → ∃ b, page = slice certs n b

/-- somebody serves every height the chain has -/
def Servers.Cover (servers : Servers) (members : List ValidatorMember) (certs : List QuorumCertificate) : Prop :=
  ∀ round n limit, n < certs.length → 0 < limit →
    ∃ m ∈ members, ∃ page, servers round (n + 1) limit m = .ok page ∧ page ≠ []

/-! ## The store the chain itself had -/

/-- two stores with the same entries and the same rows derived from them; signatures and ballots may differ -/
structure Agrees (st ref : LedgerStore) : Prop where
  entries : st.certificates.map (·.entry) = ref.certificates.map (·.entry)
  balances : st.balances = ref.balances
  claims : st.claims = ref.claims
  baseline : st.activityBaseline = ref.activityBaseline
  sets : st.validatorSets = ref.validatorSets
  activity : st.accountActivity = ref.accountActivity
  jobs : st.jobReservations = ref.jobReservations
  inference : st.inferenceReservations = ref.inferenceReservations

namespace Agrees

variable {st st' ref : LedgerStore}

theorem refl (st : LedgerStore) : Agrees st st := ⟨rfl, rfl, rfl, rfl, rfl, rfl, rfl, rfl⟩

theorem trans {st'' : LedgerStore} (h : Agrees st st') (h' : Agrees st' st'') : Agrees st st'' :=
  ⟨h.entries.trans h'.entries, h.balances.trans h'.balances, h.claims.trans h'.claims, h.baseline.trans h'.baseline,
    h.sets.trans h'.sets, h.activity.trans h'.activity, h.jobs.trans h'.jobs, h.inference.trans h'.inference⟩

theorem headSequence_eq (h : Agrees st ref) : st.headSequence = ref.headSequence := by
  have hlast := congrArg (fun l => (l.getLast?.map (·.sequence)).getD 0) h.entries
  simpa only [List.getLast?_map, Option.map_map, Function.comp_def, LedgerStore.headSequence] using hlast

theorem headHash_eq (h : Agrees st ref) : st.headHash = ref.headHash := by
  have hlast := congrArg (fun l => (l.getLast?.map (·.entryHash)).getD "GENESIS") h.entries
  simpa only [List.getLast?_map, Option.map_map, Function.comp_def, LedgerStore.headHash] using hlast

theorem currentSet_eq (h : Agrees st ref) : st.currentSet = ref.currentSet := by
  unfold LedgerStore.currentSet
  rw [h.sets]

/-- one entry, certified by whichever signatures, writes the same rows to both -/
theorem commitRows (h : Agrees st ref) {cert own : QuorumCertificate} (hentry : own.entry = cert.entry)
    (balances : Table String ℤ) (next : ValidatorSet) :
    Agrees (st.commitRows cert balances next) (ref.commitRows own balances next) where
  entries := by
    rw [commitRows_certificates, commitRows_certificates, List.map_append, List.map_append, h.entries,
      List.map_singleton, List.map_singleton, hentry]
  balances := rfl
  claims := by
    simp only [LedgerStore.commitRows, LedgerStore.indexCertificate, hentry, h.claims]
  baseline := h.baseline
  sets := by
    rw [commitRows_validatorSets, commitRows_validatorSets, hentry, h.sets]
  activity := by
    simp only [LedgerStore.commitRows, LedgerStore.indexCertificate, hentry, h.activity]
  jobs := by
    simp only [LedgerStore.commitRows, LedgerStore.indexCertificate, hentry, h.jobs]
  inference := by
    simp only [LedgerStore.commitRows, LedgerStore.indexCertificate, hentry, h.inference]

/-- a certificate that applies to one applies to the other, under the same set -/
theorem appliable (h : Agrees st ref) {c : Crypto} {cert : QuorumCertificate} {set next : ValidatorSet}
    {balances : Table String ℤ} (hap : Appliable c ref cert set next balances) :
    Appliable c st cert set next balances where
  certified := hap.certified
  evidence := hap.evidence
  sequence := by
    rw [h.headSequence_eq]
    exact hap.sequence
  previous := by
    rw [h.headHash_eq]
    exact hap.previous
  fresh t ht hin := by
    apply hap.fresh t ht
    unfold LedgerStore.hasClaim at hin ⊢
    rwa [← h.claims]
  covered := by
    rw [h.balances]
    exact hap.covered
  in_range := hap.in_range
  unique held hin heq := by
    have hentry : held.entry ∈ ref.certificates.map (·.entry) := by
      rw [← h.entries]
      exact List.mem_map_of_mem hin
    obtain ⟨twin, htwin, hsame⟩ := List.mem_map.1 hentry
    apply hap.unique twin htwin
    rw [hsame, heq]

end Agrees

section

variable {c : Crypto} {genesis : ValidatorSet} {certs : List QuorumCertificate} {st st' ref : LedgerStore}

/-- a chain leaves one store -/
theorem Applied.unique {st₁ st₂ : LedgerStore} (h₁ : Applied c genesis certs st₁) (h₂ : Applied c genesis certs st₂) :
    st₁ = st₂ := by
  induction h₁ generalizing st₂ with
  | empty =>
    generalize hnil : ([] : List QuorumCertificate) = l at h₂
    cases h₂ with
    | empty => rfl
    | apply _ _ => simp at hnil
  | @apply certs₁ st₀ st₁ cert hold hap ih =>
    generalize hcons : certs₁ ++ [cert] = l at h₂
    cases h₂ with
    | empty => simp at hcons
    | @apply certs₂ st₀' _ cert' hold' hap' =>
      obtain ⟨rfl, rfl⟩ := List.append_inj' hcons rfl |>.imp_right List.singleton_inj.1
      obtain rfl := ih hold'
      exact Except.ok.inj (hap.symm.trans hap')

/-- a chain that is applied is applied as far as any height of it -/
theorem Applied.take (h : Applied c genesis certs st) (n : ℕ) : ∃ ref, Applied c genesis (certs.take n) ref := by
  induction h with
  | empty => exact ⟨_, by simpa using Applied.empty⟩
  | @apply certs st₀ st₁ cert hold hap ih =>
    rcases le_or_gt n certs.length with hle | hlt
    · rw [List.take_append_of_le_length hle]
      exact ih
    · refine ⟨st₁, ?_⟩
      rw [List.take_of_length_le (by rw [List.length_append, List.length_singleton]; exact hlt)]
      exact .apply hold hap

/-- the store of a chain has one row for each certificate -/
theorem Applied.rows (h : Applied c genesis certs st) : st.certificates.length = certs.length := by
  induction h with
  | empty => rfl
  | @apply certs st st' cert _ hap ih =>
    obtain ⟨next, balances, _, rfl⟩ := apply_ok.1 hap
    rw [commitRows_certificates, List.length_append, List.length_append, ih, List.length_singleton]

/-- the chain's next certificate applies to the store the chain had before it -/
theorem Applied.next (h : Applied c genesis certs st) {n : ℕ} (hn : Applied c genesis (certs.take n) ref)
    {own : QuorumCertificate} (hown : certs[n]? = some own) :
    ∃ ref', ref.apply c own (sittingSet genesis ref) = .ok ref' ∧ Applied c genesis (certs.take (n + 1)) ref' := by
  obtain ⟨ref', hnext⟩ := Applied.take h (n + 1)
  have hall := hnext
  rw [List.take_add_one, hown] at hnext
  generalize hsplit : certs.take n ++ (some own).toList = l at hnext
  cases hnext with
  | empty => simp at hsplit
  | @apply certs' ref₀ _ cert hold hap =>
    obtain ⟨rfl, hcert⟩ := List.append_inj' hsplit rfl
    obtain rfl : own = cert := List.singleton_inj.1 hcert
    obtain rfl := Applied.unique hn hold
    exact ⟨ref', hap, hall⟩

/-- the store holds the first entries of the chain and nothing else, and all that follows from them -/
def Mirrors (c : Crypto) (genesis : ValidatorSet) (certs : List QuorumCertificate) (st : LedgerStore) : Prop :=
  ∃ ref, Applied c genesis (certs.take st.headSequence) ref ∧ Agrees st ref

theorem Mirrors.of_agrees (h : Mirrors c genesis certs st) (hsame : Agrees st' st) : Mirrors c genesis certs st' := by
  obtain ⟨ref, href, hag⟩ := h
  refine ⟨ref, ?_, hsame.trans hag⟩
  rw [hsame.headSequence_eq]
  exact href

/-- heights are counted without gaps -/
theorem Mirrors.length (h : Mirrors c genesis certs st) :
    st.certificates.length = st.headSequence ∧ st.headSequence ≤ certs.length := by
  obtain ⟨ref, href, hag⟩ := h
  have hlen := (Applied.governed href).1
  rw [List.length_take, ← hag.headSequence_eq] at hlen
  have hcount := congrArg List.length hag.entries
  rw [List.length_map, List.length_map] at hcount
  have hrefs : ref.certificates.length = ref.headSequence := by
    rw [Applied.rows href, (Applied.governed href).1]
  rw [hcount, hrefs, ← hag.headSequence_eq]
  exact ⟨rfl, by omega⟩

/-- the set the store recognises is the one the chain had at its head, and every row of sets is at or below the head -/
theorem Mirrors.sitting (h : Mirrors c genesis certs st) :
    HadAt c genesis certs st.headSequence (sittingSet genesis st) ∧ ∀ k ∈ st.validatorSets, k ≤ st.headSequence := by
  obtain ⟨_, hle⟩ := h.length
  obtain ⟨ref, href, hag⟩ := h
  obtain ⟨hrows, hfold⟩ := href.follows
  refine ⟨⟨hle, ?_⟩, ?_⟩
  · unfold sittingSet
    rw [hag.currentSet_eq]
    exact hfold
  · rw [hag.sets, hag.headSequence_eq]
    exact hrows

/-- a store's own set, or one the chain has had where it has none, is one the chain has had -/
theorem Mirrors.known (h : Mirrors c genesis certs st) {set : ValidatorSet} (hset : ∃ k, HadAt c genesis certs k set) :
    ∃ k, HadAt c genesis certs k (st.currentSet.getD set) := by
  cases hcur : st.currentSet with
  | none => exact hset
  | some own =>
    have hsit := h.sitting.1
    unfold sittingSet at hsit
    rw [hcur] at hsit
    exact ⟨_, hsit⟩

/-- **Safety of one entry.** What applies under any set the chain has had is the chain's own next entry, and that set is
the sitting one. -/
theorem Mirrors.apply (hchain : Applied c genesis certs ref) (hsets : DistinctSets c genesis certs)
    (h : Mirrors c genesis certs st) {cert : QuorumCertificate} (hu : Unforged c genesis certs cert) {k : ℕ}
    {set : ValidatorSet} (hset : HadAt c genesis certs k set) (hap : st.apply c cert set = .ok st') :
    Mirrors c genesis certs st' ∧ st'.headSequence = st.headSequence + 1 ∧ set = sittingSet genesis st := by
  obtain ⟨next, balances, hok, rfl⟩ := apply_ok.1 hap
  obtain ⟨j, own, hown, hentry, hseq, hat⟩ := hu.placed hchain hsets hset hok.certified
  obtain rfl : j = st.headSequence := by
    have := hok.sequence
    omega
  obtain ⟨hsit, _⟩ := h.sitting
  have hsame : set = sittingSet genesis st := Except.ok.inj (hat.2.symm.trans hsit.2)
  obtain ⟨ref₀, href, hag⟩ := h
  obtain ⟨ref', hap', hnext⟩ := Applied.next hchain href hown
  obtain ⟨next', balances', hok', rfl⟩ := apply_ok.1 hap'
  have hset' : sittingSet genesis ref₀ = set := by
    rw [hsame, sittingSet, sittingSet, hag.currentSet_eq]
  have hchanges := evidence_changes _ hok.evidence
  have hchanges' := evidence_changes _ hok'.evidence
  rw [hset', hentry] at hchanges'
  obtain rfl : next = next' := Except.ok.inj (hchanges.symm.trans hchanges')
  have hcovered := hok.covered
  have hcovered' := hok'.covered
  rw [hentry, ← hag.balances] at hcovered'
  obtain rfl : balances = balances' := Except.ok.inj (hcovered.symm.trans hcovered')
  refine ⟨⟨_, ?_, hag.commitRows hentry balances next⟩, ?_, hsame⟩
  · rw [headSequence_commitRows, hok.sequence]
    exact hnext
  · rw [headSequence_commitRows, hok.sequence]

/-- **Progress of one entry.** The chain's own next certificate applies. -/
theorem Mirrors.applies (hchain : Applied c genesis certs ref) (h : Mirrors c genesis certs st)
    {own : QuorumCertificate} (hown : certs[st.headSequence]? = some own) :
    ∃ st', st.apply c own (sittingSet genesis st) = .ok st' := by
  obtain ⟨ref₀, href, hag⟩ := h
  obtain ⟨ref', hap, _⟩ := Applied.next hchain href hown
  obtain ⟨next, balances, hok, _⟩ := apply_ok.1 hap
  have hsame : sittingSet genesis st = sittingSet genesis ref₀ := by
    rw [sittingSet, sittingSet, hag.currentSet_eq]
  rw [hsame]
  exact ⟨_, apply_ok.2 ⟨next, balances, hag.appliable hok, rfl⟩⟩

/-- a store that went on: it is no lower, and what it recorded a set for stays recorded -/
structure Rises (st st' : LedgerStore) : Prop where
  head : st.headSequence ≤ st'.headSequence
  unset : st'.currentSet = none → st.currentSet = none

theorem Rises.refl (st : LedgerStore) : Rises st st := ⟨le_rfl, id⟩

theorem Rises.trans {st'' : LedgerStore} (h : Rises st st') (h' : Rises st' st'') : Rises st st'' :=
  ⟨h.head.trans h'.head, fun hnone => h.unset (h'.unset hnone)⟩

theorem Rises.of_agrees (h : Agrees st' st) : Rises st st' :=
  ⟨h.headSequence_eq.ge, fun hnone => by rwa [← h.currentSet_eq]⟩

theorem Mirrors.rises {cert : QuorumCertificate} {set : ValidatorSet} (h : Mirrors c genesis certs st)
    (hap : st.apply c cert set = .ok st') : Rises st st' := by
  obtain ⟨next, balances, hok, rfl⟩ := apply_ok.1 hap
  constructor
  case head =>
    rw [headSequence_commitRows, hok.sequence]
    exact Nat.le_succ _
  case unset =>
    intro hnone
    unfold LedgerStore.currentSet at hnone ⊢
    rw [commitRows_validatorSets] at hnone
    split_ifs at hnone
    · have hbelow : ∀ k ∈ st.validatorSets, (compare k cert.entry.sequence).isLE := by
        intro k hk
        rw [Nat.isLE_compare, hok.sequence]
        exact (h.sitting.2 k hk).trans (Nat.le_succ _)
      rw [Table.last?_insert _ _ _ hbelow] at hnone
      cases hnone
    · exact hnone

/-! ## A seat on the chain -/

/-- a seat whose store mirrors the chain, and whose set is one the chain has had; until the chain records a set, it is the
genesis set the seat was started with -/
structure OnTrack (c : Crypto) (genesis : ValidatorSet) (certs : List QuorumCertificate) (a : App) : Prop where
  mirrors : Mirrors c genesis certs a.store
  known : ∃ k, HadAt c genesis certs k a.set
  boot : a.store.currentSet = none → a.set = genesis

/-- the set a seat on the chain works under is the sitting one -/
theorem OnTrack.recognised {a : App} (h : OnTrack c genesis certs a) :
    a.store.currentSet.getD a.set = sittingSet genesis a.store := by
  unfold sittingSet
  cases hset : a.store.currentSet with
  | none => exact h.boot hset
  | some set => rfl

/-- **Step.** A commit leaves the seat on the chain. -/
theorem OnTrack.commit (hchain : Applied c genesis certs ref) (hsets : DistinctSets c genesis certs) {a a' : App}
    (h : OnTrack c genesis certs a) {cert : QuorumCertificate} (hu : Unforged c genesis certs cert) {head : LedgerHead}
    (hc : Validator.commit c a cert = .ok (a', head)) : OnTrack c genesis certs a' ∧ Rises a.store a'.store := by
  unfold Validator.commit at hc
  simp only [bind_ok, exists_ok_unit_and] at hc
  obtain ⟨_, hc⟩ := hc
  split_ifs at hc
  · simp only [bind_ok, bailIf_ok, exists_const, pure_ok, Prod.mk.injEq] at hc
    obtain ⟨_, rfl, _⟩ := hc
    exact ⟨h, .refl _⟩
  · simp only [bind_ok, exists_ok_unit_and, pure_ok, Prod.mk.injEq] at hc
    obtain ⟨_, _, store, hap, rfl, _⟩ := hc
    obtain ⟨k, hk⟩ := h.known
    obtain ⟨hm, _, _⟩ := h.mirrors.apply hchain hsets hu hk hap
    have hrises := h.mirrors.rises hap
    refine ⟨⟨hm, hm.known h.known, ?_⟩, hrises⟩
    intro hnone
    simp only at hnone
    simp only [hnone, Option.getD_none]
    exact h.boot (hrises.unset hnone)

/-- ballots are no part of what a seat holds of the chain -/
theorem agrees_of_ballots {ballots : Table ℕ BallotRow} : Agrees { st with ballots := ballots } st :=
  ⟨rfl, rfl, rfl, rfl, rfl, rfl, rfl, rfl⟩

/-- preparing and proposing move ballots only -/
theorem handle_vote (a : App) {r : Request} (hr : ∀ cert, r ≠ .commit cert) :
    Agrees (handle c a r).store a.store ∧ (handle c a r).set = a.set := by
  cases r with
  | prepare r =>
    simp only [handle]
    rcases prepare_cases a r with ⟨h, _⟩ | ⟨_, _, h, _⟩
    · rw [h]
      exact ⟨.refl _, rfl⟩
    · rw [h]
      exact ⟨agrees_of_ballots, rfl⟩
  | propose r =>
    simp only [handle]
    rcases propose_cases c a r with ⟨h, _⟩ | ⟨_, _, h, _⟩
    · rw [h]
      exact ⟨.refl _, rfl⟩
    · rw [h]
      exact ⟨agrees_of_ballots, rfl⟩
  | commit cert => exact absurd rfl (hr cert)

theorem OnTrack.of_agrees {a a' : App} (h : OnTrack c genesis certs a) (hstore : Agrees a'.store a.store)
    (hset : a'.set = a.set) : OnTrack c genesis certs a' where
  mirrors := h.mirrors.of_agrees hstore
  known := by
    rw [hset]
    exact h.known
  boot hnone := by
    rw [hset]
    exact h.boot (hstore.currentSet_eq ▸ hnone)

/-- **Step.** A request leaves the seat on the chain, no lower than it was. -/
theorem OnTrack.handle (hchain : Applied c genesis certs ref) (hsets : DistinctSets c genesis certs) {a : App}
    (h : OnTrack c genesis certs a) {r : Request} (hr : ∀ cert, r = .commit cert → Unforged c genesis certs cert) :
    OnTrack c genesis certs (Network.handle c a r) ∧ Rises a.store (Network.handle c a r).store := by
  by_cases hvote : ∀ cert, r ≠ .commit cert
  · obtain ⟨hstore, hset⟩ := handle_vote (c := c) a hvote
    exact ⟨h.of_agrees hstore hset, .of_agrees hstore⟩
  · push Not at hvote
    obtain ⟨cert, rfl⟩ := hvote
    simp only [Network.handle]
    cases hc : Validator.commit c a cert with
    | error e => exact ⟨h, .refl _⟩
    | ok p => exact h.commit hchain hsets (hr cert rfl) hc

/-- **Run.** So do any requests, in any order. -/
theorem OnTrack.requests (hchain : Applied c genesis certs ref) (hsets : DistinctSets c genesis certs)
    (rs : List Request) {a : App} (h : OnTrack c genesis certs a)
    (hrs : ∀ r ∈ rs, ∀ cert, r = .commit cert → Unforged c genesis certs cert) :
    OnTrack c genesis certs (rs.foldl (Network.handle c) a) ∧
      Rises a.store (rs.foldl (Network.handle c) a).store := by
  induction rs generalizing a with
  | nil => exact ⟨h, .refl _⟩
  | cons r rs ih =>
    obtain ⟨h₁, hr₁⟩ := h.handle hchain hsets (hrs r List.mem_cons_self)
    obtain ⟨h₂, hr₂⟩ := ih h₁ fun r' hr' => hrs r' (List.mem_cons_of_mem _ hr')
    exact ⟨h₂, hr₁.trans hr₂⟩

/-! ## One page -/

/-- **A page.** Whatever is in it, and however old the set it starts under, it leaves the store on the chain, and the set
it ends under is one the chain has had. -/
theorem Mirrors.page (hchain : Applied c genesis certs ref) (hsets : DistinctSets c genesis certs) (target : ℕ)
    (page : List QuorumCertificate) (h : Mirrors c genesis certs st) (hu : ∀ cert ∈ page, Unforged c genesis certs cert)
    {set : ValidatorSet} (hset : ∃ k, HadAt c genesis certs k set) :
    Mirrors c genesis certs (catchUpLoop c target st set page).1 ∧ Rises st (catchUpLoop c target st set page).1 ∧
      ∀ set', (catchUpLoop c target st set page).2 = .ok set' → (∃ k, HadAt c genesis certs k set') ∧
        ((catchUpLoop c target st set page).1.currentSet = none → set' = set) := by
  induction page generalizing st set with
  | nil =>
    refine ⟨h, .refl _, ?_⟩
    intro set' heq
    cases heq
    exact ⟨hset, fun _ => rfl⟩
  | cons cert page ih =>
    have hrest : ∀ x ∈ page, Unforged c genesis certs x := fun x hx => hu x (List.mem_cons_of_mem _ hx)
    unfold catchUpLoop
    split_ifs
    · refine ⟨h, .refl _, ?_⟩
      intro set' heq
      cases heq
      exact ⟨hset, fun _ => rfl⟩
    · exact ih h hrest hset
    · cases hap : st.apply c cert set with
      | error e => exact ⟨h, .refl _, by simp⟩
      | ok next =>
        obtain ⟨k, hk⟩ := hset
        obtain ⟨hm, _, _⟩ := h.apply hchain hsets (hu cert List.mem_cons_self) hk hap
        obtain ⟨hm', hrises, hout⟩ := ih hm hrest (hm.known ⟨k, hk⟩)
        refine ⟨hm', (h.rises hap).trans hrises, ?_⟩
        intro set' heq
        obtain ⟨hknown, hsame⟩ := hout set' heq
        refine ⟨hknown, fun hnone => ?_⟩
        rw [hsame hnone, hrises.unset hnone]
        rfl

/-- **Run.** Catching up ends, with the seat on the chain and no lower than it began, whoever serves the pages and whatever
is handled in between; when it says it is done the target is reached, and it counts no more than the seat has risen. -/
theorem OnTrack.catchUpTo (hchain : Applied c genesis certs ref) (hsets : DistinctSets c genesis certs)
    {servers : Servers} {members : List ValidatorMember} {busy : Meanwhile}
    (hserved : ∀ cert, servers.Sends cert → Unforged c genesis certs cert)
    (hasked : ∀ cert, busy.Handles (.commit cert) → Unforged c genesis certs cert) {target : ℕ} (fuel round applied : ℕ)
    {a : App} (h : OnTrack c genesis certs a) (hfuel : target - a.store.headSequence < fuel) :
    ∃ a' out, Network.catchUpTo c servers members busy target fuel round applied a = some (a', out) ∧
      OnTrack c genesis certs a' ∧ a.store.headSequence ≤ a'.store.headSequence ∧
      ∀ n, out = .ok n → target ≤ a'.store.headSequence ∧
        n + a.store.headSequence ≤ applied + a'.store.headSequence := by
  induction fuel generalizing round applied a with
  | zero => omega
  | succ fuel ih =>
    unfold Network.catchUpTo
    dsimp only
    split_ifs with hdone
    · refine ⟨a, _, rfl, h, le_rfl, ?_⟩
      intro n heq
      cases heq
      exact ⟨hdone, le_rfl⟩
    obtain ⟨h₁, hr₁⟩ := h.requests hchain hsets (busy.fetching round) fun r hr cert heq =>
      hasked cert ⟨round, Or.inl (heq ▸ hr)⟩
    generalize (busy.fetching round).foldl (Network.handle c) a = a₁ at h₁ hr₁ ⊢
    split
    · exact ⟨a₁, _, rfl, h₁, hr₁.head, by simp⟩
    · exact ⟨a₁, _, rfl, h₁, hr₁.head, by simp⟩
    · rename_i cert page hfetch
      obtain ⟨⟨x, hx, hanswer⟩, _⟩ := fetchLoop_ok _ hfetch
      obtain ⟨m, _, rfl⟩ := List.mem_map.1 hx
      have hu : ∀ y ∈ cert :: page, Unforged c genesis certs y := fun y hy =>
        hserved y ⟨round, _, _, m, _, hanswer, hy⟩
      obtain ⟨hm, hr₂, hout⟩ := h₁.mirrors.page hchain hsets target (cert :: page) hu (h.mirrors.known h.known)
      generalize catchUpLoop c target a₁.store (a.store.currentSet.getD a.set) (cert :: page) = p at hm hr₂ hout ⊢
      obtain ⟨store, outcome⟩ := p
      have h₂ : OnTrack c genesis certs { a₁ with store := store } := ⟨hm, h₁.known, fun hn => h₁.boot (hr₂.unset hn)⟩
      cases outcome with
      | error e => exact ⟨_, _, rfl, h₂, hr₁.head.trans hr₂.head, by simp⟩
      | ok set =>
        obtain ⟨hknown, hsame⟩ := hout set rfl
        obtain ⟨h₃, hr₃⟩ := h₂.requests hchain hsets (busy.publishing round) fun r hr cert heq =>
          hasked cert ⟨round, Or.inr (heq ▸ hr)⟩
        generalize (busy.publishing round).foldl (Network.handle c) { a₁ with store := store } = a₃ at h₃ hr₃ ⊢
        dsimp only at hr₂ hr₃ hm
        have hrose := (hr₁.trans hr₂).trans hr₃
        -- the set published now may be behind the store, but it is still one of the chain's
        have h₄ : OnTrack c genesis certs { a₃ with set := set } := by
          refine ⟨h₃.mirrors, hknown, fun hnone => ?_⟩
          have hnever : a.store.currentSet = none := hrose.unset hnone
          change set = genesis
          rw [hsame (hr₃.unset hnone), hnever]
          exact h.boot hnever
        dsimp only
        split_ifs with hstalled
        · exact ⟨_, _, rfl, h₄, hrose.head, by simp⟩
        · have hcount := h₁.mirrors.length.1
          have hcount' := hm.length.1
          have h1 := hr₁.head
          have h2 := hr₂.head
          have h3 := hr₃.head
          obtain ⟨a', out, hend, htrack, hle, hok⟩ := ih (round + 1)
            (applied + (store.certificates.length - a₁.store.certificates.length)) h₄ (by dsimp only; omega)
          refine ⟨a', out, hend, htrack, hrose.head.trans hle, ?_⟩
          intro n heq
          obtain ⟨hreach, hn⟩ := hok n heq
          dsimp only at hn
          exact ⟨hreach, by omega⟩

/-! ## Getting level -/

theorem slice_cons {n b : ℕ} {own : QuorumCertificate} (hlt : n < b) (hown : certs[n]? = some own) :
    slice certs n b = own :: slice certs (n + 1) b := by
  obtain ⟨hlen, hget⟩ := List.getElem?_eq_some_iff.1 hown
  unfold slice
  rw [List.drop_eq_getElem_cons (by rw [List.length_take]; omega), List.getElem_take, hget]

/-- nothing at or below the height asked for is a slice above it -/
theorem slice_ne_nil {n b : ℕ} (h : slice certs n b ≠ []) : n < b ∧ n < certs.length := by
  unfold slice at h
  rw [Ne, List.drop_eq_nil_iff, List.length_take, not_le, lt_min_iff] at h
  exact h

/-- the first honest seat with something to serve answers the fetch -/
theorem fetchLoop_honest (hgov : Governed c genesis certs) (hset : ∃ set, HadAt c genesis certs certs.length set) {n : ℕ}
    {active : ValidatorSet} (hactive : HadAt c genesis certs n active) (answers : List (ValidatorMember × Page))
    (hhonest : ∀ x ∈ answers, ∀ page, x.2 = .ok page → ∃ b, page = slice certs n b)
    (hsome : ∃ x ∈ answers, ∃ page, x.2 = .ok page ∧ page ≠ []) (why : List String) (endOfChain : Bool) :
    ∃ b, n < b ∧ fetchLoop c active (n + 1) answers why endOfChain = .ok (slice certs n b) := by
  induction answers generalizing why endOfChain with
  | nil =>
    obtain ⟨x, hx, _⟩ := hsome
    cases hx
  | cons x answers ih =>
    obtain ⟨m, answer⟩ := x
    have hskip : (∀ page, answer = .ok page → page = []) → ∃ y ∈ answers, ∃ page, y.2 = .ok page ∧ page ≠ [] := by
      intro hnone
      obtain ⟨y, hy, page, hpage, hne⟩ := hsome
      rcases List.mem_cons.1 hy with rfl | hy
      · exact absurd (hnone page hpage) hne
      · exact ⟨y, hy, page, hpage, hne⟩
    have hrest : ∀ y ∈ answers, ∀ page, y.2 = .ok page → ∃ b, page = slice certs n b :=
      fun y hy => hhonest y (List.mem_cons_of_mem _ hy)
    unfold fetchLoop
    cases answer with
    | error e => exact ih hrest (hskip (by simp)) _ _
    | ok page =>
      cases page with
      | nil => exact ih hrest (hskip (by simp)) _ _
      | cons cert page =>
        obtain ⟨b, hb⟩ := hhonest _ List.mem_cons_self (cert :: page) rfl
        obtain ⟨hlt, hlen⟩ := slice_ne_nil (hb ▸ List.cons_ne_nil cert page)
        have hcap : slice certs n b = slice certs n (min b certs.length) := by
          unfold slice
          rw [List.take_eq_take_min]
        obtain ⟨top, htop⟩ := hset
        obtain ⟨last, hlast⟩ := htop.below (min_le_right b certs.length)
        have hcheck := checkPage_slice hgov hlast (le_min hlt.le hlen.le) hactive
        rw [← hcap] at hcheck
        exact ⟨b, hlt, by simp only [hb, hcheck]⟩

/-- **A page of the chain's own.** It is applied up to the target. -/
theorem Mirrors.slice (hchain : Applied c genesis certs ref) (hsets : DistinctSets c genesis certs) (target b : ℕ)
    (h : Mirrors c genesis certs st) (hle : st.headSequence ≤ b) :
    ∃ st', catchUpLoop c target st (sittingSet genesis st) (Network.slice certs st.headSequence b) =
        (st', .ok (sittingSet genesis st')) ∧ Mirrors c genesis certs st' ∧ Rises st st' ∧
      min target (min b certs.length) ≤ st'.headSequence ∧ st'.headSequence ≤ max st.headSequence target := by
  generalize hgap : b - st.headSequence = gap
  induction gap generalizing st with
  | zero =>
    have hnil : Network.slice certs st.headSequence b = [] := by
      by_contra hne
      have := slice_ne_nil hne
      omega
    rw [hnil]
    exact ⟨st, rfl, h, .refl _, by omega, le_max_left ..⟩
  | succ gap ih =>
    cases hown : certs[st.headSequence]? with
    | none =>
      have hend := List.getElem?_eq_none_iff.1 hown
      have hnil : Network.slice certs st.headSequence b = [] := by
        by_contra hne
        have := slice_ne_nil hne
        omega
      rw [hnil]
      exact ⟨st, rfl, h, .refl _, by omega, le_max_left ..⟩
    | some own =>
      have hseq := ((Applied.governed hchain).2 _ own hown).1
      rw [slice_cons (by omega) hown]
      unfold catchUpLoop
      split_ifs with habove
      · exact ⟨st, rfl, h, .refl _, by omega, le_max_left ..⟩
      · omega
      · obtain ⟨next, hap⟩ := h.applies hchain hown
        obtain ⟨hm, hhead, _⟩ := h.apply hchain hsets (unforged_of_mem (List.mem_of_getElem? hown)) h.sitting.1 hap
        have hcarried : next.currentSet.getD (sittingSet genesis st) = sittingSet genesis next := by
          cases hcur : next.currentSet with
          | none =>
            have hnever := (h.rises hap).unset hcur
            rw [sittingSet, sittingSet, hnever, hcur]
            rfl
          | some set => simp only [sittingSet, hcur, Option.getD_some]
        obtain ⟨st', hloop, hm', hrises, hlow, hhigh⟩ := ih hm (by omega) (by omega)
        rw [hhead] at hloop hhigh
        rw [hap]
        dsimp only
        rw [hcarried]
        exact ⟨st', hloop, hm', (h.rises hap).trans hrises, hlow, by omega⟩

/-- a seat that only votes keeps its entries and its set -/
theorem handle_votes (rs : List Request) (hrs : ∀ r ∈ rs, ∀ cert, r ≠ .commit cert) (a : App) :
    Agrees (rs.foldl (Network.handle c) a).store a.store ∧ (rs.foldl (Network.handle c) a).set = a.set := by
  induction rs generalizing a with
  | nil => exact ⟨.refl _, rfl⟩
  | cons r rs ih =>
    obtain ⟨hstore, hset⟩ := handle_vote (c := c) a (hrs r List.mem_cons_self)
    obtain ⟨hstore', hset'⟩ := ih (fun r' hr' => hrs r' (List.mem_cons_of_mem _ hr')) (Network.handle c a r)
    exact ⟨hstore'.trans hstore, hset'.trans hset⟩

/-- **Run.** With the chain to be had from somebody, and nothing but votes in between, catching up reaches its target and
stops there. -/
theorem OnTrack.level (hchain : Applied c genesis certs ref) (hsets : DistinctSets c genesis certs)
    {servers : Servers} {members : List ValidatorMember} {busy : Meanwhile} (hhonest : servers.Honest certs)
    (hcover : servers.Cover members certs) (hvotes : busy.Votes) {target : ℕ} (htarget : target ≤ certs.length)
    (fuel round applied : ℕ) {a : App} (h : OnTrack c genesis certs a) (hfuel : target - a.store.headSequence < fuel) :
    ∃ a', Network.catchUpTo c servers members busy target fuel round applied a =
        some (a', .ok (applied + (target - a.store.headSequence))) ∧ OnTrack c genesis certs a' ∧
      a'.store.headSequence = max a.store.headSequence target ∧
      (a.store.headSequence < target ∨ a.set = sittingSet genesis a.store → a'.set = sittingSet genesis a'.store) := by
  induction fuel generalizing round applied a with
  | zero => omega
  | succ fuel ih =>
    unfold Network.catchUpTo
    dsimp only
    split_ifs with hdone
    · refine ⟨a, by rw [Nat.sub_eq_zero_of_le hdone, Nat.add_zero], h, (max_eq_left hdone).symm, ?_⟩
      intro hset
      exact hset.resolve_left (not_lt.2 hdone)
    have hlow : a.store.headSequence < target := not_le.1 hdone
    obtain ⟨hstore, hset⟩ := handle_votes (c := c) (busy.fetching round)
      (fun r hr cert heq => hvotes cert ⟨round, Or.inl (heq ▸ hr)⟩) a
    generalize (busy.fetching round).foldl (Network.handle c) a = a₁ at hstore hset ⊢
    have hfull : ∃ set, HadAt c genesis certs certs.length set :=
      ⟨_, le_rfl, by rw [chainSet, List.take_length]; exact hchain.follows.2⟩
    have hactive : HadAt c genesis certs a.store.headSequence (a.store.currentSet.getD a.set) := by
      rw [h.recognised]
      exact h.mirrors.sitting.1
    obtain ⟨m, hm, page, hpage, hne⟩ := hcover round a.store.headSequence
      (min (target - a.store.headSequence) healBatch) (by omega) (by unfold healBatch; omega)
    obtain ⟨b, hb, hfetch⟩ := fetchLoop_honest (Applied.governed hchain).2 hfull hactive
      (members.map fun m => (m, servers round (a.store.headSequence + 1)
        (min (target - a.store.headSequence) healBatch) m))
      (by
        intro x hx page hpage
        obtain ⟨m, _, rfl⟩ := List.mem_map.1 hx
        exact hhonest _ _ _ _ _ hpage)
      ⟨_, List.mem_map_of_mem hm, page, hpage, hne⟩ [] false
    have hown : certs[a.store.headSequence]? = some certs[a.store.headSequence] := List.getElem?_eq_getElem _
    have hslice := slice_cons hb hown
    unfold fetchCertificates
    rw [hfetch, hslice]
    dsimp only
    rw [← hslice, h.recognised]
    have hm₁ : Mirrors c genesis certs a₁.store := h.mirrors.of_agrees hstore
    obtain ⟨st', hloop, hm', hrises, hreach, hstop⟩ := hm₁.slice hchain hsets target b (by
      rw [hstore.headSequence_eq]
      exact hb.le)
    have hsit : sittingSet genesis a₁.store = sittingSet genesis a.store := by
      rw [sittingSet, sittingSet, hstore.currentSet_eq]
    rw [hsit, hstore.headSequence_eq] at hloop
    rw [hstore.headSequence_eq] at hstop
    rw [hloop]
    dsimp only
    obtain ⟨hstore', hset'⟩ := handle_votes (c := c) (busy.publishing round)
      (fun r hr cert heq => hvotes cert ⟨round, Or.inr (heq ▸ hr)⟩) { a₁ with store := st' }
    generalize (busy.publishing round).foldl (Network.handle c) { a₁ with store := st' } = a₃ at hstore' hset' ⊢
    dsimp only at hstore' hset'
    have hsit' : sittingSet genesis a₃.store = sittingSet genesis st' := by
      rw [sittingSet, sittingSet, hstore'.currentSet_eq]
    have h₄ : OnTrack c genesis certs { a₃ with set := sittingSet genesis st' } := by
      refine ⟨hm'.of_agrees hstore', ⟨_, hm'.sitting.1⟩, fun hnone => ?_⟩
      have hnone' : st'.currentSet = none := by
        rw [← hstore'.currentSet_eq]
        exact hnone
      change sittingSet genesis st' = genesis
      rw [sittingSet, hnone', Option.getD_none]
    have hcount := hm₁.length.1
    rw [hstore.headSequence_eq] at hcount
    have hcount' := hm'.length.1
    have hhead := hstore'.headSequence_eq
    split_ifs with hstalled
    · omega
    · obtain ⟨a', hend, htrack, hhead', hsit''⟩ := ih (round + 1)
        (applied + (st'.certificates.length - a₁.store.certificates.length)) h₄ (by dsimp only; omega)
      dsimp only at hhead' hend hsit''
      refine ⟨a', ?_, htrack, by omega, fun _ => hsit'' (Or.inr hsit'.symm)⟩
      rw [hend, hhead, hcount, hcount']
      have harith : applied + (st'.headSequence - a.store.headSequence) + (target - st'.headSequence) =
          applied + (target - a.store.headSequence) := by omega
      rw [harith]

end

namespace Sample

open Hocmesh.Protocol.Sample

/-- the chain with one community job: it is applied, and it passes an audit -/
theorem funded : ∃ certs st r, Applied crypto (committee 1) certs st ∧ certs.length = 1 ∧
    DistinctSets crypto (committee 1) certs ∧ (∀ h, chainSet crypto (committee 1) certs h = .ok (committee 1)) ∧
    certs.foldlM (replayCertificate crypto) ⟨0, "GENESIS", LedgerState.empty, committee 1⟩ = .ok r ∧
    certs.flatMap (·.entry.transactions) = [smallMint] := by
  have hrun : (Books.Sample.applyBatches crypto (committee 1) [[smallMint]]).okWith (fun p =>
      p.1.length = 1 ∧ p.1.flatMap (·.entry.transactions) = [smallMint] ∧ (p.1.flatMap changesIn).isEmpty = true ∧
      (p.1.foldlM (replayCertificate crypto) ⟨0, "GENESIS", LedgerState.empty, committee 1⟩).okWith (fun _ => true) =
        true) = true := by decide +kernel
  obtain ⟨⟨certs, st⟩, hp, hfacts⟩ := (okWith_iff _ _).1 hrun
  obtain ⟨hlen, htxs, hnone, haudit⟩ := of_decide_eq_true hfacts
  obtain ⟨r, hr, -⟩ := (okWith_iff _ _).1 haudit
  have hlen : certs.length = 1 := hlen
  have htxs : certs.flatMap (·.entry.transactions) = [smallMint] := htxs
  have hnone : certs.flatMap changesIn = [] := List.isEmpty_iff.1 hnone
  have hall : ∀ h, chainSet crypto (committee 1) certs h = .ok (committee 1) := by
    intro h
    have htake : (certs.take h).flatMap changesIn = [] := by
      rw [List.flatMap_eq_nil_iff] at hnone ⊢
      exact fun cert hin => hnone cert (List.mem_of_mem_take hin)
    rw [chainSet, htake]
    rfl
  exact ⟨certs, st, r, Books.Sample.applied_of_applyBatches hp, hlen, distinctSets_of (by omega) fun h _ => .inl (hall h),
    hall, hr, htxs⟩

end Sample

end Hocmesh.Network
