/-
What a handled message can do to a validator, as the ballots at a height see it.

`Advances` is all that preparing, committing, catching up and restarting have in common: the head never moves back, what
was accepted above the head stays, promises above the head only grow, and the chain grows by certificates from the pool.
Proposing is the one step that also accepts.
-/
import Mathlib.Data.String.Basic
import Mathlib.Data.Prod.Lex
import Hocmesh.Books.Record
import Hocmesh.Ledger.Ballots
import Hocmesh.Network.Run

namespace Hocmesh.Network

open Hocmesh.Base Hocmesh.Protocol Hocmesh.Ledger Hocmesh.Validator Hocmesh.Books

/-! ## The order of ballots -/

instance : LinearOrder Ballot :=
  LinearOrder.lift' (fun b => toLex (b.number, b.proposer)) fun a b h => by
    cases a
    cases b
    simpa using h

theorem outranks_iff (a b : Ballot) : a.outranks b ↔ b < a := by
  change _ ↔ toLex (b.number, b.proposer) < toLex (a.number, a.proposer)
  rw [Prod.Lex.lt_iff, Ballot.outranks, eq_comm (a := a.number)]
  rfl

theorem not_outranks_iff (a b : Ballot) : ¬ a.outranks b ↔ a ≤ b := by
  rw [outranks_iff, not_lt]

/-! ## A seat's chain -/

/-- entry number `i` of the chain is at height `i + 1`, and came out of the pool -/
def Chained (certs : List QuorumCertificate) (st : LedgerStore) : Prop :=
  ∀ (i : ℕ) cert, st.certificates[i]? = some cert → cert.entry.sequence = i + 1 ∧ cert ∈ certs

theorem Chained.mono {certs certs' : List QuorumCertificate} {st : LedgerStore} (h : Chained certs st)
    (hsub : ∀ cert ∈ certs, cert ∈ certs') : Chained certs' st := by
  intro i cert hi
  obtain ⟨hseq, hin⟩ := h i cert hi
  exact ⟨hseq, hsub cert hin⟩

theorem Chained.head {certs : List QuorumCertificate} {st : LedgerStore} (h : Chained certs st) :
    st.headSequence = st.certificates.length := by
  unfold LedgerStore.headSequence
  rw [List.getLast?_eq_getElem?]
  cases hlast : st.certificates[st.certificates.length - 1]? with
  | none =>
    have := List.getElem?_eq_none_iff.1 hlast
    simp only [Option.map_none, Option.getD_none]
    omega
  | some cert =>
    have hlt := (List.getElem?_eq_some_iff.1 hlast).1
    simp only [Option.map_some, Option.getD_some, (h _ cert hlast).1]
    omega

/-- the hash an entry at height `n + 1` has to extend -/
def HeadAt (certs : List QuorumCertificate) (n : ℕ) (hash : String) : Prop :=
  (n = 0 ∧ hash = "GENESIS") ∨ ∃ cert ∈ certs, cert.entry.sequence = n ∧ cert.entry.entryHash = hash

theorem Chained.headAt {certs : List QuorumCertificate} {st : LedgerStore} (h : Chained certs st) :
    HeadAt certs st.headSequence st.headHash := by
  rw [h.head]
  unfold LedgerStore.headHash
  rw [List.getLast?_eq_getElem?]
  cases hlast : st.certificates[st.certificates.length - 1]? with
  | none =>
    have := List.getElem?_eq_none_iff.1 hlast
    exact Or.inl ⟨by omega, rfl⟩
  | some cert =>
    have hlt := (List.getElem?_eq_some_iff.1 hlast).1
    obtain ⟨hseq, hin⟩ := h _ cert hlast
    exact Or.inr ⟨cert, hin, by omega, rfl⟩

/-! ## Steps that cast no vote -/

structure Advances (certs : List QuorumCertificate) (st st' : LedgerStore) : Prop where
  head : st.headSequence ≤ st'.headSequence
  accepted : ∀ s, st'.headSequence < s → st'.acceptedAt s = st.acceptedAt s
  promised : ∀ s p, st'.headSequence < s → st.promisedBallot s = some p → ∃ p', st'.promisedBallot s = some p' ∧ p ≤ p'
  chained : Chained certs st → Chained certs st'

section

variable {certs : List QuorumCertificate} {st st' st'' : LedgerStore}

theorem Advances.of_same (hc : st'.certificates = st.certificates) (hb : st'.ballots = st.ballots) :
    Advances certs st st' where
  head := by simp [LedgerStore.headSequence, hc]
  accepted s _ := by simp [LedgerStore.acceptedAt, hb]
  promised s p _ hp := ⟨p, by simpa [LedgerStore.promisedBallot, hb] using hp, le_rfl⟩
  chained h := by simpa [Chained, hc] using h

theorem Advances.refl (certs : List QuorumCertificate) (st : LedgerStore) : Advances certs st st := .of_same rfl rfl

theorem Advances.trans (h : Advances certs st st') (h' : Advances certs st' st'') : Advances certs st st'' where
  head := h.head.trans h'.head
  accepted s hs := (h'.accepted s hs).trans (h.accepted s (h'.head.trans_lt hs))
  promised s p hs hp := by
    obtain ⟨p₁, hp₁, hle⟩ := h.promised s p (h'.head.trans_lt hs) hp
    obtain ⟨p₂, hp₂, hle'⟩ := h'.promised s p₁ hs hp₁
    exact ⟨p₂, hp₂, hle.trans hle'⟩
  chained hc := h'.chained (h.chained hc)

/-- a promise raises one row and keeps what was accepted under it -/
theorem Advances.promise {s : ℕ} {b : Ballot}
    (hle : ∀ held, st.promisedBallot s = some held → ¬ held.outranks b) :
    Advances certs st { st with ballots := st.ballots.insert s ⟨b, st.acceptedAt s⟩ } where
  head := le_rfl
  accepted s' _ := by
    simp only [LedgerStore.acceptedAt, Table.get_insert]
    split_ifs with h
    · rw [← h]
      rfl
    · rfl
  promised s' p _ hp := by
    simp only [LedgerStore.promisedBallot, Table.get_insert]
    split_ifs with h
    · rw [← h] at hp
      exact ⟨b, rfl, (not_outranks_iff p b).1 (hle p hp)⟩
    · exact ⟨p, hp, le_rfl⟩
  chained h := h

/-- an applied certificate is the next of the chain, and drops only the ballots it settles -/
theorem Advances.apply {c : Crypto} {cert : QuorumCertificate} {set : ValidatorSet} (hin : cert ∈ certs)
    (h : st.apply c cert set = .ok st') : Advances certs st st' := by
  obtain ⟨next, balances, hap, rfl⟩ := apply_ok.1 h
  have hrow : ∀ s, cert.entry.sequence < s → (st.commitRows cert balances next).ballots[s]? = st.ballots[s]? := by
    intro s hs
    change (st.ballots.filter fun s _ => cert.entry.sequence < s)[s]? = _
    rw [Std.ExtTreeMap.getElem?_filter']
    cases st.ballots[s]? <;> simp [hs]
  constructor
  case head =>
    rw [headSequence_commitRows, hap.sequence]
    omega
  case accepted =>
    intro s hs
    rw [headSequence_commitRows] at hs
    simp only [LedgerStore.acceptedAt, hrow s hs]
  case promised =>
    intro s p hs hp
    rw [headSequence_commitRows] at hs
    exact ⟨p, by simpa only [LedgerStore.promisedBallot, hrow s hs] using hp, le_rfl⟩
  case chained =>
    intro hc i cert' hi
    rw [commitRows_certificates] at hi
    rcases lt_or_ge i st.certificates.length with hlt | hge
    · rw [List.getElem?_append_left hlt] at hi
      exact hc i cert' hi
    · rw [List.getElem?_append_right hge] at hi
      have hlast : i - st.certificates.length = 0 := by
        have := (List.getElem?_eq_some_iff.1 hi).1
        rw [List.length_singleton] at this
        omega
      rw [hlast] at hi
      cases hi
      rw [hap.sequence, hc.head]
      exact ⟨by omega, hin⟩

theorem Advances.catchUpLoop {c : Crypto} {target : ℕ} (page : List QuorumCertificate)
    (hpage : ∀ cert ∈ page, cert ∈ certs) (st : LedgerStore) (set : ValidatorSet) :
    Advances certs st (catchUpLoop c target st set page).1 := by
  induction page generalizing st set with
  | nil => exact .refl certs st
  | cons cert rest ih =>
    have hrest : ∀ cert ∈ rest, cert ∈ certs := fun x hx => hpage x (List.mem_cons_of_mem _ hx)
    unfold Validator.catchUpLoop
    split_ifs
    · exact .refl certs st
    · exact ih hrest st set
    · cases hap : st.apply c cert set with
      | error e => exact .refl certs st
      | ok next => exact (Advances.apply (hpage cert List.mem_cons_self) hap).trans (ih hrest next _)

theorem reopen_same (st : LedgerStore) : st.reopen.certificates = st.certificates ∧ st.reopen.ballots = st.ballots := by
  have hfold : ∀ (l : List QuorumCertificate) (s : LedgerStore),
      (l.foldl (fun s cert => LedgerStore.indexCertificate s cert.entry) s).certificates = s.certificates ∧
        (l.foldl (fun s cert => LedgerStore.indexCertificate s cert.entry) s).ballots = s.ballots := by
    intro l
    induction l with
    | nil => intro s; exact ⟨rfl, rfl⟩
    | cons cert l ih => intro s; exact ih _
  exact hfold _ _

end

/-! ## What each handler does -/

/-- a prepare is refused and changes nothing, or it promises the height above the head -/
theorem prepare_cases (a : App) (r : PrepareRequest) :
    ((prepare a r).1 = a ∧ (prepare a r).2.promised = false) ∨
    (r.sequence = a.store.headSequence + 1 ∧
      (∀ held, a.store.promisedBallot r.sequence = some held → ¬ held.outranks r.ballot) ∧
      (prepare a r).1 = { a with store := { a.store with
        ballots := a.store.ballots.insert r.sequence ⟨r.ballot, a.store.acceptedAt r.sequence⟩ } } ∧
      (prepare a r).2.accepted = a.store.acceptedAt r.sequence) := by
  unfold prepare
  simp only
  split
  · rename_i store accepted hres
    simp only [bind_ok, bailIf_ok, exists_const, not_not, LedgerStore.promise_ok] at hres
    obtain ⟨hseq, _, hheld, rfl, rfl⟩ := hres
    exact Or.inr ⟨hseq, hheld, rfl, rfl⟩
  · exact Or.inl ⟨rfl, rfl⟩

/-- a proposal is refused and changes nothing, or it is accepted at the height above the head -/
theorem propose_cases (c : Crypto) (a : App) (r : ProposalRequest) :
    ((propose c a r).1 = a ∧ (propose c a r).2.accepted = false) ∨
    (r.sequence = a.store.headSequence + 1 ∧
      (∀ held, a.store.promisedBallot r.sequence = some held → ¬ held.outranks r.ballot) ∧
      (propose c a r).1 = { a with store := { a.store with
        ballots := a.store.ballots.insert r.sequence
          ⟨r.ballot, some ⟨r.ballot, (nextEntry c a.store r.transactions).entryHash, r.transactions⟩⟩ } } ∧
      (propose c a r).2.accepted = true ∧ (propose c a r).2.sequence = r.sequence ∧
      (propose c a r).2.previousHash = a.store.headHash ∧
      (propose c a r).2.entryHash = (nextEntry c a.store r.transactions).entryHash) := by
  unfold propose
  cases hres : acceptProposal c a r with
  | error e => exact Or.inl ⟨rfl, rfl⟩
  | ok p =>
    obtain ⟨store, e⟩ := p
    simp only [acceptProposal, LedgerStore.acceptBallot_ok, bind_ok, bailIf_ok, exists_const, exists_ok_unit_and,
      pure_ok, Prod.mk.injEq, not_not] at hres
    obtain ⟨hseq, _, store', ⟨_, hheld, _, rfl⟩, rfl, rfl⟩ := hres
    have heq : (nextEntry c a.store r.transactions).sequence = r.sequence := hseq.symm
    rw [heq] at hheld
    refine Or.inr ⟨hseq, hheld, ?_, rfl, heq, rfl, rfl⟩
    rw [heq]
    rfl

theorem advances_prepare (certs : List QuorumCertificate) (a : App) (r : PrepareRequest) :
    Advances certs a.store (prepare a r).1.store := by
  rcases prepare_cases a r with ⟨h, _⟩ | ⟨_, hheld, h, _⟩
  · rw [h]
    exact .refl certs a.store
  · rw [h]
    exact .promise hheld

theorem advances_commit {c : Crypto} {certs : List QuorumCertificate} {a a' : App} {cert : QuorumCertificate}
    {head : LedgerHead} (hin : cert ∈ certs) (h : commit c a cert = .ok (a', head)) :
    Advances certs a.store a'.store := by
  unfold commit at h
  simp only [bind_ok, exists_ok_unit_and] at h
  obtain ⟨_, h⟩ := h
  split_ifs at h
  · simp only [bind_ok, bailIf_ok, exists_const, pure_ok, Prod.mk.injEq] at h
    obtain ⟨_, rfl, _⟩ := h
    exact .refl certs _
  · simp only [bind_ok, exists_ok_unit_and, pure_ok, Prod.mk.injEq] at h
    obtain ⟨_, _, store, hap, rfl, _⟩ := h
    exact .apply hin hap

theorem advances_restart (certs : List QuorumCertificate) {a a' : App} {set : ValidatorSet} {key : String}
    (h : restart a set key = .ok a') : Advances certs a.store a'.store := by
  simp only [restart, bind_ok, bailIf_ok, exists_const, pure_ok] at h
  obtain ⟨_, rfl⟩ := h
  obtain ⟨hcerts, hballots⟩ := reopen_same a.store
  exact .of_same hcerts hballots

end Hocmesh.Network
