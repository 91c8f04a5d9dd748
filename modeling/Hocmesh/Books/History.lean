/-
What a history of certificates says, whoever holds it.

`moved` and `lifetime` are the balance and the lifetime totals of an account as sums over the postings of the history, and
`placed` lists its transactions with the heights that carry them. A table of a store or of a ledger state is described by
the rows it has to have (`Indexes`). `Records certs s` says that a state is the one the history leaves: its balances are
exact, its totals are kept in `i64`, and rows of zeros do not count. Two states that record one history have one digest.
-/
import Hocmesh.Books.Audit

namespace Hocmesh.Books

open Hocmesh.Base Hocmesh.Protocol Hocmesh.Compute Hocmesh.Ledger Hocmesh.Validator

/-! ## Sums over postings -/

/-- what the postings add up to for one account -/
def moved (ps : List Posting) (a : String) : ℤ := (ps.map fun p => if p.accountId = a then p.deltaMcu else 0).sum

/-- what they earn and spend for one account -/
def lifetime (ps : List Posting) (a : String) : ℤ × ℤ :=
  (ps.map fun p => if p.accountId = a then addActivity (0, 0) p.deltaMcu else 0).sum

theorem moved_cons (p : Posting) (ps : List Posting) (a : String) :
    moved (p :: ps) a = (if p.accountId = a then p.deltaMcu else 0) + moved ps a := by
  simp [moved]

theorem lifetime_cons (p : Posting) (ps : List Posting) (a : String) :
    lifetime (p :: ps) a = (if p.accountId = a then addActivity (0, 0) p.deltaMcu else 0) + lifetime ps a := by
  simp [lifetime]

theorem moved_append (ps qs : List Posting) (a : String) : moved (ps ++ qs) a = moved ps a + moved qs a := by
  simp [moved]

theorem lifetime_append (ps qs : List Posting) (a : String) :
    lifetime (ps ++ qs) a = lifetime ps a + lifetime qs a := by
  simp [lifetime]

theorem addActivity_eq (seen : ℤ × ℤ) (delta : ℤ) : addActivity seen delta = seen + addActivity (0, 0) delta := by
  unfold addActivity
  split_ifs
  · ext <;> simp
  · ext <;> simp [sub_eq_add_neg]

theorem entry_foldl_postBalance (ps : List Posting) (t : Table String ℤ) (a : String) :
    Table.entry (ps.foldl postBalance t) a = Table.entry t a + moved ps a := by
  induction ps generalizing t with
  | nil => simp [moved]
  | cons p ps ih =>
    rw [List.foldl_cons, ih, moved_cons, postBalance, Table.entry_insert]
    split_ifs with h
    · rw [h]
      ring
    · ring

theorem get_foldl_postActivity (ps : List Posting) (t : Table String (ℤ × ℤ)) (a : String) :
    (ps.foldl (fun t p => postActivity t p.accountId p.deltaMcu) t)[a]?.getD (0, 0) =
      t[a]?.getD (0, 0) + lifetime ps a := by
  induction ps generalizing t with
  | nil => exact (add_zero _).symm
  | cons p ps ih =>
    rw [List.foldl_cons, ih, lifetime_cons, postActivity, Table.get_insert]
    split_ifs with h
    · rw [Option.getD_some, addActivity_eq, h, add_assoc]
    · rw [zero_add]

/-- the totals SQLite sums up for one account -/
theorem get_sumActivity (rows : List ActivityRow) (a : String) :
    (LedgerStore.sumActivity rows)[a]?.getD (0, 0) =
      lifetime (rows.map fun r => ⟨r.accountId, r.deltaMcu⟩) a := by
  have h := get_foldl_postActivity (rows.map fun r => (⟨r.accountId, r.deltaMcu⟩ : Posting)) ∅ a
  have hzero : (∅ : Table String (ℤ × ℤ))[a]?.getD (0, 0) = 0 := by simp
  rw [List.foldl_map, hzero, zero_add] at h
  exact h

theorem lifetime_nonneg (ps : List Posting) (a : String) : 0 ≤ (lifetime ps a).1 ∧ 0 ≤ (lifetime ps a).2 := by
  induction ps with
  | nil => simp [lifetime]
  | cons p ps ih =>
    rw [lifetime_cons]
    split_ifs
    · simp only [addActivity]
      split_ifs <;> constructor <;> simp only [Prod.fst_add, Prod.snd_add] <;> omega
    · simpa using ih

/-- postings of other accounts count for nothing -/
theorem lifetime_filter (ps : List Posting) (a : String) :
    lifetime (ps.filter fun p => p.accountId = a) a = lifetime ps a := by
  induction ps with
  | nil => rfl
  | cons p ps ih =>
    by_cases h : p.accountId = a
    · rw [List.filter_cons_of_pos (by simpa using h), lifetime_cons, lifetime_cons, ih]
    · rw [List.filter_cons_of_neg (by simpa using h), lifetime_cons, if_neg h, zero_add, ih]

/-! ## Arithmetic in `i64` -/

theorem wrapPair_add_wrapPair (x y : ℤ × ℤ) : wrapPair (x + wrapPair y) = wrapPair (x + y) := by
  simp only [wrapPair, Prod.fst_add, Prod.snd_add, wrap64_add_wrap64]

theorem wrapPair_wrapPair_add (x y : ℤ × ℤ) : wrapPair (wrapPair x + y) = wrapPair (x + y) := by
  simp only [wrapPair, Prod.fst_add, Prod.snd_add, wrap64_wrap64_add]

theorem wrapPair_wrapPair (x : ℤ × ℤ) : wrapPair (wrapPair x) = wrapPair x := by
  simp only [wrapPair, wrap64_wrap64]

/-- a pair of totals that are values of type `i64` -/
def FitsPair (p : ℤ × ℤ) : Prop := FitsI64 p.1 ∧ FitsI64 p.2

theorem wrapPair_of_fits {p : ℤ × ℤ} (h : FitsPair p) : wrapPair p = p := by
  simp only [wrapPair, wrap64_of_fits h.1, wrap64_of_fits h.2]

/-! ## Transactions with their heights -/

/-- every transaction of a history with the height that carries it -/
def placed (certs : List QuorumCertificate) : List (ℕ × LedgerTransaction) :=
  certs.flatMap fun cert => cert.entry.transactions.map fun tx => (cert.entry.sequence, tx)

def postingsOf (certs : List QuorumCertificate) : List Posting :=
  certs.flatMap fun cert => cert.entry.transactions.flatMap (·.postings)

theorem placed_append (l₁ l₂ : List QuorumCertificate) : placed (l₁ ++ l₂) = placed l₁ ++ placed l₂ := by
  simp [placed]

theorem postingsOf_append (l₁ l₂ : List QuorumCertificate) :
    postingsOf (l₁ ++ l₂) = postingsOf l₁ ++ postingsOf l₂ := by
  simp [postingsOf]

theorem mem_placed {certs : List QuorumCertificate} {x : ℕ × LedgerTransaction} :
    x ∈ placed certs ↔ ∃ cert ∈ certs, cert.entry.sequence = x.1 ∧ x.2 ∈ cert.entry.transactions := by
  simp only [placed, List.mem_flatMap, List.mem_map]
  constructor
  · rintro ⟨cert, hc, tx, htx, rfl⟩
    exact ⟨cert, hc, rfl, htx⟩
  · rintro ⟨cert, hc, hseq, htx⟩
    exact ⟨cert, hc, x.2, htx, by rw [hseq]⟩

/-- certificates numbered without a gap, the first one after `off` -/
def NumberedFrom (off : ℕ) (certs : List QuorumCertificate) : Prop :=
  ∀ i cert, certs[i]? = some cert → cert.entry.sequence = off + i + 1

namespace NumberedFrom

variable {off : ℕ} {certs : List QuorumCertificate}

theorem drop (h : NumberedFrom off certs) (k : ℕ) : NumberedFrom (off + k) (certs.drop k) := by
  intro i cert hi
  rw [List.getElem?_drop] at hi
  have := h _ _ hi
  omega

theorem take (h : NumberedFrom off certs) (k : ℕ) : NumberedFrom off (certs.take k) := by
  intro i cert hi
  rw [List.getElem?_take] at hi
  split_ifs at hi
  exact h _ _ hi

theorem snoc (h : NumberedFrom off certs) {cert : QuorumCertificate}
    (hc : cert.entry.sequence = off + certs.length + 1) : NumberedFrom off (certs ++ [cert]) := by
  intro i x hi
  rcases Nat.lt_or_ge i certs.length with hlt | hge
  · rw [List.getElem?_append_left hlt] at hi
    exact h _ _ hi
  · rw [List.getElem?_append_right hge, List.getElem?_singleton] at hi
    split_ifs at hi with h0
    cases hi
    omega

/-- the certificates above a height are the ones behind it in the list -/
theorem filter_above (h : NumberedFrom off certs) (n : ℕ) :
    certs.filter (fun cert => n + 1 ≤ cert.entry.sequence) = certs.drop (n - off) := by
  induction certs generalizing off with
  | nil => simp
  | cons cert certs ih =>
    have hseq : cert.entry.sequence = off + 0 + 1 := h 0 cert rfl
    have htail : NumberedFrom (off + 1) certs := h.drop 1
    by_cases hle : n ≤ off
    · have hall : ∀ x ∈ cert :: certs, n + 1 ≤ x.entry.sequence := by
        intro x hx
        obtain ⟨i, hi⟩ := List.mem_iff_getElem?.1 hx
        have := h i x hi
        omega
      rw [List.filter_eq_self.2 (by simpa using hall), Nat.sub_eq_zero_of_le hle, List.drop_zero]
    · have hdrop : n - off = (n - (off + 1)) + 1 := by omega
      rw [List.filter_cons_of_neg (by simp; omega), ih htail, hdrop, List.drop_succ_cons]

theorem getLast? (h : NumberedFrom off certs) {cert : QuorumCertificate} (hc : certs.getLast? = some cert) :
    cert.entry.sequence = off + certs.length := by
  rw [List.getLast?_eq_getElem?] at hc
  have := h _ _ hc
  have hpos : certs.length ≠ 0 := by
    intro h0
    simp [List.length_eq_zero_iff.1 h0] at hc
  omega

theorem find? (h : NumberedFrom off certs) (i : ℕ) :
    certs.find? (fun cert => cert.entry.sequence = off + i + 1) = certs[i]? := by
  induction certs generalizing off i with
  | nil => simp
  | cons cert certs ih =>
    have hseq : cert.entry.sequence = off + 0 + 1 := h 0 cert rfl
    cases i with
    | zero => simp [hseq]
    | succ i =>
      rw [List.find?_cons_of_neg (by simp; omega), List.getElem?_cons_succ]
      have := ih (h.drop 1) i
      rw [← this]
      congr 1
      funext x
      congr 1
      rw [eq_iff_iff]
      constructor <;> intro hx <;> omega

theorem mem_placed_take (h : NumberedFrom 0 certs) (n : ℕ) (x : ℕ × LedgerTransaction) :
    x ∈ placed (certs.take n) ↔ x ∈ placed certs ∧ x.1 ≤ n := by
  simp only [mem_placed]
  constructor
  · rintro ⟨cert, hc, hseq, htx⟩
    obtain ⟨i, hi⟩ := List.mem_iff_getElem?.1 hc
    rw [List.getElem?_take] at hi
    split_ifs at hi with hlt
    have := h i cert hi
    exact ⟨⟨cert, List.mem_of_getElem? hi, hseq, htx⟩, by omega⟩
  · rintro ⟨⟨cert, hc, hseq, htx⟩, hle⟩
    obtain ⟨i, hi⟩ := List.mem_iff_getElem?.1 hc
    have := h i cert hi
    have htake : (certs.take n)[i]? = some cert := by
      rw [List.getElem?_take, if_pos (by omega)]
      exact hi
    exact ⟨cert, List.mem_of_getElem? htake, hseq, htx⟩

end NumberedFrom

/-! ## Tables a history determines -/

section Indexes

variable {V W : Type} {row : LedgerTransaction → Option (String × V)} {mk : ℕ → V → W}
  {l l' : List (ℕ × LedgerTransaction)} {t : Table String W}

/-- the rows of a table are those its transactions leave, each made from the transaction's height and its value -/
def Indexes (l : List (ℕ × LedgerTransaction)) (row : LedgerTransaction → Option (String × V)) (mk : ℕ → V → W)
    (t : Table String W) : Prop :=
  ∀ j w, t[j]? = some w ↔ ∃ x ∈ l, ∃ v, row x.2 = some (j, v) ∧ w = mk x.1 v

/-- no two transactions leave a row under one key -/
def KeysApart (row : LedgerTransaction → Option (String × V)) (l : List (ℕ × LedgerTransaction)) : Prop :=
  l.Pairwise fun x y => ∀ j v w, row x.2 = some (j, v) → row y.2 ≠ some (j, w)

theorem Indexes.mem (h : Indexes l row mk t) (j : String) : j ∈ t ↔ ∃ x ∈ l, ∃ v, row x.2 = some (j, v) := by
  rw [Std.ExtTreeMap.mem_iff_isSome_getElem?, Option.isSome_iff_exists]
  constructor
  · intro hj
    obtain ⟨w, hw⟩ := hj
    obtain ⟨x, hx, v, hv, _⟩ := (h j w).1 hw
    exact ⟨x, hx, v, hv⟩
  · intro hj
    obtain ⟨x, hx, v, hv⟩ := hj
    exact ⟨mk x.1 v, (h j _).2 ⟨x, hx, v, hv, rfl⟩⟩

theorem Indexes.unique {u : Table String W} (ht : Indexes l row mk t) (hu : Indexes l row mk u) : t = u := by
  apply Std.ExtTreeMap.ext_getElem?
  intro j
  apply Option.ext
  intro w
  exact (ht j w).trans (hu j w).symm

theorem Indexes.map {X : Type} (h : Indexes l row mk t) (f : W → X) :
    Indexes l row (fun n v => f (mk n v)) (t.map fun _ w => f w) := by
  intro j y
  rw [Std.ExtTreeMap.getElem?_map, Option.map_eq_some_iff]
  constructor
  · intro hy
    obtain ⟨w, hw, rfl⟩ := hy
    obtain ⟨x, hx, v, hv, rfl⟩ := (h j w).1 hw
    exact ⟨x, hx, v, hv, rfl⟩
  · intro hy
    obtain ⟨x, hx, v, hv, rfl⟩ := hy
    exact ⟨mk x.1 v, (h j _).2 ⟨x, hx, v, hv, rfl⟩, rfl⟩

/-- the same rows under another rule that agrees on these transactions -/
theorem Indexes.congr {mk' : ℕ → V → W} (h : Indexes l row mk t) (hmk : ∀ x ∈ l, ∀ v, mk x.1 v = mk' x.1 v) :
    Indexes l row mk' t := by
  intro j w
  rw [h j w]
  constructor
  · intro hw
    obtain ⟨x, hx, v, hv, rfl⟩ := hw
    exact ⟨x, hx, v, hv, hmk x hx v⟩
  · intro hw
    obtain ⟨x, hx, v, hv, rfl⟩ := hw
    exact ⟨x, hx, v, hv, (hmk x hx v).symm⟩

/-- dropping the rows of some transactions -/
theorem Indexes.filter (h : Indexes l row mk t) (p : String → W → Bool) (hsub : ∀ x ∈ l', x ∈ l)
    (hp : ∀ x ∈ l, ∀ j v, row x.2 = some (j, v) → (p j (mk x.1 v) = true ↔ x ∈ l')) :
    Indexes l' row mk (t.filter p) := by
  intro j w
  rw [Std.ExtTreeMap.getElem?_filter', Option.filter_eq_some_iff, h j w]
  constructor
  · intro hw
    obtain ⟨⟨x, hx, v, hv, rfl⟩, hpw⟩ := hw
    exact ⟨x, (hp x hx j v hv).1 hpw, v, hv, rfl⟩
  · intro hw
    obtain ⟨x, hx, v, hv, rfl⟩ := hw
    exact ⟨⟨x, hsub x hx, v, hv, rfl⟩, (hp x (hsub x hx) j v hv).2 hx⟩

theorem Indexes.snoc {n : ℕ} {tx : LedgerTransaction} (h : Indexes l row mk t)
    (hnew : ∀ x ∈ l, ∀ j v w, row x.2 = some (j, v) → row tx ≠ some (j, w)) :
    Indexes (l ++ [(n, tx)]) row mk (LedgerStore.upsert t (row tx) (mk n)) := by
  intro j w
  simp only [List.mem_append, List.mem_singleton, or_and_right, exists_or, exists_eq_left]
  cases hrow : row tx with
  | none => simpa [LedgerStore.upsert] using h j w
  | some r =>
    obtain ⟨k, v⟩ := r
    simp only [LedgerStore.upsert, Table.get_insert, Option.some.injEq, Prod.mk.injEq]
    split_ifs with hk
    · subst hk
      simp only [Option.some.injEq, true_and]
      constructor
      · intro hw
        exact Or.inr ⟨v, rfl, hw.symm⟩
      · rintro (⟨x, hx, v', hv', _⟩ | ⟨v', rfl, rfl⟩)
        · exact absurd hrow (hnew x hx k v' v hv')
        · rfl
    · rw [h j w]
      constructor
      · exact Or.inl
      · rintro (hx | ⟨v', ⟨rfl, _⟩, _⟩)
        · exact hx
        · exact absurd rfl hk

/-- **Indexing more of the history.** -/
theorem Indexes.extend (h : Indexes l row mk t) (hk : KeysApart row (l ++ l')) :
    Indexes (l ++ l') row mk (l'.foldl (fun t x => LedgerStore.upsert t (row x.2) (mk x.1)) t) := by
  induction l' generalizing l t with
  | nil => simpa using h
  | cons x l' ih =>
    have hsplit : l ++ x :: l' = (l ++ [x]) ++ l' := by simp
    rw [hsplit] at hk ⊢
    have hx : ∀ y ∈ l, ∀ j v w, row y.2 = some (j, v) → row x.2 ≠ some (j, w) := by
      intro y hy
      exact (List.pairwise_append.1 (List.pairwise_append.1 hk).1).2.2 y hy x (by simp)
    exact ih (h.snoc hx) hk

theorem Indexes.nil : Indexes [] row mk (∅ : Table String W) := by
  intro j w
  simp

end Indexes

/-- the row a claim leaves -/
def claimRow (tx : LedgerTransaction) : Option (String × Unit) := some (claimKey tx, ())

/-- no claim is settled twice -/
def SettledOnce (l : List (ℕ × LedgerTransaction)) : Prop := l.Pairwise fun x y => claimKey x.2 ≠ claimKey y.2

theorem SettledOnce.claims {l : List (ℕ × LedgerTransaction)} (h : SettledOnce l) : KeysApart claimRow l := by
  refine h.imp ?_
  intro x y hne j v w hx hy
  simp only [claimRow, Option.some.injEq, Prod.mk.injEq] at hx hy
  exact hne (hx.1.trans hy.1.symm)

theorem SettledOnce.jobs {l : List (ℕ × LedgerTransaction)} (h : SettledOnce l) : KeysApart LedgerStore.jobRecord l := by
  refine h.imp ?_
  intro x y hne j v w hx hy
  exact hne ((claimKey_of_jobRecord hx).trans (claimKey_of_jobRecord hy).symm)

theorem SettledOnce.inference {l : List (ℕ × LedgerTransaction)} (h : SettledOnce l) :
    KeysApart LedgerStore.inferenceRecord l := by
  refine h.imp ?_
  intro x y hne j v w hx hy
  exact hne ((claimKey_of_inferenceRecord hx).trans (claimKey_of_inferenceRecord hy).symm)

/-! ## The state a history leaves -/

/-- a ledger state after exactly these certificates -/
structure Records (certs : List QuorumCertificate) (s : LedgerState) : Prop where
  balances : ∀ a, s.balances.entry a = moved (postingsOf certs) a
  claims : Indexes (placed certs) claimRow (fun _ _ => ()) s.claims
  jobs : Indexes (placed certs) LedgerStore.jobRecord (fun _ r => r) s.reservations
  inference : Indexes (placed certs) LedgerStore.inferenceRecord (fun _ r => r) s.inference
  activity : ∀ a, s.activity[a]?.getD (0, 0) = wrapPair (lifetime (postingsOf certs) a)

/-- **One history, one digest.** -/
theorem Records.digest_eq {certs : List QuorumCertificate} {s s' : LedgerState} (h : Records certs s)
    (h' : Records certs s') (c : Crypto) : s.digest c = s'.digest c := by
  have hbal : s.balances.toList.filter (fun row => row.2 ≠ 0) = s'.balances.toList.filter fun row => row.2 ≠ 0 :=
    Table.filter_ne_congr 0 fun a => (h.balances a).trans (h'.balances a).symm
  have hact : s.activity.toList.filter (fun row => row.2 ≠ (0, 0)) =
      s'.activity.toList.filter fun row => row.2 ≠ (0, 0) :=
    Table.filter_ne_congr (0, 0) fun a => (h.activity a).trans (h'.activity a).symm
  have hne : ∀ p : ℤ × ℤ, p ≠ (0, 0) ↔ p.1 ≠ 0 ∨ p.2 ≠ 0 := by
    intro p
    rw [Ne, Prod.ext_iff, not_and_or]
  simp only [hne] at hact
  unfold LedgerState.digest
  rw [hbal, hact, h.claims.unique h'.claims, h.jobs.unique h'.jobs, h.inference.unique h'.inference]

end Hocmesh.Books
