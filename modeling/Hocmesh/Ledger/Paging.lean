/-
An account's history, page by page (`hocmesh-ledger/src/store.rs`): `history`, `postings_at` and `has_history_below`.

The cursor is a sequence and the rows are postings, so a full page is trimmed to whole entries, or extended when it holds one
entry only. Either way a page is the slice of the account's rows from the cursor down to the last sequence it shows
(`history_page`), and the walk along the cursors returns everything once.

Two conversions leave rows out of that. The ceiling is clamped to `i64::MAX` and compared strictly, so a row at that very
sequence is below no cursor; and `posting_index` is cut to 32 bits on the way out.
-/
import Hocmesh.Base.Paging
import Hocmesh.Ledger.Store

namespace Hocmesh.Ledger

open Hocmesh.Base

structure AccountHistoryEntry where
  sequence : ℕ
  postingIndex : ℕ
  transactionId : String
  deltaMcu : ℤ
  createdAt : ℤ
deriving DecidableEq

structure AccountHistory where
  accountId : String
  entries : List AccountHistoryEntry
  nextBefore : Option ℕ
deriving DecidableEq

namespace ActivityRow

/-- what a row says, as it was posted -/
def posting (r : ActivityRow) : AccountHistoryEntry :=
  ⟨r.sequence, r.postingIndex, r.transactionId, r.deltaMcu, r.createdAt⟩

/-- a row as a query reads it: `posting_index` comes out `as u32` -/
def entry (r : ActivityRow) : AccountHistoryEntry :=
  ⟨r.sequence, r.postingIndex % 2 ^ 32, r.transactionId, r.deltaMcu, r.createdAt⟩

/-- `(sequence, posting_index)`, the order of a history -/
def place (r : ActivityRow) : ℕ ×ₗ ℕ := toLex (r.sequence, r.postingIndex)

theorem place_lt {a b : ActivityRow} :
    b.place < a.place ↔ b.sequence < a.sequence ∨ b.sequence = a.sequence ∧ b.postingIndex < a.postingIndex :=
  Prod.Lex.lt_iff

theorem sequence_le {a b : ActivityRow} (h : b.place ≤ a.place) : b.sequence ≤ a.sequence := by
  rcases Prod.Lex.le_iff.1 h with hlt | ⟨heq, -⟩
  · exact hlt.le
  · exact heq.le

end ActivityRow

namespace LedgerStore

variable (st : LedgerStore) (account : String)

/-! ## The queries -/

/-- the postings for one account inside one entry, below a given index -/
def postingsAt (seq below : ℕ) : List AccountHistoryEntry :=
  (orderDesc ActivityRow.postingIndex
    (st.accountActivity.filter fun r => r.accountId = account ∧ r.sequence = seq ∧ r.postingIndex < below)).map
    ActivityRow.entry

def hasHistoryBelow (before : ℕ) : Bool :=
  ∃ r ∈ st.accountActivity, r.accountId = account ∧ r.sequence < min before (2 ^ 63 - 1)

/-- what `before` bounds the sequences by -/
def ceiling (before : Option ℕ) : ℕ := min (before.getD (2 ^ 64 - 1)) (2 ^ 63 - 1)

/-- the rows of a page's query, before its `LIMIT` -/
def rowsBefore (before : Option ℕ) : List ActivityRow :=
  orderDesc ActivityRow.place
    (st.accountActivity.filter fun r => r.accountId = account ∧ r.sequence < ceiling before)

def history (before : Option ℕ) (limit : ℕ) : AccountHistory :=
  let limit := min (max limit 1) 500
  let page := ((st.rowsBefore account before).take limit).map ActivityRow.entry
  let more : Bool := page.length = limit
  let entries :=
    match page.head?, page.getLast? with
    | some first, some last =>
      if more then
        -- a page inside one entry takes the rest of it, any other drops its last entry
        if first.sequence = last.sequence then page ++ st.postingsAt account last.sequence last.postingIndex
        else page.filter fun e => e.sequence ≠ last.sequence
      else page
    | _, _ => page
  { accountId := account, entries
    nextBefore := entries.getLast?.bind fun e =>
      if more ∧ st.hasHistoryBelow account e.sequence then some e.sequence else none }

/-- the pages a reader gets who starts at the newest and follows `next_before` -/
def historyPages (limit fuel : ℕ) : Option (List AccountHistory) :=
  follow (fun before => st.history account before limit) (·.nextBefore) fuel none

/-! ## What a reader is owed -/

/-- the account's rows of the index -/
def activityOf : List ActivityRow := st.accountActivity.filter fun r => r.accountId = account

/-- `PRIMARY KEY(account_id, sequence, posting_index)` -/
def Keyed : Prop := (st.accountActivity.map fun r => (r.accountId, r.sequence, r.postingIndex)).Nodup

/-- every posting once, newest first, no entry on two pages, and nothing empty but a first page -/
structure ReadsAll (pages : List AccountHistory) : Prop where
  everyPosting : (pages.flatMap (·.entries)).Perm ((st.activityOf account).map ActivityRow.posting)
  newestFirst : (pages.flatMap (·.entries)).Pairwise fun a b =>
    b.sequence < a.sequence ∨ b.sequence = a.sequence ∧ b.postingIndex < a.postingIndex
  wholeEntries : pages.Pairwise fun p q => ∀ a ∈ p.entries, ∀ b ∈ q.entries, a.sequence ≠ b.sequence
  nonempty : ∀ p ∈ pages.tail, p.entries ≠ []

/-- the reader gets to the end and has read everything -/
def LosesNothing (limit : ℕ) : Prop :=
  ∃ fuel pages, st.historyPages account limit fuel = some pages ∧ st.ReadsAll account pages

/-- a row that the conversions carry whole -/
def Pageable (r : ActivityRow) : Prop := r.sequence < 2 ^ 63 - 1 ∧ r.postingIndex < 2 ^ 32

instance (r : ActivityRow) : Decidable (Pageable r) := by unfold Pageable; infer_instance

end LedgerStore

/-! ## The primary key -/

theorem LedgerStore.upsertActivity_keyed {rows : List ActivityRow} (row : ActivityRow)
    (h : (rows.map fun r => (r.accountId, r.sequence, r.postingIndex)).Nodup) :
    ((upsertActivity rows row).map fun r => (r.accountId, r.sequence, r.postingIndex)).Nodup := by
  unfold upsertActivity
  rw [List.map_append, List.map_singleton, List.nodup_append]
  refine ⟨h.sublist (List.filter_sublist.map _), List.nodup_singleton _, ?_⟩
  intro key hkey other hother heq
  obtain ⟨r, hr, rfl⟩ := List.mem_map.1 hkey
  rw [List.mem_singleton.1 hother, Prod.mk.injEq, Prod.mk.injEq] at heq
  exact absurd heq (of_decide_eq_true (List.mem_filter.1 hr).2)

/-- indexing a certificate keeps the key -/
theorem LedgerStore.Keyed.indexCertificate {st : LedgerStore} (h : st.Keyed) (entry : LedgerEntry) :
    (st.indexCertificate entry).Keyed := by
  unfold LedgerStore.Keyed LedgerStore.indexCertificate at *
  generalize st.accountActivity = rows at h ⊢
  induction activityRows entry generalizing rows with
  | nil => exact h
  | cons row rest ih => exact ih _ (upsertActivity_keyed row h)

/-! ## A page -/

section

variable {st : LedgerStore} {account : String} {before : Option ℕ}

theorem mem_rowsBefore {r : ActivityRow} :
    r ∈ st.rowsBefore account before ↔ r ∈ st.activityOf account ∧ r.sequence < LedgerStore.ceiling before := by
  rw [LedgerStore.rowsBefore, mem_orderDesc, LedgerStore.activityOf, List.mem_filter, List.mem_filter,
    decide_eq_true_iff, decide_eq_true_iff, and_assoc]

theorem mem_activityOf {r : ActivityRow} :
    r ∈ st.activityOf account ↔ r ∈ st.accountActivity ∧ r.accountId = account := by
  rw [LedgerStore.activityOf, List.mem_filter, decide_eq_true_iff]

/-- the key tells an account's rows apart by their place -/
theorem LedgerStore.Keyed.places {st : LedgerStore} (h : st.Keyed) (account : String) :
    ((st.activityOf account).map ActivityRow.place).Nodup := by
  have hrows : ((st.activityOf account).map fun r => (r.accountId, r.sequence, r.postingIndex)).Nodup :=
    List.Nodup.sublist (List.filter_sublist.map _) h
  rw [List.nodup_map_iff_inj_on (List.Nodup.of_map _ hrows)]
  intro a ha b hb heq
  have hkey := List.inj_on_of_nodup_map hrows ha hb
  have hab : (a.sequence, a.postingIndex) = (b.sequence, b.postingIndex) := heq
  refine hkey ?_
  rw [(mem_activityOf.1 ha).2, (mem_activityOf.1 hb).2, hab]

theorem descending_rowsBefore (h : st.Keyed) (account : String) (before : Option ℕ) :
    Descending ActivityRow.place (st.rowsBefore account before) := by
  apply descending_orderDesc
  refine List.Nodup.sublist ?_ (h.places account)
  refine List.Sublist.map _ ?_
  have hfilter : (st.accountActivity.filter fun r => r.accountId = account ∧ r.sequence < LedgerStore.ceiling before) =
      (st.activityOf account).filter fun r => r.sequence < LedgerStore.ceiling before := by
    rw [LedgerStore.activityOf, List.filter_filter]
    refine List.filter_congr fun r _ => ?_
    rw [← Bool.decide_and]
    exact decide_eq_decide.2 and_comm
  rw [hfilter]
  exact List.filter_sublist

/-- what a page shows are rows below its cursor -/
theorem mem_history {limit : ℕ} {e : AccountHistoryEntry} (he : e ∈ (st.history account before limit).entries) :
    ∃ r ∈ st.activityOf account, r.sequence < LedgerStore.ceiling before ∧ e = r.entry := by
  have hpage : ∀ e ∈ ((st.rowsBefore account before).take (min (max limit 1) 500)).map ActivityRow.entry,
      ∃ r ∈ st.activityOf account, r.sequence < LedgerStore.ceiling before ∧ e = r.entry := by
    intro e he
    obtain ⟨r, hr, rfl⟩ := List.mem_map.1 he
    obtain ⟨hmem, hlt⟩ := mem_rowsBefore.1 (List.mem_of_mem_take hr)
    exact ⟨r, hmem, hlt, rfl⟩
  unfold LedgerStore.history at he
  dsimp only at he
  split at he
  · next first last hfirst hlast =>
    split_ifs at he
    · rcases List.mem_append.1 he with he | he
      · exact hpage e he
      · obtain ⟨r, hr, rfl⟩ := List.mem_map.1 he
        rw [mem_orderDesc, List.mem_filter, decide_eq_true_iff] at hr
        obtain ⟨r', -, hlt, rfl⟩ := hpage last (List.mem_of_getLast? hlast)
        exact ⟨r, mem_activityOf.2 ⟨hr.1, hr.2.1⟩, hr.2.2.1 ▸ hlt, rfl⟩
    · exact hpage e (List.mem_of_mem_filter he)
    · exact hpage e he
  · exact hpage e he

/-! A page in terms of rows: what the first `n` rows are trimmed or extended to. -/

/-- the first rows and the rest of the entry they break off in: the rows from that sequence on -/
theorem extended_page (h : st.Keyed) {n : ℕ} {last : ActivityRow}
    (hlast : ((st.rowsBefore account before).take n).getLast? = some last) :
    (st.rowsBefore account before).take n ++ orderDesc ActivityRow.postingIndex
        (st.accountActivity.filter fun r =>
          r.accountId = account ∧ r.sequence = last.sequence ∧ r.postingIndex < last.postingIndex) =
      (st.rowsBefore account before).filter fun r => last.sequence ≤ r.sequence := by
  have hrows := descending_rowsBefore h account before
  have hrest : ∀ r, r ∈ orderDesc ActivityRow.postingIndex (st.accountActivity.filter fun r =>
      r.accountId = account ∧ r.sequence = last.sequence ∧ r.postingIndex < last.postingIndex) ↔
      r ∈ st.activityOf account ∧ r.sequence = last.sequence ∧ r.postingIndex < last.postingIndex := by
    intro r
    rw [mem_orderDesc, List.mem_filter, decide_eq_true_iff, mem_activityOf, and_assoc]
  have hbound : last.sequence < LedgerStore.ceiling before :=
    (mem_rowsBefore.1 (List.mem_of_mem_take (List.mem_of_getLast? hlast))).2
  refine Descending.ext (List.pairwise_append.2 ⟨hrows.take n, ?_, ?_⟩) (hrows.filter _) ?_
  · -- within one entry the index alone orders the rows
    have hnodup : ((st.accountActivity.filter fun r => r.accountId = account ∧ r.sequence = last.sequence ∧
        r.postingIndex < last.postingIndex).map ActivityRow.postingIndex).Nodup := by
      rw [List.nodup_map_iff_inj_on ((List.Nodup.of_map _ h).filter _)]
      intro a ha b hb heq
      have ha' := List.mem_filter.1 ha
      have hb' := List.mem_filter.1 hb
      simp only [decide_eq_true_eq] at ha' hb'
      refine List.inj_on_of_nodup_map h ha'.1 hb'.1 ?_
      rw [ha'.2.1, hb'.2.1, ha'.2.2.1, hb'.2.2.1, heq]
    refine List.Pairwise.imp_of_mem ?_ (descending_orderDesc hnodup)
    intro a b ha hb hab
    exact ActivityRow.place_lt.2 (Or.inr ⟨((hrest b).1 hb).2.1.trans ((hrest a).1 ha).2.1.symm, hab⟩)
  · intro a ha b hb
    have hle := (hrows.take n).getLast_le hlast ha
    have hbelow : b.place < last.place :=
      ActivityRow.place_lt.2 (Or.inr ⟨((hrest b).1 hb).2.1, ((hrest b).1 hb).2.2⟩)
    exact hbelow.trans_le hle
  · intro r
    rw [List.mem_append, hrest, List.mem_filter, decide_eq_true_iff]
    constructor
    · rintro (hr | ⟨hmem, hseq, -⟩)
      · exact ⟨List.mem_of_mem_take hr, ActivityRow.sequence_le ((hrows.take n).getLast_le hlast hr)⟩
      · exact ⟨mem_rowsBefore.2 ⟨hmem, hseq ▸ hbound⟩, hseq.ge⟩
    · intro hr
      by_cases htake : last.place ≤ r.place
      · exact Or.inl ((hrows.mem_take_iff hlast).2 ⟨hr.1, htake⟩)
      · rcases ActivityRow.place_lt.1 (not_le.1 htake) with hlt | ⟨heq, hlt⟩
        · exact absurd hr.2 (not_le.2 hlt)
        · exact Or.inr ⟨(mem_rowsBefore.1 hr.1).1, heq, hlt⟩

/-- the first rows without the entry they break off in: the rows above that sequence -/
theorem trimmed_page (h : st.Keyed) {n : ℕ} {last : ActivityRow}
    (hlast : ((st.rowsBefore account before).take n).getLast? = some last) :
    (((st.rowsBefore account before).take n).filter fun r => r.sequence ≠ last.sequence) =
      (st.rowsBefore account before).filter fun r => last.sequence < r.sequence := by
  have hrows := descending_rowsBefore h account before
  refine Descending.ext ((hrows.take n).filter _) (hrows.filter _) fun r => ?_
  rw [List.mem_filter, List.mem_filter, decide_eq_true_iff, decide_eq_true_iff, hrows.mem_take_iff hlast]
  constructor
  · rintro ⟨⟨hr, hle⟩, hne⟩
    exact ⟨hr, lt_of_le_of_ne (ActivityRow.sequence_le hle) (Ne.symm hne)⟩
  · rintro ⟨hr, hlt⟩
    exact ⟨⟨hr, (ActivityRow.place_lt.2 (Or.inl hlt)).le⟩, hlt.ne'⟩

/-- a slice of a descending list goes down to its last element -/
theorem slice_to_last {l : List ActivityRow} (h : Descending ActivityRow.place l) {d : ℕ} {last : ActivityRow}
    (hlast : (l.filter fun r => d ≤ r.sequence).getLast? = some last) :
    (l.filter fun r => d ≤ r.sequence) = l.filter fun r => last.sequence ≤ r.sequence := by
  have hd := List.mem_filter.1 (List.mem_of_getLast? hlast)
  refine List.filter_congr fun r hr => decide_eq_decide.2 ⟨fun hle => ?_, fun hle => ?_⟩
  · have hmem : r ∈ l.filter fun r => d ≤ r.sequence := List.mem_filter.2 ⟨hr, decide_eq_true hle⟩
    exact ActivityRow.sequence_le ((h.filter _).getLast_le hlast hmem)
  · exact (of_decide_eq_true hd.2).trans hle

theorem map_entry {l : List ActivityRow} (h : ∀ r ∈ l, r.postingIndex < 2 ^ 32) :
    l.map ActivityRow.entry = l.map ActivityRow.posting := by
  refine List.map_congr_left fun r hr => ?_
  rw [ActivityRow.entry, ActivityRow.posting, Nat.mod_eq_of_lt (h r hr)]

/-- a full page is a slice of the rows, and has at least one of them -/
theorem full_page (h : st.Keyed) (hindex : ∀ r ∈ st.activityOf account, r.postingIndex < 2 ^ 32) {limit : ℕ}
    (hfull : ((st.rowsBefore account before).take (min (max limit 1) 500)).length = min (max limit 1) 500) :
    ∃ d kept, kept = (st.rowsBefore account before).filter (fun r => d ≤ r.sequence) ∧ kept ≠ [] ∧
      st.history account before limit = ⟨account, kept.map ActivityRow.entry, (kept.getLast?).bind fun r =>
        if st.hasHistoryBelow account r.sequence then some r.sequence else none⟩ := by
  have hn : 0 < min (max limit 1) 500 := lt_min (lt_max_of_lt_right one_pos) (by norm_num)
  generalize hnum : min (max limit 1) 500 = n at hfull hn
  have hne : (st.rowsBefore account before).take n ≠ [] := List.ne_nil_of_length_pos (by rw [hfull]; exact hn)
  obtain ⟨first, hfirst⟩ := Option.isSome_iff_exists.1 (List.isSome_head?.2 hne)
  obtain ⟨last, hlast⟩ := Option.isSome_iff_exists.1 (List.getLast?_isSome.2 hne)
  have hlastrow : last ∈ st.rowsBefore account before := List.mem_of_mem_take (List.mem_of_getLast? hlast)
  have hfirstrow : first ∈ st.rowsBefore account before := List.mem_of_mem_take (List.mem_of_head? hfirst)
  have hindexlast : last.entry.postingIndex = last.postingIndex :=
    Nat.mod_eq_of_lt (hindex last (mem_rowsBefore.1 hlastrow).1)
  have hle : last.sequence ≤ first.sequence :=
    ActivityRow.sequence_le (((descending_rowsBefore h account before).take n).getLast_le hlast (List.mem_of_head? hfirst))
  unfold LedgerStore.history
  simp only [hnum, List.head?_map, List.getLast?_map, hfirst, hlast, Option.map_some, List.length_map, hfull,
    decide_true, if_true, true_and]
  by_cases hone : first.sequence = last.sequence
  · refine ⟨last.sequence, _, rfl, List.ne_nil_of_mem (List.mem_filter.2 ⟨hlastrow, decide_eq_true le_rfl⟩), ?_⟩
    have hkept : ((st.rowsBefore account before).take n).map ActivityRow.entry ++
        st.postingsAt account last.entry.sequence last.entry.postingIndex =
          ((st.rowsBefore account before).filter fun r => last.sequence ≤ r.sequence).map ActivityRow.entry := by
      rw [hindexlast, LedgerStore.postingsAt, ← List.map_append]
      exact congrArg (List.map ActivityRow.entry) (extended_page h hlast)
    have hsame : first.entry.sequence = last.entry.sequence := hone
    rw [if_pos hsame, hkept, List.getLast?_map, Option.bind_map]
    rfl
  · have hlt : last.sequence < first.sequence := lt_of_le_of_ne hle (Ne.symm hone)
    refine ⟨last.sequence + 1, _, rfl, List.ne_nil_of_mem (List.mem_filter.2 ⟨hfirstrow, decide_eq_true hlt⟩), ?_⟩
    have hkept : (((st.rowsBefore account before).take n).map ActivityRow.entry).filter
        (fun e => e.sequence ≠ last.entry.sequence) =
          ((st.rowsBefore account before).filter fun r => last.sequence + 1 ≤ r.sequence).map ActivityRow.entry := by
      rw [List.filter_map]
      exact congrArg (List.map ActivityRow.entry) (trimmed_page h hlast)
    have hother : ¬ first.entry.sequence = last.entry.sequence := hone
    rw [if_neg hother, hkept, List.getLast?_map, Option.bind_map]
    rfl

/-- a page that is not full is everything below its cursor -/
theorem short_page {limit : ℕ}
    (hshort : ((st.rowsBefore account before).take (min (max limit 1) 500)).length ≠ min (max limit 1) 500) :
    st.history account before limit = ⟨account, (st.rowsBefore account before).map ActivityRow.entry, none⟩ := by
  have hall : (st.rowsBefore account before).take (min (max limit 1) 500) = st.rowsBefore account before := by
    apply List.take_of_length_le
    rw [List.length_take] at hshort
    exact le_of_not_ge fun hge => hshort (min_eq_left hge)
  rw [hall] at hshort
  unfold LedgerStore.history
  simp only [hall, List.length_map, decide_eq_false hshort, Bool.false_eq_true, if_false, false_and]
  split <;> simp

/-- **A page.** It shows the rows below its cursor down to the sequence of the cursor it hands out; it hands one out only for
rows below that, and shows everything if it hands out none. -/
theorem history_page (h : st.Keyed) (hindex : ∀ r ∈ st.activityOf account, r.postingIndex < 2 ^ 32)
    (before : Option ℕ) (limit : ℕ) :
    ((st.history account before limit).nextBefore = none ∧
      (st.history account before limit).entries = (st.rowsBefore account before).map ActivityRow.posting) ∨
    ∃ d, (st.history account before limit).nextBefore = some d ∧
      (st.history account before limit).entries =
        ((st.rowsBefore account before).filter fun r => d ≤ r.sequence).map ActivityRow.posting ∧
      (∃ r ∈ st.rowsBefore account before, r.sequence = d) ∧ ∃ r ∈ st.activityOf account, r.sequence < d := by
  have hrows : ∀ r ∈ st.rowsBefore account before, r.postingIndex < 2 ^ 32 := fun r hr =>
    hindex r (mem_rowsBefore.1 hr).1
  by_cases hfull : ((st.rowsBefore account before).take (min (max limit 1) 500)).length = min (max limit 1) 500
  · obtain ⟨d, kept, hkept, hne, hpage⟩ := full_page h hindex hfull
    obtain ⟨last, hlast⟩ := Option.isSome_iff_exists.1 (List.getLast?_isSome.2 hne)
    have hdown : kept = (st.rowsBefore account before).filter fun r => last.sequence ≤ r.sequence := by
      rw [hkept] at hlast ⊢
      exact slice_to_last (descending_rowsBefore h account before) hlast
    have hmem : last ∈ st.rowsBefore account before :=
      List.mem_of_mem_filter (hkept ▸ List.mem_of_getLast? hlast)
    rw [hpage, hlast, Option.bind_some, hdown, map_entry fun r hr => hrows r (List.mem_of_mem_filter hr)]
    by_cases hbelow : st.hasHistoryBelow account last.sequence = true
    · obtain ⟨r, hr, haccount, hlt⟩ := of_decide_eq_true hbelow
      refine Or.inr ⟨last.sequence, if_pos hbelow, rfl, ⟨last, hmem, rfl⟩, r, mem_activityOf.2 ⟨hr, haccount⟩, ?_⟩
      exact hlt.trans_le (min_le_left _ _)
    · refine Or.inl ⟨if_neg hbelow, ?_⟩
      refine congrArg (List.map ActivityRow.posting) (List.filter_eq_self.2 ?_)
      intro r hr
      rw [decide_eq_true_iff]
      by_contra hlt
      obtain ⟨hactive, hceiling⟩ := mem_rowsBefore.1 hr
      obtain ⟨hrow, haccount⟩ := mem_activityOf.1 hactive
      refine hbelow (decide_eq_true ⟨r, hrow, haccount, lt_min (not_le.1 hlt) ?_⟩)
      exact hceiling.trans_le (min_le_right _ _)
  · rw [short_page hfull, map_entry hrows]
    exact Or.inl ⟨rfl, rfl⟩

/-! ## The walk -/

theorem rowsBefore_some (h : st.Keyed) {d : ℕ} (hd : d < LedgerStore.ceiling before) :
    st.rowsBefore account (some d) = (st.rowsBefore account before).filter fun r => r.sequence < d := by
  have hceiling : LedgerStore.ceiling (some d) = d := by
    apply min_eq_left
    exact (hd.trans_le (min_le_right _ _)).le
  refine Descending.ext (descending_rowsBefore h account _) ((descending_rowsBefore h account _).filter _) fun r => ?_
  rw [mem_rowsBefore, List.mem_filter, mem_rowsBefore, decide_eq_true_iff, hceiling, and_assoc]
  exact and_congr_right fun _ => ⟨fun hlt => ⟨hlt.trans hd, hlt⟩, And.right⟩

/-- a page that hands out a cursor -/
theorem page_to_cursor (h : st.Keyed) (hindex : ∀ r ∈ st.activityOf account, r.postingIndex < 2 ^ 32) {limit d : ℕ}
    (hnext : (st.history account before limit).nextBefore = some d) :
    (st.history account before limit).entries =
        ((st.rowsBefore account before).filter fun r => d ≤ r.sequence).map ActivityRow.posting ∧
      d < LedgerStore.ceiling before ∧ (∃ r ∈ st.rowsBefore account before, r.sequence = d) ∧
      ∃ r ∈ st.activityOf account, r.sequence < d := by
  rcases history_page h hindex before limit with ⟨hnone, -⟩ | ⟨d', hd', hentries, ⟨r, hr, hseq⟩, hbelow⟩
  · rw [hnone] at hnext
    cases hnext
  · rw [hd'] at hnext
    cases hnext
    exact ⟨hentries, hseq ▸ (mem_rowsBefore.1 hr).2, ⟨r, hr, hseq⟩, hbelow⟩

/-- the pages of a history are slices one below the other -/
theorem history_pages (h : st.Keyed) (hindex : ∀ r ∈ st.activityOf account, r.postingIndex < 2 ^ 32) (limit : ℕ) :
    Pages (fun before => st.history account before limit) (·.nextBefore) (·.entries)
      (fun before => (st.rowsBefore account before).map ActivityRow.posting) := by
  refine ⟨?_, ?_, ?_, ?_⟩
  · intro before hnext
    rcases history_page h hindex before limit with ⟨-, hall⟩ | ⟨d, hd, -⟩
    · exact hall
    · exact absurd (hnext.symm.trans hd) (Option.some_ne_none d).symm
  · intro before d hnext
    obtain ⟨hentries, hd, -, -⟩ := page_to_cursor h hindex hnext
    rw [hentries, rowsBefore_some h hd, ← List.map_append]
    congr 1
    have hrows := descending_rowsBefore h account before
    refine Descending.ext (List.pairwise_append.2 ⟨hrows.filter _, hrows.filter _, ?_⟩) hrows fun r => ?_
    · intro a ha b hb
      have hle := of_decide_eq_true (List.mem_filter.1 ha).2
      have hlt := of_decide_eq_true (List.mem_filter.1 hb).2
      exact ActivityRow.place_lt.2 (Or.inl (hlt.trans_le hle))
    · rw [List.mem_append, List.mem_filter, List.mem_filter, ← and_or_left, decide_eq_true_iff, decide_eq_true_iff]
      exact and_iff_left (le_or_gt d r.sequence)
  · intro before d hnext
    obtain ⟨hentries, -, ⟨r, hr, hseq⟩, -⟩ := page_to_cursor h hindex hnext
    rw [hentries]
    exact List.ne_nil_of_mem (List.mem_map_of_mem (List.mem_filter.2 ⟨hr, decide_eq_true hseq.ge⟩))
  · intro before d hnext
    obtain ⟨-, hd, -, r, hr, hlt⟩ := page_to_cursor h hindex hnext
    refine List.ne_nil_of_mem (List.mem_map_of_mem (a := r) (mem_rowsBefore.2 ⟨hr, lt_min hlt ?_⟩))
    exact (hlt.trans hd).trans_le (min_le_right _ _)

theorem rowsBefore_none_perm (h : st.Keyed) (hrows : ∀ r ∈ st.activityOf account, r.sequence < 2 ^ 63 - 1) :
    (st.rowsBefore account none).Perm (st.activityOf account) := by
  have hnodup : (st.activityOf account).Nodup := List.Nodup.of_map _ (h.places account)
  refine (List.perm_ext_iff_of_nodup (descending_rowsBefore h account none).nodup hnodup).2 fun r => ?_
  rw [mem_rowsBefore]
  refine and_iff_left_of_imp fun hr => ?_
  have hceiling : LedgerStore.ceiling none = 2 ^ 63 - 1 := by norm_num [LedgerStore.ceiling]
  rw [hceiling]
  exact hrows r hr

theorem losesNothing_of_pageable (h : st.Keyed) (limit : ℕ)
    (hrows : ∀ r ∈ st.activityOf account, LedgerStore.Pageable r) : st.LosesNothing account limit := by
  have hindex : ∀ r ∈ st.activityOf account, r.postingIndex < 2 ^ 32 := fun r hr => (hrows r hr).2
  have hpages := history_pages h hindex limit
  obtain ⟨first, rest, hrun, -, hall, hne⟩ := hpages.follow _ none (Nat.lt_succ_self _)
  refine ⟨_, first :: rest, hrun, ?_, ?_, ?_, hne⟩
  · rw [hall]
    exact (rowsBefore_none_perm h fun r hr => (hrows r hr).1).map _
  · rw [hall, List.pairwise_map]
    exact (descending_rowsBefore h account none).imp ActivityRow.place_lt.1
  · refine (hpages.apart (fun before d hnext a ha b hb => ?_) _ none _ hrun).2
    obtain ⟨hentries, -⟩ := page_to_cursor h hindex hnext
    rw [hentries] at ha
    obtain ⟨x, hx, rfl⟩ := List.mem_map.1 ha
    obtain ⟨y, hy, rfl⟩ := List.mem_map.1 hb
    have hle : d ≤ x.sequence := of_decide_eq_true (List.mem_filter.1 hx).2
    have hlt : y.sequence < d := (mem_rowsBefore.1 hy).2.trans_le (min_le_left _ _)
    exact (hlt.trans_le hle).ne'

/-- what a reader has read are rows the conversions carried whole -/
theorem pageable_of_losesNothing {limit : ℕ} (hread : st.LosesNothing account limit) :
    ∀ r ∈ st.activityOf account, LedgerStore.Pageable r := by
  intro r hr
  obtain ⟨fuel, pages, hrun, hall⟩ := hread
  have hmem : r.posting ∈ pages.flatMap (·.entries) :=
    hall.everyPosting.mem_iff.2 (List.mem_map_of_mem hr)
  obtain ⟨page, hpage, hentry⟩ := List.mem_flatMap.1 hmem
  obtain ⟨before, rfl⟩ := mem_follow hrun page hpage
  obtain ⟨read, -, hlt, heq⟩ := mem_history hentry
  obtain ⟨hseq, hidx, -⟩ := AccountHistoryEntry.mk.inj heq
  refine ⟨?_, ?_⟩
  · rw [hseq]
    exact hlt.trans_le (min_le_right _ _)
  · rw [hidx]
    exact Nat.mod_lt _ (by norm_num)

end

/-- **Paging loses nothing.** A reader who follows the cursors of an account's history gets to the end and has read every
posting once, newest first, no entry split and no empty page behind a cursor, exactly when no row of the account is at
sequence `i64::MAX` or has an index past 32 bits. -/
theorem history_loses_nothing_iff (st : LedgerStore) (account : String) (limit : ℕ) (h : st.Keyed) :
    st.LosesNothing account limit ↔ ∀ r ∈ st.activityOf account, LedgerStore.Pageable r :=
  ⟨pageable_of_losesNothing, losesNothing_of_pageable h limit⟩

namespace Sample

/-- one posting of an account, one credit -/
def posted (account : String) (sequence index : ℕ) : ActivityRow := ⟨account, sequence, index, "tx", 1, 0⟩

/-- an entry with three postings of one account, and an older one -/
def batched : LedgerStore :=
  { LedgerStore.empty with
    accountActivity := [posted "a" 1 0, posted "b" 1 1, posted "a" 2 0, posted "a" 2 1, posted "b" 2 2, posted "a" 2 3] }

/-- the only posting is at the last sequence a store can hold -/
def atTheEnd : LedgerStore := { LedgerStore.empty with accountActivity := [posted "a" (2 ^ 63 - 1) 0] }

end Sample

/-- one posting at a time, an entry of three postings is read as one page -/
theorem batched_history : Sample.batched.Keyed ∧ Sample.batched.LosesNothing "a" 1 ∧
    (Sample.batched.history "a" none 1).entries.length = 3 := by
  have hkeyed : Sample.batched.Keyed := by unfold LedgerStore.Keyed; decide
  exact ⟨hkeyed, (history_loses_nothing_iff Sample.batched "a" 1 hkeyed).2 (by decide), by decide⟩

/-- the newest page does not show a posting at sequence `i64::MAX`, and hands out no cursor -/
theorem last_posting_lost : ¬ ∀ (st : LedgerStore) (account : String) (limit : ℕ), st.Keyed → st.LosesNothing account limit := by
  intro hall
  have hkeyed : Sample.atTheEnd.Keyed := by unfold LedgerStore.Keyed; decide
  have := pageable_of_losesNothing (hall Sample.atTheEnd "a" 100 hkeyed)
  exact absurd this (by decide)

end Hocmesh.Ledger
