/-
The buckets of a shard: how they are cut, what they add up to, and what an audit sees of them.

A worker and an auditor cut a shard at the same places, and the buckets tile it (`tiles_buckets`). So the bucket counts of
primes sum to the count of the whole and the bucket peaks combine to the peak of the whole (`execution_correct`). The
challenge picks distinct buckets (`auditIndices_spec`), and an audit accepts just when none of these is wrong
(`audit_exact`); honest work is always accepted (`honest_accepted`).
-/
import Hocmesh.Base.Peaks
import Hocmesh.Base.Tiling
import Hocmesh.Compute.Primes
import Hocmesh.Compute.Products

namespace Hocmesh.Compute

open Hocmesh.Base Hocmesh.Protocol

/-! ## The challenge -/

theorem swapSlots_perm {pool : List ℕ} {i j : ℕ} (hi : i < pool.length) (hj : j < pool.length) :
    (swapSlots pool i j).Perm pool := by
  rw [swapSlots, List.getD_eq_getElem _ _ hi, List.getD_eq_getElem _ _ hj]
  exact List.set_set_perm hi hj

/-- drawing rearranges the pool -/
theorem drawLoop_perm (todo slot state : ℕ) (pool : List ℕ) (h : slot + todo ≤ pool.length) :
    (drawLoop todo slot state pool).Perm pool := by
  induction todo generalizing slot state pool with
  | zero => exact List.Perm.refl _
  | succ todo ih =>
    have hpick : slot + splitmix64 state % (pool.length - slot) < pool.length := by
      have := Nat.mod_lt (splitmix64 state) (show 0 < pool.length - slot by omega)
      omega
    have hswap := swapSlots_perm (i := slot) (by omega) hpick
    exact (ih _ _ _ (by rw [hswap.length_eq]; omega)).trans hswap

/-- **The challenge is a selection**: as many indices as asked for and there are, below `total`, each once and in order.
-/
theorem auditIndices_spec (nonce total count : ℕ) : (auditIndices nonce total count).length = min count total ∧
    (auditIndices nonce total count).Pairwise (· < ·) ∧ ∀ index ∈ auditIndices nonce total count, index < total := by
  have hpool := drawLoop_perm (min count total) 0 nonce (List.range total) (by rw [List.length_range]; omega)
  have hsort := List.perm_insertionSort (· ≤ ·)
    ((drawLoop (min count total) 0 nonce (List.range total)).take (min count total))
  have hnodup : (auditIndices nonce total count).Nodup :=
    hsort.nodup_iff.2 ((List.take_sublist _ _).nodup (hpool.nodup_iff.2 List.nodup_range))
  refine ⟨?_, ?_, fun index hindex => ?_⟩
  · have hlen := hsort.length_eq
    rw [List.length_take, hpool.length_eq, List.length_range] at hlen
    exact hlen.trans (by omega)
  · have hsorted := List.pairwise_insertionSort (· ≤ ·)
      ((drawLoop (min count total) 0 nonce (List.range total)).take (min count total))
    exact (hsorted.and hnodup).imp fun h => lt_of_le_of_ne h.1 h.2
  · exact List.mem_range.1 (hpool.mem_iff.1 (List.mem_of_mem_take (hsort.mem_iff.1 hindex)))

/-! ## The cuts -/

section

variable {start end_ : ℕ}

/-- a bucket is a piece of the even cut: neither sum saturates -/
theorem bucketBounds_eq (hle : start ≤ end_) (hmax : end_ ≤ u64Max) {n index : ℕ} (hindex : index < n) :
    bucketBounds start end_ index n =
      (evenCut start (end_ - start) n index, evenCut start (end_ - start) n (index + 1)) := by
  have hfrom := evenCut_le start (end_ - start) (Nat.zero_lt_of_lt hindex) hindex.le
  have hto := evenCut_le start (end_ - start) (Nat.zero_lt_of_lt hindex) hindex
  have hnext := evenCut_succ start (end_ - start) n index
  have hn : max n 1 = n := max_eq_left (Nat.zero_lt_of_lt hindex)
  have hcut : start + ((end_ - start) / n * index + min index ((end_ - start) % n)) =
      evenCut start (end_ - start) n index := by
    rw [evenCut, Nat.add_assoc]
  unfold bucketBounds satAdd
  simp only [hn, hcut]
  rw [min_eq_left (hfrom.trans (by omega)), ← hnext, min_eq_left (hto.trans (by omega)), min_eq_left (hto.trans (by omega))]

/-- the buckets follow one another and lose nothing -/
theorem tiles_buckets (hle : start ≤ end_) (hmax : end_ ≤ u64Max) :
    Tiles start end_ ((List.range buckets).map fun index => bucketBounds start end_ index buckets) := by
  have h := tiles_evenCut start (end_ - start) (show 0 < buckets by decide)
  rw [show start + (end_ - start) = end_ by omega, ← List.range_eq_range'] at h
  rwa [List.map_congr_left fun index hindex => bucketBounds_eq hle hmax (List.mem_range.1 hindex)]

/-! ## Counting primes and finding peaks range by range -/

theorem sum_countPrimes {l : List (ℕ × ℕ)} (h : Tiles start end_ l) :
    (l.map fun p => countPrimes p.1 p.2).sum = countPrimes start end_ := by
  unfold countPrimes
  rw [← h.flatMap_range, List.filter_flatMap, List.length_flatMap]

theorem countPrimes_le (start end_ : ℕ) : countPrimes start end_ ≤ end_ - start :=
  (List.length_filter_le _ _).trans_eq List.length_range'

theorem countPrimes_eq_card (hmax : end_ ≤ u64Max) :
    countPrimes start end_ = ((Finset.Ico start end_).filter Nat.Prime).card := by
  have hset : (Finset.Ico start end_).filter Nat.Prime = ((List.range' start (end_ - start)).filter isPrime).toFinset := by
    ext n
    rw [Finset.mem_filter, Finset.mem_Ico, List.mem_toFinset, List.mem_filter, List.mem_range'_1]
    constructor
    · rintro ⟨hn, hprime⟩
      exact ⟨by omega, (isPrime_iff (by omega)).2 hprime⟩
    · rintro ⟨hn, hprime⟩
      exact ⟨by omega, (isPrime_iff (by omega)).1 hprime⟩
  rw [hset, List.toFinset_card_of_nodup ((List.nodup_range' ..).filter _)]
  rfl

theorem isPeak_peakTrajectory (lo hi : ℕ) : IsPeak collatzSteps (Set.Ico lo hi) (peakTrajectory lo hi) := by
  have hrun : ∀ width, IsPeak collatzSteps (Set.Ico lo (lo + width)) ((List.range' lo width).foldl (fun best n =>
      let steps := collatzSteps n
      if steps > best.1 then (steps, n) else best) (0, 0)) := by
    intro width
    induction width with
    | zero => simpa using IsPeak.empty
    | succ width ih =>
      have hset : Set.Ico lo (lo + (width + 1)) = insert (lo + width) (Set.Ico lo (lo + width)) := by
        ext n
        simp only [Set.mem_Ico, Set.mem_insert_iff]
        omega
      rw [List.range'_concat, List.foldl_append, hset, Nat.one_mul]
      exact ih.insert_last fun m hm => hm.2
  have hset : Set.Ico lo hi = Set.Ico lo (lo + (hi - lo)) := by
    ext n
    simp only [Set.mem_Ico]
    omega
  rw [hset]
  exact hrun (hi - lo)

/-- buckets combine as peaks join -/
theorem combinePeaks_eq (peaks : List (ℕ × ℕ)) :
    combinePeaks (peaks.map Prod.fst) (peaks.map Prod.snd) = peaks.foldl joinPeaks (0, 0) := by
  have hpairs : peaks = peaks.zipIdx.map Prod.fst := (List.zipIdx_map_fst 0 peaks).symm
  unfold combinePeaks
  conv_rhs => rw [hpairs]
  rw [List.zipIdx_map, List.foldl_map, List.foldl_map]
  refine List.foldl_ext _ _ _ fun best p hp => ?_
  have hseed : (peaks.map Prod.snd).getD p.2 0 = p.1.2 := by
    rw [List.getD_eq_getElem?_getD, List.getElem?_map, List.mem_zipIdx_iff_getElem?.1 hp]
    rfl
  simp only [Prod.map_fst, Prod.map_snd, id_eq, hseed, joinPeaks]

theorem isPeak_combinePeaks {l : List (ℕ × ℕ)} (h : Tiles start end_ l) :
    IsPeak collatzSteps (Set.Ico start end_) (combinePeaks ((l.map fun p => peakTrajectory p.1 p.2).map Prod.fst)
      ((l.map fun p => peakTrajectory p.1 p.2).map Prod.snd)) := by
  have hfold := IsPeak.foldl (fun p : ℕ × ℕ => Set.Ico p.1 p.2) (fun p => peakTrajectory p.1 p.2) l
    (fun p _ => isPeak_peakTrajectory p.1 p.2) ∅ (0, 0) IsPeak.empty
  have hset : ∅ ∪ {n | ∃ p ∈ l, n ∈ Set.Ico p.1 p.2} = Set.Ico start end_ := by
    ext n
    rw [Set.empty_union, Set.mem_ofPred_eq, h.mem_iff]
  rw [combinePeaks_eq, List.foldl_map]
  rwa [hset] at hfold

end

/-- what the buckets of an executed prime count say -/
theorem executeWork_primeCount (start end_ ms : ℕ) : executeWork (.primeCount start end_) ms =
    .primeCount (((List.range buckets).map fun index => bucketBounds start end_ index buckets).map
        fun p => countPrimes p.1 p.2).sum
      ((List.range buckets).map fun index =>
        countPrimes (bucketBounds start end_ index buckets).1 (bucketBounds start end_ index buckets).2) ms := by
  rw [List.map_map]
  rfl

theorem executeWork_collatzPeak (start end_ ms : ℕ) : executeWork (.collatzPeak start end_) ms =
    .collatzPeak
      (combinePeaks ((List.range buckets).map fun index => (peakTrajectory (bucketBounds start end_ index buckets).1
          (bucketBounds start end_ index buckets).2).1) ((List.range buckets).map fun index =>
        (peakTrajectory (bucketBounds start end_ index buckets).1 (bucketBounds start end_ index buckets).2).2)).1
      (combinePeaks ((List.range buckets).map fun index => (peakTrajectory (bucketBounds start end_ index buckets).1
          (bucketBounds start end_ index buckets).2).1) ((List.range buckets).map fun index =>
        (peakTrajectory (bucketBounds start end_ index buckets).1 (bucketBounds start end_ index buckets).2).2)).2
      ((List.range buckets).map fun index => (peakTrajectory (bucketBounds start end_ index buckets).1
        (bucketBounds start end_ index buckets).2).1)
      ((List.range buckets).map fun index => (peakTrajectory (bucketBounds start end_ index buckets).1
        (bucketBounds start end_ index buckets).2).2) ms := by
  simp only [executeWork, collatzPeak, List.map_map]
  rfl

section

variable {start end_ : ℕ}

/-- an executed count is the count of the range -/
theorem executeWork_count (hle : start ≤ end_) (hmax : end_ ≤ u64Max) (ms : ℕ) :
    ∃ counts, executeWork (.primeCount start end_) ms = .primeCount (countPrimes start end_) counts ms := by
  refine ⟨(List.range buckets).map fun index =>
    countPrimes (bucketBounds start end_ index buckets).1 (bucketBounds start end_ index buckets).2, ?_⟩
  rw [executeWork_primeCount, sum_countPrimes (tiles_buckets hle hmax)]

/-- an executed search finds the peak of the range -/
theorem executeWork_peak (hle : start ≤ end_) (hmax : end_ ≤ u64Max) (ms : ℕ) :
    ∃ peaks seeds, executeWork (.collatzPeak start end_) ms =
      .collatzPeak (peakTrajectory start end_).1 (peakTrajectory start end_).2 peaks seeds ms := by
  have hpeak := (isPeak_combinePeaks (tiles_buckets hle hmax)).unique (isPeak_peakTrajectory start end_)
  rw [List.map_map, List.map_map, List.map_map] at hpeak
  refine ⟨(List.range buckets).map fun index => (peakTrajectory (bucketBounds start end_ index buckets).1
      (bucketBounds start end_ index buckets).2).1, (List.range buckets).map fun index =>
    (peakTrajectory (bucketBounds start end_ index buckets).1 (bucketBounds start end_ index buckets).2).2, ?_⟩
  rw [executeWork_collatzPeak, ← hpeak]
  rfl

end

/-- **Execution computes what it says.** -/
theorem execution_correct :
    (∀ n ≤ u64Max, isPrimeChecked n = some (isPrime n) ∧ (isPrime n = true ↔ n.Prime)) ∧
      ∀ start end_ ms, start ≤ end_ → end_ ≤ u64Max →
        (∃ counts, executeWork (.primeCount start end_) ms =
          .primeCount ((Finset.Ico start end_).filter Nat.Prime).card counts ms) ∧
        (∃ peaks seeds, executeWork (.collatzPeak start end_) ms =
          .collatzPeak (peakTrajectory start end_).1 (peakTrajectory start end_).2 peaks seeds ms) ∧
        IsPeak collatzSteps (Set.Ico start end_) (peakTrajectory start end_) := by
  refine ⟨fun n hn => ⟨?_, isPrime_iff hn⟩, fun start end_ ms hle hmax =>
    ⟨?_, executeWork_peak hle hmax ms, isPeak_peakTrajectory start end_⟩⟩
  · rw [(isPrime_spec hn).1, (isPrime_spec hn).2]
  · rw [← countPrimes_eq_card hmax]
    exact executeWork_count hle hmax ms

theorem execution_correct_twenty : isPrimeChecked 97 = some (isPrime 97) ∧ ∃ counts,
    executeWork (.primeCount 1 20) 5 = .primeCount ((Finset.Ico 1 20).filter Nat.Prime).card counts 5 :=
  ⟨(execution_correct.1 97 (by decide)).1, (execution_correct.2 1 20 5 (by decide) (by decide)).1⟩

/-! ## What an audit sees -/

section

variable {start end_ : ℕ}

/-- both witnesses check that what an index claims is what it holds -/
theorem if_some_eq_none {p : Prop} [Decidable p] (reason : String) : (if p then some reason else none) = none ↔ ¬ p := by
  split_ifs with h <;> simp [h]

theorem primeWitness_iff {count nonce : ℕ} {counts : List ℕ} (hlen : counts.length = buckets)
    (hsum : counts.foldl satAdd 0 = count) : primeWitness start end_ count counts nonce = .accepted .witness ↔
      ∀ index ∈ auditIndices nonce buckets auditBuckets, counts.getD index 0 =
        countPrimes (bucketBounds start end_ index buckets).1 (bucketBounds start end_ index buckets).2 := by
  unfold primeWitness
  simp only [hlen, hsum, ne_eq, not_true_eq_false, if_false, sampled_accepted]
  refine forall₂_congr fun index _ => ?_
  rw [if_some_eq_none, not_not]
  exact eq_comm

theorem collatzWitness_iff {steps seed nonce : ℕ} {peaks seeds : List ℕ} (hpeaks : peaks.length = buckets)
    (hseeds : seeds.length = buckets) (hhead : combinePeaks peaks seeds = (steps, seed)) :
    collatzWitness start end_ steps seed peaks seeds nonce = .accepted .witness ↔
      ∀ index ∈ auditIndices nonce buckets auditBuckets, (peaks.getD index 0, seeds.getD index 0) =
        peakTrajectory (bucketBounds start end_ index buckets).1 (bucketBounds start end_ index buckets).2 := by
  unfold collatzWitness
  simp only [hpeaks, hseeds, hhead, ne_eq, not_true_eq_false, or_self, if_false, sampled_accepted]
  refine forall₂_congr fun index _ => ?_
  rw [if_some_eq_none, not_or, not_not, not_not, Prod.ext_iff]
  exact and_congr eq_comm eq_comm

/-- a list with an element for every bucket, at one -/
theorem getElem?_bucket {l : List ℕ} (h : l.length = buckets) {index : ℕ} (hindex : index < buckets) :
    l[index]? = some (l.getD index 0) := by
  rw [List.getD_eq_getElem _ _ (h ▸ hindex), List.getElem?_eq_getElem]

theorem getElem?_honest {α : Type} (f : ℕ → α) {index : ℕ} (hindex : index < buckets) :
    ((List.range buckets).map f)[index]? = some (f index) := by
  rw [List.getElem?_map, List.getElem?_range hindex, Option.map_some]

end

/-- **An audit catches exactly what it samples.** -/
theorem audit_exact :
    (∀ start end_ count total ms ms' nonce counts honest, (WorkSpec.primeCount start end_).validate = .ok () →
      counts.length = buckets → counts.foldl satAdd 0 = count →
      executeWork (.primeCount start end_) ms' = .primeCount total honest ms' →
      (witnessCheck (.primeCount start end_) (.primeCount count counts ms) nonce = .accepted .witness ↔
        ∀ index ∈ auditIndices nonce buckets auditBuckets, counts[index]? = honest[index]?)) ∧
    (∀ start end_ steps seed steps' seed' ms ms' nonce peaks seeds honestPeaks honestSeeds,
      (WorkSpec.collatzPeak start end_).validate = .ok () →
      peaks.length = buckets → seeds.length = buckets → combinePeaks peaks seeds = (steps, seed) →
      executeWork (.collatzPeak start end_) ms' = .collatzPeak steps' seed' honestPeaks honestSeeds ms' →
      (witnessCheck (.collatzPeak start end_) (.collatzPeak steps seed peaks seeds ms) nonce = .accepted .witness ↔
        ∀ index ∈ auditIndices nonce buckets auditBuckets,
          peaks[index]? = honestPeaks[index]? ∧ seeds[index]? = honestSeeds[index]?)) ∧
    ∀ nonce total count, (auditIndices nonce total count).length = min count total ∧
      (auditIndices nonce total count).Pairwise (· < ·) ∧ ∀ index ∈ auditIndices nonce total count, index < total := by
  refine ⟨?_, ?_, auditIndices_spec⟩
  · intro start end_ count total ms ms' nonce counts honest _ hlen hsum hhonest
    rw [executeWork_primeCount, WorkResult.primeCount.injEq] at hhonest
    obtain ⟨-, rfl, -⟩ := hhonest
    rw [show witnessCheck (.primeCount start end_) (.primeCount count counts ms) nonce =
      primeWitness start end_ count counts nonce from rfl, primeWitness_iff hlen hsum]
    refine forall₂_congr fun index hindex => ?_
    have hlt := (auditIndices_spec nonce buckets auditBuckets).2.2 index hindex
    rw [getElem?_bucket hlen hlt, getElem?_honest _ hlt, Option.some.injEq]
  · intro start end_ steps seed steps' seed' ms ms' nonce peaks seeds honestPeaks honestSeeds _ hpeaks hseeds hhead hhonest
    rw [executeWork_collatzPeak, WorkResult.collatzPeak.injEq] at hhonest
    obtain ⟨-, -, rfl, rfl, -⟩ := hhonest
    rw [show witnessCheck (.collatzPeak start end_) (.collatzPeak steps seed peaks seeds ms) nonce =
      collatzWitness start end_ steps seed peaks seeds nonce from rfl, collatzWitness_iff hpeaks hseeds hhead]
    refine forall₂_congr fun index hindex => ?_
    have hlt := (auditIndices_spec nonce buckets auditBuckets).2.2 index hindex
    rw [getElem?_bucket hpeaks hlt, getElem?_bucket hseeds hlt, getElem?_honest _ hlt, getElem?_honest _ hlt,
      Option.some.injEq, Option.some.injEq, Prod.ext_iff]

/-- a count of nothing for the one prime of a shard is caught when its bucket is drawn -/
theorem audit_exact_primes : witnessCheck (.primeCount 2 3) (.primeCount 0 (List.replicate 64 0) 0) 7 = .accepted .witness ↔
    ∀ index ∈ auditIndices 7 buckets auditBuckets, (List.replicate 64 0)[index]? =
      (1 :: List.replicate 63 0)[index]? :=
  audit_exact.1 2 3 0 1 0 0 7 (List.replicate 64 0) (1 :: List.replicate 63 0) (by decide) (by decide) (by decide +kernel)
    (by decide +kernel)

/-! ## Honest work -/

theorem foldl_satAdd {l : List ℕ} : ∀ acc : ℕ, acc + l.sum ≤ u64Max → l.foldl satAdd acc = acc + l.sum := by
  induction l with
  | nil => simp
  | cons x l ih =>
    intro acc h
    rw [List.sum_cons] at h ⊢
    have hstep : satAdd acc x = acc + x := min_eq_left (by omega)
    rw [List.foldl_cons, hstep, ih _ (by omega)]
    omega

/-- a bucket holds no more primes than the shard has numbers, and one -/
theorem sum_buckets_le (start end_ : ℕ) : ((List.range buckets).map fun index =>
      countPrimes (bucketBounds start end_ index buckets).1 (bucketBounds start end_ index buckets).2).sum ≤
    buckets * (end_ - start + 1) := by
  have hbucket : ∀ index, countPrimes (bucketBounds start end_ index buckets).1 (bucketBounds start end_ index buckets).2 ≤
      end_ - start + 1 := by
    intro index
    refine (countPrimes_le _ _).trans ?_
    have hdiv := Nat.div_le_self (end_ - start) (max buckets 1)
    have hwithin : ∀ from_ this : ℕ, min (satAdd from_ this) end_ - from_ ≤ this := by
      intro from_ this
      have hsat : satAdd from_ this ≤ from_ + this := min_le_left _ _
      have hend := min_le_left (satAdd from_ this) end_
      exact Nat.sub_le_iff_le_add'.2 (hend.trans hsat)
    refine (hwithin _ _).trans (Nat.add_le_add hdiv ?_)
    split_ifs <;> decide
  have hsum := List.sum_le_card_nsmul ((List.range buckets).map fun index =>
      countPrimes (bucketBounds start end_ index buckets).1 (bucketBounds start end_ index buckets).2) (end_ - start + 1)
    fun count hcount => by
      obtain ⟨index, -, rfl⟩ := List.mem_map.1 hcount
      exact hbucket index
  rwa [List.length_map, List.length_range, smul_eq_mul] at hsum

/-- **Honest work is always accepted**, whatever the challenge. -/
theorem honest_accepted {work : WorkSpec} (hvalid : work.validate = .ok ()) (ms nonce : ℕ) :
    witnessCheck work (executeWork work ms) nonce = .accepted .witness := by
  cases work with
  | primeCount start end_ =>
    have hwidth : end_ - start ≤ 2000000000 := by
      simp only [WorkSpec.validate, bind_ok, bailIf_ok, exists_const] at hvalid
      omega
    have hsum := foldl_satAdd (l := (List.range buckets).map fun index =>
      countPrimes (bucketBounds start end_ index buckets).1 (bucketBounds start end_ index buckets).2) 0
      (by
        have hle := sum_buckets_le start end_
        unfold buckets at hle
        unfold buckets u64Max
        omega)
    rw [Nat.zero_add] at hsum
    refine (primeWitness_iff (by rw [List.length_map, List.length_range]) hsum).2 fun index hindex => ?_
    have hlt := (auditIndices_spec nonce buckets auditBuckets).2.2 index hindex
    rw [List.getD_eq_getElem?_getD, getElem?_honest _ hlt, Option.getD_some]
  | matrixMultiply seedA seedB dim rowStart rowEnd =>
    exact freivalds_accepted.2 ⟨length_multiplyRows .., multiplyRows_lt seedA seedB dim rowStart rowEnd,
      passes_multiplyRows _ _ _ _ (length_challengeVector _ _)⟩
  | collatzPeak start end_ =>
    rw [executeWork_collatzPeak]
    refine (collatzWitness_iff (by rw [List.length_map, List.length_range]) (by rw [List.length_map, List.length_range])
      rfl).2 fun index hindex => ?_
    have hlt := (auditIndices_spec nonce buckets auditBuckets).2.2 index hindex
    rw [List.getD_eq_getElem?_getD, List.getD_eq_getElem?_getD, getElem?_honest _ hlt, getElem?_honest _ hlt,
      Option.getD_some, Option.getD_some]

theorem honest_accepted_collatz :
    witnessCheck (.collatzPeak 1 70) (executeWork (.collatzPeak 1 70) 3) 12345 = .accepted .witness :=
  honest_accepted (by rfl) 3 12345

end Hocmesh.Compute
