/-
Matrix products over the field of 2^31 - 1, and the check of a claimed product (`matrix.rs`, `freivalds` of
`verify.rs`).

The loops reduce after every step, so they compute the field's own values: `dot` is a dot product, `matrixVector` a
matrix-vector product and `multiplyRow` a vector-matrix product (`cast_dot`, `vec_matrixVector`, `vec_multiplyRow`), and
no sum on the way has more than 64 bits (`multiplyAdd_fits`). A row check is then a linear equation in the challenge
(`rowCheck_iff`): every challenge passes an honest row, and at most one in `modulus` passes a wrong one
(`freivalds_sound`).
-/
import Hocmesh.Base.Scatter
import Hocmesh.Base.Vanishing
import Hocmesh.Compute.Audit
import Mathlib.Data.List.GetD
import Mathlib.NumberTheory.LucasLehmer

namespace Hocmesh.Compute

open Hocmesh.Base Hocmesh.Protocol Matrix

/-! ## The field -/

theorem modulus_prime : modulus.Prime := by
  have h := lucas_lehmer_sufficiency 31 (by norm_num) (by norm_num)
  simpa [mersenne, modulus] using h

instance : Fact modulus.Prime := ⟨modulus_prime⟩

theorem modulus_pos : 0 < modulus := modulus_prime.pos

theorem mulMod_lt (a b : ℕ) : mulMod a b < modulus := Nat.mod_lt _ modulus_pos

theorem element_lt (seed row col : ℕ) : element seed row col < modulus := Nat.mod_lt _ modulus_pos

/-- one step of every accumulator: neither the product nor the sum leaves 64 bits -/
theorem multiplyAdd_fits {a b acc : ℕ} (ha : a < 2 ^ 32) (hb : b < 2 ^ 32) (hacc : acc < modulus) :
    a * b ≤ u64Max ∧ acc + mulMod a b ≤ u64Max := by
  have hmul : a * b ≤ (2 ^ 32 - 1) * (2 ^ 32 - 1) := Nat.mul_le_mul (by omega) (by omega)
  have hmod := mulMod_lt a b
  unfold modulus at hacc hmod
  unfold u64Max
  omega

@[simp] theorem cast_mulMod (a b : ℕ) : ((mulMod a b : ℕ) : ZMod modulus) = a * b := by
  rw [mulMod, ZMod.natCast_mod, Nat.cast_mul]

/-- field values below the modulus are the same when they are the same in the field -/
theorem eq_of_cast_eq {a b : ℕ} (ha : a < modulus) (hb : b < modulus) (h : (a : ZMod modulus) = b) : a = b := by
  rw [ZMod.natCast_eq_natCast_iff'] at h
  rwa [Nat.mod_eq_of_lt ha, Nat.mod_eq_of_lt hb] at h

/-! ## Lists as vectors -/

/-- the first `dim` values of a list, in the field -/
def vec (dim : ℕ) (l : List ℕ) : Fin dim → ZMod modulus := fun i => (l.getD i 0 : ℕ)

/-- the virtual matrix of a seed -/
def virtualMatrix (seed dim : ℕ) : Matrix (Fin dim) (Fin dim) (ZMod modulus) := fun r c => (element seed r c : ℕ)

theorem eq_ofFn {α : Type} {dim : ℕ} {l : List α} (h : l.length = dim) (d : α) :
    l = List.ofFn fun i : Fin dim => l.getD i d := by
  refine List.ext_getElem (by rw [List.length_ofFn, h]) fun i h1 h2 => ?_
  rw [List.getElem_ofFn, List.getD_eq_getElem _ _ h1]

theorem sum_map_eq {α : Type} {dim : ℕ} {l : List α} (h : l.length = dim) (d : α) (f : α → ZMod modulus) :
    (l.map f).sum = ∑ i : Fin dim, f (l.getD i d) := by
  conv_lhs => rw [eq_ofFn h d]
  rw [List.map_ofFn, List.sum_ofFn]
  rfl

/-- lists of one length are the same when their vectors are, if their values are below the modulus -/
theorem eq_of_vec_eq {dim : ℕ} {l l' : List ℕ} (hl : l.length = dim) (hl' : l'.length = dim) (hlt : ∀ v ∈ l, v < modulus)
    (hlt' : ∀ v ∈ l', v < modulus) (h : vec dim l = vec dim l') : l = l' := by
  refine List.ext_getElem (hl.trans hl'.symm) fun i h1 h2 => ?_
  have hi := congrFun h ⟨i, hl ▸ h1⟩
  simp only [vec, List.getD_eq_getElem _ _ h1, List.getD_eq_getElem _ _ h2] at hi
  exact eq_of_cast_eq (hlt _ (List.getElem_mem h1)) (hlt' _ (List.getElem_mem h2)) hi

/-! ## The loops compute the field's values -/

section

variable {α : Type}

/-- a loop that adds a term in every step comes to the sum of the terms -/
theorem cast_foldl (step : ℕ → α → ℕ) (term : α → ZMod modulus)
    (h : ∀ acc a, ((step acc a : ℕ) : ZMod modulus) = acc + term a) (l : List α) (acc : ℕ) :
    ((l.foldl step acc : ℕ) : ZMod modulus) = acc + (l.map term).sum := by
  induction l generalizing acc with
  | nil => simp
  | cons a l ih => rw [List.foldl_cons, ih, h, List.map_cons, List.sum_cons, add_assoc]

/-- a loop that reduces in every step stays below the modulus -/
theorem foldl_lt (step : ℕ → α → ℕ) (h : ∀ acc a, acc < modulus → step acc a < modulus) (l : List α) {acc : ℕ}
    (hacc : acc < modulus) : l.foldl step acc < modulus := by
  induction l generalizing acc with
  | nil => exact hacc
  | cons a l ih => exact ih (h acc a hacc)

end

theorem dot_lt (left right : List ℕ) : dot left right < modulus :=
  foldl_lt _ (fun _ _ _ => Nat.mod_lt _ modulus_pos) _ modulus_pos

theorem cast_dot {dim : ℕ} {left right : List ℕ} (hl : left.length = dim) (hr : right.length = dim) :
    ((dot left right : ℕ) : ZMod modulus) = vec dim left ⬝ᵥ vec dim right := by
  have hstep : ∀ (acc : ℕ) (p : ℕ × ℕ), (((acc + mulMod p.1 p.2) % modulus : ℕ) : ZMod modulus) = acc + p.1 * p.2 := by
    intro acc p
    rw [ZMod.natCast_mod, Nat.cast_add, cast_mulMod]
  have hzip : (left.zip right).length = dim := by rw [List.length_zip, hl, hr, min_self]
  rw [dot, cast_foldl _ _ hstep, Nat.cast_zero, zero_add, sum_map_eq hzip (0, 0)]
  refine Finset.sum_congr rfl fun i _ => ?_
  rw [List.getD_eq_getElem _ _ (hzip ▸ i.isLt), List.getElem_zip]
  simp only [vec, List.getD_eq_getElem _ _ (hl ▸ i.isLt : (i : ℕ) < left.length),
    List.getD_eq_getElem _ _ (hr ▸ i.isLt : (i : ℕ) < right.length)]

theorem length_row (seed i dim : ℕ) : (row seed i dim).length = dim := by simp [row]

theorem length_matrixVector (seed dim : ℕ) (v : List ℕ) : (matrixVector seed dim v).length = dim := by simp [matrixVector]

theorem length_challengeVector (seed dim : ℕ) : (challengeVector seed dim).length = dim := by simp [challengeVector]

theorem vec_row (seed i dim : ℕ) :
    vec dim (row seed i dim) = fun c : Fin dim => ((element seed i c : ℕ) : ZMod modulus) := by
  funext c
  rw [vec, List.getD_eq_getElem _ _ (by rw [length_row]; exact c.isLt)]
  simp [row]

theorem vec_matrixVector (seed : ℕ) {dim : ℕ} {v : List ℕ} (hv : v.length = dim) :
    vec dim (matrixVector seed dim v) = virtualMatrix seed dim *ᵥ vec dim v := by
  funext r
  have hstep : ∀ (acc : ℕ) (p : ℕ × ℕ),
      (((if p.1 ≠ 0 then (acc + mulMod (element seed r p.2) p.1) % modulus else acc) : ℕ) : ZMod modulus) =
        acc + (element seed r p.2 : ℕ) * (p.1 : ℕ) := by
    intro acc p
    split_ifs with hzero
    · rw [ZMod.natCast_mod, Nat.cast_add, cast_mulMod]
    · rw [not_not.1 hzero, Nat.cast_zero, mul_zero, add_zero]
  have hlen : v.zipIdx.length = dim := by rw [List.length_zipIdx, hv]
  rw [vec, List.getD_eq_getElem _ _ (by rw [length_matrixVector]; exact r.isLt)]
  simp only [matrixVector, List.getElem_map, List.getElem_range]
  rw [cast_foldl _ _ hstep, Nat.cast_zero, zero_add, sum_map_eq hlen (0, 0)]
  refine Finset.sum_congr rfl fun c _ => ?_
  rw [List.getD_eq_getElem _ _ (hlen ▸ c.isLt), List.getElem_zipIdx]
  simp only [Nat.zero_add, virtualMatrix, vec, List.getD_eq_getElem _ _ (hv ▸ c.isLt : (c : ℕ) < v.length)]

/-- the accumulators of a row of the product, over the columns that are left -/
theorem multiplyRow_loop (seedB dim : ℕ) (l : List (ℕ × ℕ)) (acc : List ℕ) (hlen : acc.length = dim)
    (hlt : ∀ v ∈ acc, v < modulus) :
    ∃ out, l.foldl (fun acc (p : ℕ × ℕ) => if p.1 = 0 then acc
        else (acc.zip (row seedB p.2 dim)).map fun q => (q.1 + mulMod p.1 q.2) % modulus) acc = out ∧ out.length = dim ∧
      (∀ v ∈ out, v < modulus) ∧
      ∀ j, vec dim out j = vec dim acc j + (l.map fun p => (p.1 : ZMod modulus) * (element seedB p.2 j : ℕ)).sum := by
  induction l generalizing acc with
  | nil => exact ⟨acc, rfl, hlen, hlt, by simp⟩
  | cons p l ih =>
    rw [List.foldl_cons]
    split_ifs with hzero
    · obtain ⟨out, hout, houtlen, houtlt, hvec⟩ := ih acc hlen hlt
      refine ⟨out, hout, houtlen, houtlt, fun j => ?_⟩
      rw [hvec, List.map_cons, List.sum_cons, hzero, Nat.cast_zero, zero_mul, zero_add]
    · have hzip : (acc.zip (row seedB p.2 dim)).length = dim := by rw [List.length_zip, hlen, length_row, min_self]
      obtain ⟨out, hout, houtlen, houtlt, hvec⟩ := ih
        ((acc.zip (row seedB p.2 dim)).map fun q => (q.1 + mulMod p.1 q.2) % modulus) (by rw [List.length_map, hzip]) (by
          intro v hv
          obtain ⟨q, -, rfl⟩ := List.mem_map.1 hv
          exact Nat.mod_lt _ modulus_pos)
      refine ⟨out, hout, houtlen, houtlt, fun j => ?_⟩
      rw [hvec, List.map_cons, List.sum_cons, ← add_assoc]
      congr 1
      rw [vec, List.getD_eq_getElem _ _ (by rw [List.length_map, hzip]; exact j.isLt), List.getElem_map, List.getElem_zip,
        ZMod.natCast_mod, Nat.cast_add, cast_mulMod, vec, List.getD_eq_getElem _ _ (hlen ▸ j.isLt : (j : ℕ) < acc.length)]
      simp [row]

theorem multiplyRow_facts (seedA seedB dim i : ℕ) :
    (multiplyRow seedA seedB dim i).length = dim ∧ (∀ v ∈ multiplyRow seedA seedB dim i, v < modulus) ∧
      vec dim (multiplyRow seedA seedB dim i) = vec dim (row seedA i dim) ᵥ* virtualMatrix seedB dim := by
  obtain ⟨out, hout, hlen, hlt, hvec⟩ := multiplyRow_loop seedB dim (row seedA i dim).zipIdx (List.replicate dim 0)
    List.length_replicate (fun v hv => by rw [List.eq_of_mem_replicate hv]; exact modulus_pos)
  have heq : multiplyRow seedA seedB dim i = out := hout
  rw [heq]
  refine ⟨hlen, hlt, funext fun j => ?_⟩
  have hzip : (row seedA i dim).zipIdx.length = dim := by rw [List.length_zipIdx, length_row]
  have hzero : vec dim (List.replicate dim 0) j = 0 := by
    rw [vec, List.getD_eq_getElem _ _ (by rw [List.length_replicate]; exact j.isLt), List.getElem_replicate, Nat.cast_zero]
  rw [hvec, hzero, zero_add, sum_map_eq hzip (0, 0)]
  refine Finset.sum_congr rfl fun k _ => ?_
  rw [List.getD_eq_getElem _ _ (by rw [hzip]; exact k.isLt), List.getElem_zipIdx]
  simp only [Nat.zero_add, virtualMatrix, vec,
    List.getD_eq_getElem _ _ (by rw [length_row]; exact k.isLt : (k : ℕ) < (row seedA i dim).length)]

/-! ## One row's check -/

/-- the row of a claimed product at an offset -/
def rowClaim (rows : List ℕ) (dim offset : ℕ) : List ℕ := (rows.drop (offset * dim)).take dim

/-- every row check of a shard passes under a challenge -/
def PassesChallenge (seedA seedB dim rowStart rowEnd : ℕ) (rows challenge : List ℕ) : Prop :=
  ∀ offset < rowEnd - rowStart,
    dot (row seedA (rowStart + offset) dim) (matrixVector seedB dim challenge) = dot (rowClaim rows dim offset) challenge

/-- a row's check says that the challenge does not see the difference from the true row -/
theorem rowCheck_iff (seedA seedB i : ℕ) {dim : ℕ} {claimed challenge : List ℕ} (hclaimed : claimed.length = dim)
    (hchallenge : challenge.length = dim) :
    dot (row seedA i dim) (matrixVector seedB dim challenge) = dot claimed challenge ↔
      (vec dim (multiplyRow seedA seedB dim i) - vec dim claimed) ⬝ᵥ vec dim challenge = 0 := by
  have hexpected : ((dot (row seedA i dim) (matrixVector seedB dim challenge) : ℕ) : ZMod modulus) =
      vec dim (multiplyRow seedA seedB dim i) ⬝ᵥ vec dim challenge := by
    rw [cast_dot (length_row _ _ _) (length_matrixVector _ _ _), vec_matrixVector _ hchallenge, dotProduct_mulVec,
      (multiplyRow_facts seedA seedB dim i).2.2]
  have hclaim := cast_dot hclaimed hchallenge
  rw [sub_dotProduct, sub_eq_zero, ← hexpected, ← hclaim]
  exact ⟨fun h => by rw [h], eq_of_cast_eq (dot_lt _ _) (dot_lt _ _)⟩

/-! ## A shard's checks -/

section

variable {seedA seedB dim rowStart rowEnd nonce : ℕ} {rows : List ℕ}

theorem length_rowClaim (hlen : rows.length = (rowEnd - rowStart) * dim) {offset : ℕ} (h : offset < rowEnd - rowStart) :
    (rowClaim rows dim offset).length = dim := by
  have hfit : (offset + 1) * dim ≤ rows.length := by
    rw [hlen]
    exact Nat.mul_le_mul_right dim h
  rw [Nat.succ_mul] at hfit
  rw [rowClaim, List.length_take, List.length_drop]
  omega

theorem rowClaim_lt (hfield : ∀ v ∈ rows, v < modulus) (offset : ℕ) : ∀ v ∈ rowClaim rows dim offset, v < modulus :=
  fun v hv => hfield v (List.mem_of_mem_drop (List.mem_of_mem_take hv))

theorem length_multiplyRows (seedA seedB dim rowStart rowEnd : ℕ) :
    (multiplyRows seedA seedB dim rowStart rowEnd).length = (rowEnd - rowStart) * dim := by
  rw [multiplyRows, List.length_flatMap, List.map_congr_left fun i _ => (multiplyRow_facts seedA seedB dim i).1,
    List.map_const', List.sum_replicate, List.length_range', smul_eq_mul]

theorem multiplyRows_lt (seedA seedB dim rowStart rowEnd : ℕ) :
    ∀ v ∈ multiplyRows seedA seedB dim rowStart rowEnd, v < modulus := by
  intro v hv
  obtain ⟨i, -, hi⟩ := List.mem_flatMap.1 hv
  exact (multiplyRow_facts seedA seedB dim i).2.1 v hi

/-- the rows of the true product are the rows of the shard -/
theorem rowClaim_multiplyRows {offset : ℕ} (h : offset < rowEnd - rowStart) :
    rowClaim (multiplyRows seedA seedB dim rowStart rowEnd) dim offset =
      multiplyRow seedA seedB dim (rowStart + offset) := by
  have hrows : multiplyRows seedA seedB dim rowStart rowEnd =
      (List.range (rowEnd - rowStart)).flatMap fun offset => multiplyRow seedA seedB dim (rowStart + offset) := by
    rw [multiplyRows, List.range'_eq_map_range, List.flatMap_map]
  have hrow : ∀ offset, (multiplyRow seedA seedB dim (rowStart + offset)).length = dim :=
    fun offset => (multiplyRow_facts seedA seedB dim _).1
  refine List.ext_getElem? fun j => ?_
  rcases Nat.lt_or_ge j dim with hj | hj
  · rw [rowClaim, List.getElem?_take_of_lt hj, List.getElem?_drop, hrows, getElem?_flatMap_range hrow h hj]
  · rw [List.getElem?_eq_none (by rw [length_rowClaim (length_multiplyRows ..) h]; exact hj),
      List.getElem?_eq_none (by rw [hrow]; exact hj)]

/-- a shard is accepted when it has the right length, stays in the field and passes the challenge of the nonce -/
theorem freivalds_accepted : freivalds seedA seedB dim rowStart rowEnd rows nonce = .accepted .witness ↔
    rows.length = (rowEnd - rowStart) * dim ∧ (∀ v ∈ rows, v < modulus) ∧
      PassesChallenge seedA seedB dim rowStart rowEnd rows (challengeVector nonce dim) := by
  unfold freivalds
  by_cases hlen : rows.length = (rowEnd - rowStart) * dim
  case neg => simp [hlen]
  by_cases hfield : ∀ v ∈ rows, v < modulus
  case neg =>
    have hany : (rows.any fun v => decide (v ≥ modulus)) = true := by
      push Not at hfield
      simpa using hfield
    simp [hlen, hany, hfield]
  have hany : (rows.any fun v => decide (v ≥ modulus)) = false := by simpa using hfield
  simp only [hlen, hany, ne_eq, not_true_eq_false, if_false, Bool.false_eq_true, sampled_accepted, true_and,
    PassesChallenge, rowClaim, List.mem_range]
  refine ⟨fun h => ⟨hfield, fun offset hoffset => ?_⟩, fun h offset hoffset => ?_⟩
  · by_contra hne
    have := h offset hoffset
    rw [if_pos hne] at this
    cases this
  · rw [if_neg (not_not.2 (h.2 offset hoffset))]

/-- **Every challenge passes the true product.** -/
theorem passes_multiplyRows (seedA seedB rowStart rowEnd : ℕ) {challenge : List ℕ} (h : challenge.length = dim) :
    PassesChallenge seedA seedB dim rowStart rowEnd (multiplyRows seedA seedB dim rowStart rowEnd) challenge := by
  intro offset hoffset
  rw [rowCheck_iff seedA seedB _ (length_rowClaim (length_multiplyRows ..) hoffset) h, rowClaim_multiplyRows hoffset,
    sub_self, zero_dotProduct]

/-- what a claimed product is off by, row by row -/
def deviation (seedA seedB dim rowStart rowEnd : ℕ) (rows : List ℕ) :
    Matrix (Fin (rowEnd - rowStart)) (Fin dim) (ZMod modulus) :=
  fun offset => vec dim (multiplyRow seedA seedB dim (rowStart + offset)) - vec dim (rowClaim rows dim offset)

/-- a challenge passes when it does not see the deviation -/
theorem passes_iff (hlen : rows.length = (rowEnd - rowStart) * dim) {challenge : List ℕ} (h : challenge.length = dim) :
    PassesChallenge seedA seedB dim rowStart rowEnd rows challenge ↔
      deviation seedA seedB dim rowStart rowEnd rows *ᵥ vec dim challenge = 0 := by
  constructor
  · intro hpasses
    funext offset
    exact (rowCheck_iff seedA seedB _ (length_rowClaim hlen offset.isLt) h).1 (hpasses offset offset.isLt)
  · intro hzero offset hoffset
    exact (rowCheck_iff seedA seedB _ (length_rowClaim hlen hoffset) h).2 (congrFun hzero ⟨offset, hoffset⟩)

/-- a product that deviates nowhere is the true one -/
theorem eq_of_deviation_eq_zero (hlen : rows.length = (rowEnd - rowStart) * dim) (hfield : ∀ v ∈ rows, v < modulus)
    (h : deviation seedA seedB dim rowStart rowEnd rows = 0) : rows = multiplyRows seedA seedB dim rowStart rowEnd := by
  have hrow : ∀ offset < rowEnd - rowStart,
      rowClaim rows dim offset = rowClaim (multiplyRows seedA seedB dim rowStart rowEnd) dim offset := by
    intro offset hoffset
    have hfacts := multiplyRow_facts seedA seedB dim (rowStart + offset)
    have hvec : vec dim (multiplyRow seedA seedB dim (rowStart + offset)) = vec dim (rowClaim rows dim offset) :=
      sub_eq_zero.1 (congrFun h ⟨offset, hoffset⟩)
    rw [rowClaim_multiplyRows hoffset]
    exact (eq_of_vec_eq hfacts.1 (length_rowClaim hlen hoffset) hfacts.2.1 (rowClaim_lt hfield offset) hvec).symm
  refine List.ext_getElem? fun q => ?_
  rcases Nat.lt_or_ge q rows.length with hq | hq
  · -- the entry at `q` is in the row `q / dim`
    have hdim : 0 < dim := Nat.pos_of_ne_zero fun hzero => by
      rw [hlen, hzero, Nat.mul_zero] at hq
      cases hq
    have hoffset : q / dim < rowEnd - rowStart := Nat.div_lt_of_lt_mul (by rwa [mul_comm, ← hlen])
    have hsplit : q / dim * dim + q % dim = q := by rw [mul_comm]; exact Nat.div_add_mod q dim
    have hentry : ∀ l : List ℕ, (rowClaim l dim (q / dim))[q % dim]? = l[q]? := by
      intro l
      rw [rowClaim, List.getElem?_take_of_lt (Nat.mod_lt q hdim), List.getElem?_drop, hsplit]
    rw [← hentry rows, hrow _ hoffset, hentry]
  · rw [List.getElem?_eq_none hq, List.getElem?_eq_none]
    rwa [length_multiplyRows, ← hlen]

end

/-- **Freivalds.** Of all challenges, at most one in `modulus` lets a wrong product of a shard pass. -/
theorem freivalds_sound {seedA seedB dim rowStart rowEnd : ℕ} {rows : List ℕ}
    (hlen : rows.length = (rowEnd - rowStart) * dim) (hfield : ∀ v ∈ rows, v < modulus)
    (hwrong : rows ≠ multiplyRows seedA seedB dim rowStart rowEnd) :
    Nat.card {r : Fin dim → Fin modulus //
      PassesChallenge seedA seedB dim rowStart rowEnd rows (List.ofFn fun i => (r i).val)} ≤ modulus ^ (dim - 1) := by
  have hdeviates : deviation seedA seedB dim rowStart rowEnd rows ≠ 0 :=
    fun hzero => hwrong (eq_of_deviation_eq_zero hlen hfield hzero)
  have hvec : ∀ r : Fin dim → Fin modulus,
      vec dim (List.ofFn fun i => (r i).val) = fun i => ((r i).val : ZMod modulus) := by
    intro r
    funext i
    rw [vec, List.getD_eq_getElem _ _ (by rw [List.length_ofFn]; exact i.isLt), List.getElem_ofFn]
  have hinj : Function.Injective
      (fun r : {r : Fin dim → Fin modulus // PassesChallenge seedA seedB dim rowStart rowEnd rows
          (List.ofFn fun i => (r i).val)} =>
        (⟨fun i => ((r.val i).val : ZMod modulus), by
          rw [← hvec]
          exact (passes_iff hlen (List.length_ofFn)).1 r.property⟩ :
          {v : Fin dim → ZMod modulus // deviation seedA seedB dim rowStart rowEnd rows *ᵥ v = 0})) := by
    intro r r' heq
    refine Subtype.ext (funext fun i => Fin.ext ?_)
    exact eq_of_cast_eq (r.val i).isLt (r'.val i).isLt (congrFun (congrArg Subtype.val heq) i)
  calc Nat.card _ ≤ Nat.card {v : Fin dim → ZMod modulus // deviation seedA seedB dim rowStart rowEnd rows *ᵥ v = 0} :=
        Nat.card_le_card_of_injective _ hinj
    _ ≤ Fintype.card (ZMod modulus) ^ (Fintype.card (Fin dim) - 1) := card_mulVec_eq_zero_le hdeviates
    _ = modulus ^ (dim - 1) := by rw [ZMod.card, Fintype.card_fin]

/-- one entry, one too many -/
theorem freivalds_sound_one : Nat.card {r : Fin 1 → Fin modulus //
    PassesChallenge 1 2 1 0 1 [(multiplyRow 1 2 1 0).sum + 1] (List.ofFn fun i => (r i).val)} ≤ modulus ^ (1 - 1) :=
  freivalds_sound (by decide) (by decide +kernel) (by decide +kernel)

end Hocmesh.Compute
