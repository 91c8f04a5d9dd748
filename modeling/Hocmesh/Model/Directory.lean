/-
`TensorDirectory`: which tensors belong to which blocks, and which bytes of the file they are.

A tensor belongs to the block its name says, or to none. Ranges of blocks that tile `[0, layer_count())` share the tensors
out, each to one range or to the shared ones (`layer_ranges_partition`), as long as the block count is a number of 32 bits:
it is the highest index and one.

`extents_of` is the bytes of some tensors, sorted and merged. Merging loses nothing: the bytes of every tensor stand in
one of the merged spans (`mem_extentsOf`). What it adds is the padding between tensors (`extentsOf_filled`).
-/
import Hocmesh.Engine.Stage
import Hocmesh.Model.RoundTrip

namespace Hocmesh.Model

open Hocmesh.Base

/-! ## Sizes -/

/-- elements and bytes of a stored block -/
structure BlockLayout where
  elements : ℕ
  bytes : ℕ
deriving DecidableEq

/-- the layout of a GGML type code -/
def blockLayout : ℕ → Option BlockLayout
  | 0 => some ⟨1, 4⟩
  | 1 => some ⟨1, 2⟩
  | 2 => some ⟨32, 18⟩
  | 3 => some ⟨32, 20⟩
  | 6 => some ⟨32, 22⟩
  | 7 => some ⟨32, 24⟩
  | 8 => some ⟨32, 34⟩
  | 9 => some ⟨32, 36⟩
  | 10 => some ⟨256, 84⟩
  | 11 => some ⟨256, 110⟩
  | 12 => some ⟨256, 144⟩
  | 13 => some ⟨256, 176⟩
  | 14 => some ⟨256, 210⟩
  | 15 => some ⟨256, 292⟩
  | 16 => some ⟨256, 66⟩
  | 17 => some ⟨256, 74⟩
  | 18 => some ⟨256, 98⟩
  | 19 => some ⟨256, 50⟩
  | 20 => some ⟨32, 18⟩
  | 21 => some ⟨256, 110⟩
  | 22 => some ⟨256, 82⟩
  | 23 => some ⟨256, 136⟩
  | 24 => some ⟨1, 1⟩
  | 25 => some ⟨1, 2⟩
  | 26 => some ⟨1, 4⟩
  | 27 => some ⟨1, 8⟩
  | 28 => some ⟨1, 8⟩
  | 29 => some ⟨256, 56⟩
  | 30 => some ⟨1, 2⟩
  | _ => none

/-- `u64::checked_add` -/
def checkedAdd (a b : ℕ) : Option ℕ := if a + b < 2 ^ 64 then some (a + b) else none

/-- `u64::checked_mul` -/
def checkedMul (a b : ℕ) : Option ℕ := if a * b < 2 ^ 64 then some (a * b) else none

/-- `u64::saturating_add` -/
def saturatingAdd (a b : ℕ) : ℕ := min (a + b) (2 ^ 64 - 1)

namespace TensorInfo

variable (t : TensorInfo)

def elementCount : Option ℕ := t.dimensions.foldlM checkedMul 1

def dataLen : Option ℕ := do
  let layout ← blockLayout t.kind
  let elements ← t.elementCount
  let width := max layout.elements 1
  checkedMul ((elements + width - 1) / width) layout.bytes

/-- the block of a `blk.N.` name -/
def layerIndex : Option ℕ := Engine.layerIndex t.name

end TensorInfo

/-! ## Blocks -/

namespace TensorDirectory

variable (d : TensorDirectory)

def highestLayer : Option ℕ := (d.tensors.filterMap TensorInfo.layerIndex).max?

/-- one past the highest index, as a number of 32 bits -/
def layerCount : ℕ :=
  match d.highestLayer with
  | none => 0
  | some highest => (highest + 1) % 2 ^ 32

/-- the addition does not overflow -/
def CountFits : Prop := ∀ highest, d.highestLayer = some highest → highest + 1 < 2 ^ 32

def tensorsForLayers (start stop : ℕ) : List TensorInfo :=
  d.tensors.filter fun t => match t.layerIndex with
    | some i => start ≤ i ∧ i < stop
    | none => false

def sharedTensors : List TensorInfo := d.tensors.filter fun t => t.layerIndex.isNone

end TensorDirectory

/-- ranges that follow on each other from `start` to `stop` -/
inductive Tiles : ℕ → ℕ → List (ℕ × ℕ) → Prop
  | nil (n : ℕ) : Tiles n n []
  | cons {start next stop : ℕ} {ranges : List (ℕ × ℕ)} (h : start ≤ next) (rest : Tiles next stop ranges) :
      Tiles start stop ((start, next) :: ranges)

theorem Tiles.le {start stop : ℕ} {ranges : List (ℕ × ℕ)} (h : Tiles start stop ranges) : start ≤ stop := by
  induction h with
  | nil n => exact le_rfl
  | cons h _ ih => omega

theorem parseU32_lt {text : List Char} {n : ℕ} (h : Engine.parseU32 text = some n) : n < 2 ^ 32 := by
  unfold Engine.parseU32 at h
  dsimp only at h
  split_ifs at h with _ hlt
  obtain rfl := Option.some.inj h
  exact hlt

theorem layerIndex_lt {t : TensorInfo} {i : ℕ} (h : t.layerIndex = some i) : i < 2 ^ 32 := by
  unfold TensorInfo.layerIndex Engine.layerIndex at h
  split at h
  · split_ifs at h
    exact parseU32_lt h
  · cases h

/-- the tensors of a range, shared out among ranges that tile it -/
theorem tensorsForLayers_tiles (d : TensorDirectory) {start stop : ℕ} {ranges : List (ℕ × ℕ)}
    (h : Tiles start stop ranges) :
    (ranges.flatMap fun r => d.tensorsForLayers r.1 r.2).Perm (d.tensorsForLayers start stop) := by
  induction h with
  | nil n =>
    have hempty : d.tensorsForLayers n n = [] := by
      refine List.filter_eq_nil_iff.2 fun t _ => ?_
      cases t.layerIndex with
      | none => simp
      | some i =>
        simp only [decide_eq_true_eq]
        omega
    rw [hempty]
    exact .nil
  | @cons start next stop ranges hle rest ih =>
    have hle' := rest.le
    have hsplit := List.filter_append_perm (fun t : TensorInfo => match t.layerIndex with
      | some i => decide (i < next)
      | none => false) (d.tensorsForLayers start stop)
    refine .trans (ih.append_left _) (.trans (.of_eq ?_) hsplit)
    congr 1
    · unfold TensorDirectory.tensorsForLayers
      rw [List.filter_filter]
      refine List.filter_congr fun t _ => ?_
      cases t.layerIndex with
      | none => rfl
      | some i =>
        rw [← Bool.decide_and]
        refine decide_eq_decide.2 ?_
        omega
    · unfold TensorDirectory.tensorsForLayers
      rw [List.filter_filter]
      refine List.filter_congr fun t _ => ?_
      cases t.layerIndex with
      | none => rfl
      | some i =>
        rw [← decide_not, ← Bool.decide_and]
        refine decide_eq_decide.2 ?_
        omega

/-- **Blocks partition the tensors.** Whatever the ranges that tile the blocks of a directory, every tensor goes to one of
them or to the shared ones, and the block count does not overflow, exactly when no tensor names block `2^32 - 1`. -/
theorem layer_ranges_partition (d : TensorDirectory) :
    (d.CountFits ∧ ∀ ranges, Tiles 0 d.layerCount ranges →
      ((ranges.flatMap fun r => d.tensorsForLayers r.1 r.2) ++ d.sharedTensors).Perm d.tensors) ↔
      ∀ t ∈ d.tensors, t.layerIndex ≠ some (2 ^ 32 - 1) := by
  constructor
  · rintro ⟨hfits, -⟩ t ht hlast
    have hmem : 2 ^ 32 - 1 ∈ d.tensors.filterMap TensorInfo.layerIndex := List.mem_filterMap.2 ⟨t, ht, hlast⟩
    cases hhigh : d.highestLayer with
    | none =>
      rw [List.max?_eq_none_iff.1 hhigh] at hmem
      cases hmem
    | some highest =>
      have hle := (List.max?_eq_some_iff.1 hhigh).2 _ hmem
      have := hfits highest hhigh
      omega
  · intro hnone
    have hfits : d.CountFits := by
      intro highest hhigh
      obtain ⟨t, ht, hindex⟩ := List.mem_filterMap.1 (List.max?_eq_some_iff.1 hhigh).1
      have hlt := layerIndex_lt hindex
      have hne : highest ≠ 2 ^ 32 - 1 := fun heq => hnone t ht (by rw [hindex, heq])
      omega
    refine ⟨hfits, fun ranges htiles => ?_⟩
    have hall : ∀ t ∈ d.tensors, ∀ i, t.layerIndex = some i → i < d.layerCount := by
      intro t ht i hi
      have hmem : i ∈ d.tensors.filterMap TensorInfo.layerIndex := List.mem_filterMap.2 ⟨t, ht, hi⟩
      cases hhigh : d.highestLayer with
      | none =>
        rw [List.max?_eq_none_iff.1 hhigh] at hmem
        cases hmem
      | some highest =>
        have hle := (List.max?_eq_some_iff.1 hhigh).2 _ hmem
        have hfit := hfits highest hhigh
        simp only [TensorDirectory.layerCount, hhigh, Nat.mod_eq_of_lt hfit]
        omega
    have hblocks : d.tensorsForLayers 0 d.layerCount = d.tensors.filter fun t => !t.layerIndex.isNone := by
      refine List.filter_congr fun t ht => ?_
      cases hi : t.layerIndex with
      | none => rfl
      | some i => simp [hall t ht i hi]
    have htiled := tensorsForLayers_tiles d htiles
    rw [hblocks] at htiled
    refine .trans (htiled.append_right _) (.trans List.perm_append_comm ?_)
    exact List.filter_append_perm (fun t : TensorInfo => t.layerIndex.isNone) d.tensors

/-- a header whose one tensor names the last block there is -/
def lastBlockHeader : List UInt8 :=
  magic ++ le 4 3 ++ le 8 1 ++ le 8 0 ++ TensorInfo.write ⟨"blk.4294967295.attn_q.weight", [1], 0, 0⟩

/-- The count of its blocks wraps to none, and the tensor is in no range. -/
theorem last_block_lost :
    ∃ d, (tensorDirectory (skipValue 1)).run lastBlockHeader = .done (some d) ∧ ¬ d.CountFits ∧
      ¬ ∀ ranges, Tiles 0 d.layerCount ranges →
        ((ranges.flatMap fun r => d.tensorsForLayers r.1 r.2) ++ d.sharedTensors).Perm d.tensors := by
  refine ⟨⟨32, 96, [⟨"blk.4294967295.attn_q.weight", [1], 0, 0⟩]⟩, by decide +kernel, ?_, ?_⟩
  · intro hfits
    have := hfits (2 ^ 32 - 1) (by decide +kernel)
    omega
  · intro hall
    have hperm := (hall [] (.nil 0)).length_eq
    revert hperm
    decide +kernel

/-! ## Bytes -/

/-- a half-open span of a file -/
structure ByteExtent where
  start : ℕ
  stop : ℕ
deriving DecidableEq

namespace ByteExtent

variable (e : ByteExtent)

def len : ℕ := e.stop - e.start

def isEmpty : Bool := e.stop ≤ e.start

/-- its bytes are among those of the other -/
def LiesIn (held : ByteExtent) : Prop := held.start ≤ e.start ∧ e.stop ≤ held.stop

/-- by start and then by end -/
def before (a b : ByteExtent) : Prop := a.start < b.start ∨ (a.start = b.start ∧ a.stop ≤ b.stop)

instance (a b : ByteExtent) : Decidable (before a b) := inferInstanceAs (Decidable (_ ∨ _))

end ByteExtent

namespace TensorDirectory

variable (d : TensorDirectory)

/-- the bytes of a tensor: as many as its type and shape say, or, where the type is not known, up to where the next tensor
starts; not past the end of the file -/
def extentOf (t : TensorInfo) (fileLen : ℕ) : ByteExtent :=
  let start := saturatingAdd d.dataStart t.offset
  let stop := match t.dataLen with
    | some len => saturatingAdd start len
    | none =>
      match ((d.tensors.map TensorInfo.offset).filter fun offset => t.offset < offset).min? with
      | none => fileLen
      | some next => saturatingAdd d.dataStart next
  ⟨start, min stop fileLen⟩

/-- the spans after `last`, each merged into the one before when nothing but padding is between them -/
def mergeInto (alignment : ℕ) (last : ByteExtent) : List ByteExtent → List ByteExtent
  | [] => [last]
  | span :: spans =>
    if span.start ≤ (alignUp last.stop alignment).getD last.stop then
      mergeInto alignment ⟨last.start, max last.stop span.stop⟩ spans
    else last :: mergeInto alignment span spans

def merge (alignment : ℕ) : List ByteExtent → List ByteExtent
  | [] => []
  | span :: spans => mergeInto alignment span spans

def extentsOf (tensors : List TensorInfo) (fileLen : ℕ) : List ByteExtent :=
  merge d.alignment (((tensors.map fun t => d.extentOf t fileLen).filter fun span => !span.isEmpty).insertionSort
    ByteExtent.before)

def extentsForLayers (start stop fileLen : ℕ) : List ByteExtent :=
  d.extentsOf (d.tensorsForLayers start stop) fileLen

/-- what a stage needs of a file, as the loader checks it and as the fetcher asks for it -/
def neededExtents (start stop fileLen : ℕ) : List ByteExtent :=
  d.extentsForLayers start stop fileLen ++ d.extentsOf d.sharedTensors fileLen

/-- the fixed-size chunks that cover some spans -/
def chunksForExtents (extents : List ByteExtent) (chunkSize : ℕ) : Check (List ℕ) := do
  bailIf (¬ 0 < chunkSize) "chunk size must be greater than zero"
  let chunks := (extents.filter fun e => !e.isEmpty).flatMap fun e =>
    List.range' (e.start / chunkSize) ((e.stop - 1) / chunkSize + 1 - e.start / chunkSize)
  pure (chunks.insertionSort (· ≤ ·)).dedup

/-- every tensor inside the file, and no two of known length on the same bytes -/
def validate (fileLen : ℕ) : Check Unit := do
  bailIf (¬ d.dataStart ≤ fileLen) s!"GGUF tensor data starts at {d.dataStart} but the file is only {fileLen} bytes"
  let spans ← d.tensors.mapM' fun t => do
    let start ← orBail (checkedAdd d.dataStart t.offset) s!"tensor {t.name} has an offset that overflows"
    let stop ← match t.dataLen with
      | some len => orBail (checkedAdd start len) s!"tensor {t.name} has a length that overflows"
      | none => pure start
    bailIf (¬ stop ≤ fileLen) s!"tensor {t.name} runs to byte {stop} but the file is only {fileLen} bytes"
    pure (if t.dataLen.isSome then [((⟨start, stop⟩ : ByteExtent), t.name)] else [])
  let sorted := spans.flatten.insertionSort fun a b => ByteExtent.before a.1 b.1
  each (fun (pair : (ByteExtent × String) × (ByteExtent × String)) =>
    bailIf (¬ pair.1.1.stop ≤ pair.2.1.start) s!"tensors {pair.1.2} and {pair.2.2} overlap in the file")
    (sorted.zip sorted.tail)

end TensorDirectory

/-! ## Merging -/

theorem before_total (a b : ByteExtent) : ByteExtent.before a b ∨ ByteExtent.before b a := by
  unfold ByteExtent.before
  omega

theorem before_trans (a b c : ByteExtent) (h1 : ByteExtent.before a b) (h2 : ByteExtent.before b c) :
    ByteExtent.before a c := by
  unfold ByteExtent.before at *
  omega

theorem mergeInto_covers (alignment : ℕ) (spans : List ByteExtent) (last : ByteExtent)
    (hfirst : ∀ span ∈ spans, last.start ≤ span.start) (hsorted : spans.Pairwise ByteExtent.before) :
    ∀ span ∈ last :: spans, ∃ held ∈ TensorDirectory.mergeInto alignment last spans, span.LiesIn held := by
  induction spans generalizing last with
  | nil =>
    intro span hspan
    obtain rfl := List.mem_singleton.1 hspan
    exact ⟨span, List.mem_singleton.2 rfl, le_rfl, le_rfl⟩
  | cons next spans ih =>
    obtain ⟨hnext, hrest⟩ := List.pairwise_cons.1 hsorted
    have hlast := hfirst next List.mem_cons_self
    intro span hspan
    rw [TensorDirectory.mergeInto]
    split_ifs
    · -- the two are one span, which covers both
      have hmerged := ih ⟨last.start, max last.stop next.stop⟩
        (fun s hs => hfirst s (List.mem_cons_of_mem _ hs)) hrest
      rcases List.mem_cons.1 hspan with rfl | hspan
      · obtain ⟨held, hheld, h1, h2⟩ := hmerged _ List.mem_cons_self
        exact ⟨held, hheld, h1, le_trans (le_max_left _ _) h2⟩
      · rcases List.mem_cons.1 hspan with rfl | hspan
        · obtain ⟨held, hheld, h1, h2⟩ := hmerged _ List.mem_cons_self
          exact ⟨held, hheld, le_trans h1 hlast, le_trans (le_max_right _ _) h2⟩
        · exact hmerged span (List.mem_cons_of_mem _ hspan)
    · rcases List.mem_cons.1 hspan with rfl | hspan
      · exact ⟨span, List.mem_cons_self, le_rfl, le_rfl⟩
      · have hfirst' : ∀ s ∈ spans, next.start ≤ s.start := by
          intro s hs
          have := hnext s hs
          unfold ByteExtent.before at this
          omega
        obtain ⟨held, hheld, hcovers⟩ := ih next hfirst' hrest span hspan
        exact ⟨held, List.mem_cons_of_mem _ hheld, hcovers⟩

/-- **Merging loses nothing.** The bytes of a tensor stand in one of the merged spans. -/
theorem mem_extentsOf (d : TensorDirectory) {tensors : List TensorInfo} {t : TensorInfo} (ht : t ∈ tensors)
    {fileLen : ℕ} (hne : (d.extentOf t fileLen).isEmpty = false) :
    ∃ held ∈ d.extentsOf tensors fileLen, (d.extentOf t fileLen).LiesIn held := by
  have hmem : d.extentOf t fileLen ∈ ((tensors.map fun t => d.extentOf t fileLen).filter fun span =>
      !span.isEmpty).insertionSort ByteExtent.before := by
    rw [List.mem_insertionSort]
    exact List.mem_filter.2 ⟨List.mem_map_of_mem ht, by rw [hne]; rfl⟩
  have hsorted : (((tensors.map fun t => d.extentOf t fileLen).filter fun span =>
      !span.isEmpty).insertionSort ByteExtent.before).Pairwise ByteExtent.before := by
    have : Std.Total ByteExtent.before := ⟨before_total⟩
    have : IsTrans ByteExtent ByteExtent.before := ⟨before_trans⟩
    exact List.pairwise_insertionSort _ _
  unfold TensorDirectory.extentsOf
  cases hspans : ((tensors.map fun t => d.extentOf t fileLen).filter fun span =>
      !span.isEmpty).insertionSort ByteExtent.before with
  | nil =>
    rw [hspans] at hmem
    cases hmem
  | cons span spans =>
    rw [hspans] at hmem hsorted
    obtain ⟨hfirst, hrest⟩ := List.pairwise_cons.1 hsorted
    refine mergeInto_covers d.alignment spans span ?_ hrest _ hmem
    intro s hs
    have := hfirst s hs
    unfold ByteExtent.before at this
    omega

/-! ## What merging adds -/

/-- a byte of one of the spans, or of the padding behind one -/
def Touches (alignment : ℕ) (spans : List ByteExtent) (p : ℕ) : Prop :=
  ∃ s ∈ spans, (s.start ≤ p ∧ p < s.stop) ∨ (s.stop ≤ p ∧ p < (alignUp s.stop alignment).getD s.stop)

/-- a span of nothing but such bytes, which ends where one of the spans does -/
structure Filled (alignment : ℕ) (spans : List ByteExtent) (e : ByteExtent) : Prop where
  nonempty : e.start < e.stop
  stops : ∃ s ∈ spans, s.stop = e.stop
  touches : ∀ p, e.start ≤ p → p < e.stop → Touches alignment spans p

theorem mergeInto_filled {alignment : ℕ} {all : List ByteExtent} (spans : List ByteExtent) (last : ByteExtent)
    (hspans : ∀ s ∈ spans, s ∈ all ∧ s.start < s.stop) (hlast : Filled alignment all last) :
    ∀ e ∈ TensorDirectory.mergeInto alignment last spans, Filled alignment all e := by
  induction spans generalizing last with
  | nil =>
    intro e he
    obtain rfl := List.mem_singleton.1 he
    exact hlast
  | cons span spans ih =>
    obtain ⟨hmem, hne⟩ := hspans span List.mem_cons_self
    have hrest : ∀ s ∈ spans, s ∈ all ∧ s.start < s.stop := fun s hs => hspans s (List.mem_cons_of_mem _ hs)
    obtain ⟨s, hs, hstop⟩ := hlast.stops
    rw [TensorDirectory.mergeInto]
    split_ifs with hjoin
    · refine ih _ hrest ⟨?_, ?_, fun p h1 h2 => ?_⟩
      · have := hlast.nonempty
        dsimp only
        omega
      · rcases le_total last.stop span.stop with hle | hle
        · exact ⟨span, hmem, (max_eq_right hle).symm⟩
        · exact ⟨s, hs, hstop.trans (max_eq_left hle).symm⟩
      · dsimp only at h1 h2
        by_cases hold : p < last.stop
        · exact hlast.touches p h1 hold
        · by_cases hnew : span.start ≤ p
          · exact ⟨span, hmem, .inl ⟨hnew, by omega⟩⟩
          · -- between the two there is only padding
            rw [← hstop] at hjoin
            exact ⟨s, hs, .inr ⟨by omega, by omega⟩⟩
    · intro e he
      rcases List.mem_cons.1 he with rfl | he
      · exact hlast
      · exact ih span hrest ⟨hne, ⟨span, hmem, rfl⟩, fun p h1 h2 => ⟨span, hmem, .inl ⟨h1, h2⟩⟩⟩ e he

/-- the merged spans of some tensors hold their bytes, and of the bytes between only padding -/
theorem extentsOf_filled (d : TensorDirectory) (tensors : List TensorInfo) (fileLen : ℕ) :
    ∀ e ∈ d.extentsOf tensors fileLen, Filled d.alignment (tensors.map fun t => d.extentOf t fileLen) e := by
  have hspans : ∀ s ∈ ((tensors.map fun t => d.extentOf t fileLen).filter fun span => !span.isEmpty).insertionSort
      ByteExtent.before, s ∈ (tensors.map fun t => d.extentOf t fileLen) ∧ s.start < s.stop := by
    intro s hs
    rw [List.mem_insertionSort] at hs
    obtain ⟨hmem, hne⟩ := List.mem_filter.1 hs
    refine ⟨hmem, ?_⟩
    simpa [ByteExtent.isEmpty] using hne
  intro e he
  unfold TensorDirectory.extentsOf at he
  cases hlist : ((tensors.map fun t => d.extentOf t fileLen).filter fun span => !span.isEmpty).insertionSort
      ByteExtent.before with
  | nil =>
    rw [hlist] at he
    cases he
  | cons span spans =>
    rw [hlist] at he hspans
    obtain ⟨hmem, hne⟩ := hspans span List.mem_cons_self
    exact mergeInto_filled spans span (fun s hs => hspans s (List.mem_cons_of_mem _ hs))
      ⟨hne, ⟨span, hmem, rfl⟩, fun p h1 h2 => ⟨span, hmem, .inl ⟨h1, h2⟩⟩⟩ e he

theorem extentOf_stop (d : TensorDirectory) (t : TensorInfo) (fileLen : ℕ) : (d.extentOf t fileLen).stop ≤ fileLen :=
  min_le_right _ _

/-- what a stage needs, none of it empty or past the end of the file -/
theorem needed_within (d : TensorDirectory) (start stop fileLen : ℕ) :
    ∀ e ∈ d.neededExtents start stop fileLen, e.start < e.stop ∧ e.stop ≤ fileLen ∧
      ∀ p, e.start ≤ p → p < e.stop → Touches d.alignment
        ((d.tensorsForLayers start stop ++ d.sharedTensors).map fun t => d.extentOf t fileLen) p := by
  intro e he
  have hpart : ∀ tensors, (∀ t ∈ tensors, t ∈ d.tensorsForLayers start stop ++ d.sharedTensors) →
      e ∈ d.extentsOf tensors fileLen → e.start < e.stop ∧ e.stop ≤ fileLen ∧
        ∀ p, e.start ≤ p → p < e.stop → Touches d.alignment
          ((d.tensorsForLayers start stop ++ d.sharedTensors).map fun t => d.extentOf t fileLen) p := by
    intro tensors hsub hmem
    have hfilled := extentsOf_filled d tensors fileLen e hmem
    refine ⟨hfilled.nonempty, ?_, fun p h1 h2 => ?_⟩
    · obtain ⟨s, hs, hstop⟩ := hfilled.stops
      obtain ⟨t, -, rfl⟩ := List.mem_map.1 hs
      exact hstop ▸ extentOf_stop d t fileLen
    · obtain ⟨s, hs, hp⟩ := hfilled.touches p h1 h2
      obtain ⟨t, ht, rfl⟩ := List.mem_map.1 hs
      exact ⟨_, List.mem_map_of_mem (hsub t ht), hp⟩
  rcases List.mem_append.1 he with he | he
  · exact hpart _ (fun t ht => List.mem_append_left _ ht) he
  · exact hpart _ (fun t ht => List.mem_append_right _ ht) he

end Hocmesh.Model
